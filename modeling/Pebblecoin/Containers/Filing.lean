import Mathlib.Data.List.Nodup

/-!
Items that are filed in numbered groups, with an index that says in which group an item
is.  The number zero stands for no group.
-/

namespace Pebblecoin.Containers

universe u

variable {ι : Type u}

/-- The groups and the index say the same, and no item is filed twice. -/
structure Filed (index : ι → Option Nat) (group : Nat → List ι) : Prop where
  filed_iff : ∀ i j, j ≠ 0 → (index i = some j ↔ i ∈ group j)
  nodup : ∀ j, (group j).Nodup
  zero : group 0 = []

namespace Filed

variable {index index' : ι → Option Nat} {group : Nat → List ι}

theorem ne_zero (h : Filed index group) {i : ι} {j : Nat} (hi : i ∈ group j) : j ≠ 0 := by
  rintro rfl
  rw [h.zero] at hi
  cases hi

theorem eq_of_mem (h : Filed index group) {i : ι} {j j' : Nat} (hj : i ∈ group j)
    (hj' : i ∈ group j') : j = j' := by
  have hindex := (h.filed_iff i j (h.ne_zero hj)).mpr hj
  have hindex' := (h.filed_iff i j' (h.ne_zero hj')).mpr hj'
  exact Option.some.inj (hindex.symm.trans hindex')

/-- Only the numbers of groups count in the index. -/
theorem congr_index (h : Filed index group)
    (hindex : ∀ i j, j ≠ 0 → (index' i = some j ↔ index i = some j)) : Filed index' group :=
  ⟨fun i j hj => (hindex i j hj).trans (h.filed_iff i j hj), h.nodup, h.zero⟩

/-- A new group of items that were in none. -/
theorem push [BEq ι] [LawfulBEq ι] (h : Filed index group) {k : Nat} {items : List ι} (hk : k ≠ 0)
    (hnew : group k = []) (hnodup : items.Nodup) (hfree : ∀ i ∈ items, (index i).getD 0 = 0) :
    Filed (fun i => if items.contains i then some k else index i)
      (fun j => if j = k then items else group j) where
  filed_iff i j hj := by
    by_cases hi : i ∈ items
    · rw [if_pos (List.contains_iff_mem.mpr hi)]
      by_cases hjk : j = k
      · simp [hjk, hi]
      · have hout : i ∉ group j := by
          intro hmem
          have hfree := hfree i hi
          rw [(h.filed_iff i j hj).mpr hmem] at hfree
          exact hj hfree
        simp [hjk, hout, Ne.symm hjk]
    · rw [if_neg (fun hmem => hi (List.contains_iff_mem.mp hmem)), h.filed_iff i j hj]
      by_cases hjk : j = k
      · simp [hjk, hi, hnew]
      · rw [if_neg hjk]
  nodup j := by
    split
    · exact hnodup
    · exact h.nodup j
  zero := by
    rw [if_neg (Ne.symm hk)]
    exact h.zero

/-- An item is taken out of the groups and out of the index. -/
theorem erase [DecidableEq ι] (h : Filed index group) (item : ι) :
    Filed (Function.update index item none) (fun j => (group j).filter (· ≠ item)) where
  filed_iff i j hj := by
    by_cases hi : i = item
    · simp [hi]
    · simp [hi, h.filed_iff i j hj]
  nodup j := (h.nodup j).filter _
  zero := by rw [h.zero, List.filter_nil]

end Filed

end Pebblecoin.Containers
