import Mathlib.Data.Finset.Insert
import Mathlib.Data.Finset.Erase

/-!
Tables that list, for each key, the items that have it.  A key that no item has is
not in the table.
-/

namespace Pebblecoin.Containers

variable {κ ι : Type*}

/-- The table lists exactly the pairs of the relation and has no empty set. -/
structure Indexes (index : κ → Option (Finset ι)) (keys : ι → κ → Prop) : Prop where
  exact : ∀ k i, i ∈ (index k).getD ∅ ↔ keys i k
  nonempty : ∀ k, index k ≠ some ∅

variable {index : κ → Option (Finset ι)} {keys : ι → κ → Prop}

theorem Indexes.congr {keys' : ι → κ → Prop} (h : Indexes index keys)
    (hkeys : ∀ i k, keys' i k ↔ keys i k) : Indexes index keys' :=
  ⟨fun k i => (h.exact k i).trans (hkeys i k).symm, h.nonempty⟩

theorem Indexes.eq_none_iff (h : Indexes index keys) {k : κ} :
    index k = none ↔ ∀ i, ¬ keys i k := by
  constructor
  · intro hnone i hi
    have hmem := (h.exact k i).mpr hi
    simp [hnone] at hmem
  · intro hfree
    cases hk : index k with
    | none => rfl
    | some items =>
      refine absurd (hk.trans (congrArg some ?_)) (h.nonempty k)
      refine Finset.eq_empty_of_forall_notMem fun i hi => hfree i ?_
      exact (h.exact k i).mp (by rwa [hk])

variable [DecidableEq κ] [DecidableEq ι]

namespace InvertedIndex

def insertKey (i : ι) (k : κ) (index : κ → Option (Finset ι)) : κ → Option (Finset ι) :=
  Function.update index k (some (insert i ((index k).getD ∅)))

def eraseKey (i : ι) (k : κ) (index : κ → Option (Finset ι)) : κ → Option (Finset ι) :=
  let rest := ((index k).getD ∅).erase i
  Function.update index k (if rest = ∅ then none else some rest)

theorem mem_insertKey {i j : ι} {k l : κ} :
    j ∈ (insertKey i k index l).getD ∅ ↔ j ∈ (index l).getD ∅ ∨ j = i ∧ l = k := by
  rw [insertKey, Function.update_apply]
  by_cases hl : l = k
  · subst hl
    simp [or_comm]
  · simp [hl]

theorem mem_eraseKey {i j : ι} {k l : κ} :
    j ∈ (eraseKey i k index l).getD ∅ ↔ j ∈ (index l).getD ∅ ∧ ¬ (j = i ∧ l = k) := by
  rw [eraseKey, Function.update_apply]
  by_cases hl : l = k
  · subst hl
    have hrest : (if ((index l).getD ∅).erase i = ∅ then none
        else some (((index l).getD ∅).erase i)).getD ∅ = ((index l).getD ∅).erase i := by
      split
      · rename_i hempty
        rw [hempty, Option.getD_none]
      · rfl
    rw [if_pos rfl, hrest, Finset.mem_erase]
    simp [and_comm]
  · simp [hl]

end InvertedIndex

open InvertedIndex

theorem Indexes.insertKey (h : Indexes index keys) (i : ι) (k : κ) :
    Indexes (insertKey i k index) fun j l => keys j l ∨ j = i ∧ l = k := by
  refine ⟨fun l j => ?_, fun l hl => ?_⟩
  · rw [mem_insertKey, h.exact]
  · rw [InvertedIndex.insertKey, Function.update_apply] at hl
    split at hl
    · simp at hl
    · exact h.nonempty l hl

theorem Indexes.eraseKey (h : Indexes index keys) (i : ι) (k : κ) :
    Indexes (eraseKey i k index) fun j l => keys j l ∧ ¬ (j = i ∧ l = k) := by
  refine ⟨fun l j => ?_, fun l hl => ?_⟩
  · rw [mem_eraseKey, h.exact]
  · rw [InvertedIndex.eraseKey, Function.update_apply] at hl
    split at hl
    · split at hl
      · cases hl
      · rename_i hne
        exact hne (Option.some.inj hl)
    · exact h.nonempty l hl

end Pebblecoin.Containers
