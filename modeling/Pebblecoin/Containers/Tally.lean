import Mathlib.Algebra.Order.BigOperators.Group.Finset

/-!
Running totals: the column sums of a table of weights of which finitely many rows
are not zero.
-/

namespace Pebblecoin.Containers

open scoped BigOperators

variable {ι δ : Type*}

/-- The totals are the sums of the weights over all rows. -/
structure Tally (w : ι → δ → Nat) (total : δ → Nat) : Prop where
  sums : ∃ rows : Finset ι, (∀ i ∉ rows, ∀ d, w i d = 0) ∧ ∀ d, total d = ∑ i ∈ rows, w i d

namespace Tally

variable {w : ι → δ → Nat} {total total' : δ → Nat}

theorem zero : Tally (fun (_ : ι) (_ : δ) => 0) fun _ => 0 :=
  ⟨∅, fun _ _ _ => rfl, fun _ => Finset.sum_empty.symm⟩

/-- The sum may be taken over any rows that contain those that are not zero. -/
theorem total_eq (h : Tally w total) {rows : Finset ι} (hrows : ∀ i ∉ rows, ∀ d, w i d = 0)
    (d : δ) : total d = ∑ i ∈ rows, w i d := by
  classical
  obtain ⟨rows', hrows', htotal⟩ := h.sums
  have hunion : ∀ {a b : Finset ι}, (∀ i ∉ a, ∀ d, w i d = 0) →
      ∑ i ∈ a, w i d = ∑ i ∈ a ∪ b, w i d := by
    intro a b ha
    refine Finset.sum_subset Finset.subset_union_left fun i _ hi => ha i hi d
  calc
    total d = ∑ i ∈ rows', w i d := htotal d
    _ = ∑ i ∈ rows' ∪ rows, w i d := hunion hrows'
    _ = ∑ i ∈ rows ∪ rows', w i d := by rw [Finset.union_comm]
    _ = ∑ i ∈ rows, w i d := (hunion hrows).symm

theorem le_total (h : Tally w total) (i : ι) (d : δ) : w i d ≤ total d := by
  obtain ⟨rows, hrows, htotal⟩ := h.sums
  rw [htotal d]
  by_cases hi : i ∈ rows
  · exact Finset.single_le_sum (f := fun j => w j d) (fun _ _ => Nat.zero_le _) hi
  · rw [hrows i hi d]
    exact Nat.zero_le _

/-- One row is replaced and the totals follow. -/
theorem update [DecidableEq ι] (h : Tally w total) (i : ι) (row : δ → Nat)
    (htotal : ∀ d, total' d + w i d = total d + row d) :
    Tally (Function.update w i row) total' := by
  obtain ⟨rows, hrows, -⟩ := h.sums
  have hrows' : ∀ j ∉ insert i rows, ∀ d, w j d = 0 :=
    fun j hj d => hrows j (fun hmem => hj (Finset.mem_insert_of_mem hmem)) d
  refine ⟨insert i rows, fun j hj d => ?_, fun d => ?_⟩
  · have hne : j ≠ i := fun heq => hj (heq ▸ Finset.mem_insert_self i rows)
    rw [Function.update_of_ne hne]
    exact hrows' j hj d
  · have hmem : i ∈ insert i rows := Finset.mem_insert_self i rows
    have hold : total d = w i d + ∑ j ∈ (insert i rows).erase i, w j d := by
      rw [h.total_eq hrows' d, ← Finset.add_sum_erase _ _ hmem]
    have hnew : ∑ j ∈ insert i rows, Function.update w i row j d =
        row d + ∑ j ∈ (insert i rows).erase i, w j d := by
      rw [← Finset.add_sum_erase _ _ hmem, Function.update_self]
      congr 1
      refine Finset.sum_congr rfl fun j hj => ?_
      rw [Function.update_of_ne (Finset.ne_of_mem_erase hj)]
    have := htotal d
    omega

end Tally

end Pebblecoin.Containers
