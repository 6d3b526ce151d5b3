import Mathlib.Data.Finset.Basic
import Mathlib.Data.Finset.Lattice.Lemmas

/-!
Sets and counters to which items were added one by one, and can be taken out again in any
order.
-/

namespace Pebblecoin.Containers

universe u v

variable {α : Type u} {β : Type v} [DecidableEq α]

/-- The set has these new items besides those of the base. -/
structure AddedTo (base : Finset α) (items : List α) (s : Finset α) : Prop where
  nodup : items.Nodup
  fresh : ∀ x ∈ items, x ∉ base
  eq_union : s = base ∪ items.toFinset

namespace AddedTo

variable {base s : Finset α} {items : List α} {x : α}

theorem nil (base : Finset α) : AddedTo base [] base :=
  ⟨List.nodup_nil, List.forall_mem_nil _, by simp⟩

theorem eq_base (h : AddedTo base [] s) : s = base := by
  simpa using h.eq_union

theorem insert (h : AddedTo base items s) (hx : x ∉ s) : AddedTo base (items ++ [x]) (insert x s) := by
  rw [h.eq_union, Finset.mem_union, not_or, List.mem_toFinset] at hx
  refine ⟨List.nodup_append.mpr ⟨h.nodup, List.nodup_singleton x, ?_⟩, ?_, ?_⟩
  · intro a ha b hb hab
    rw [List.mem_singleton.mp hb] at hab
    exact hx.2 (hab ▸ ha)
  · rw [List.forall_mem_append]
    exact ⟨h.fresh, fun y hy => List.mem_singleton.mp hy ▸ hx.1⟩
  · rw [h.eq_union, List.toFinset_append, ← Finset.union_assoc, List.toFinset_cons,
      List.toFinset_nil, Finset.union_insert, Finset.union_empty]

theorem mem (h : AddedTo base (x :: items) s) : x ∈ s := by
  rw [h.eq_union]
  exact Finset.mem_union_right _ (List.mem_toFinset.mpr List.mem_cons_self)

theorem erase (h : AddedTo base (x :: items) s) : AddedTo base items (s.erase x) := by
  obtain ⟨hnot, hnodup⟩ := List.nodup_cons.mp h.nodup
  obtain ⟨hbase, hfresh⟩ := List.forall_mem_cons.mp h.fresh
  refine ⟨hnodup, hfresh, ?_⟩
  rw [h.eq_union, List.toFinset_cons, Finset.union_insert, Finset.erase_insert]
  rw [Finset.mem_union, not_or, List.mem_toFinset]
  exact ⟨hbase, hnot⟩

/-! Items that records may have. -/

variable {f : β → Option α} {l : List β} {b : β}

theorem keep (h : AddedTo base (l.filterMap f) s) (hb : f b = none) :
    AddedTo base ((l ++ [b]).filterMap f) s := by
  rwa [List.filterMap_append, List.filterMap_cons_none hb, List.filterMap_nil, List.append_nil]

theorem enter (h : AddedTo base (l.filterMap f) s) (hb : f b = some x) (hx : x ∉ s) :
    AddedTo base ((l ++ [b]).filterMap f) (Insert.insert x s) := by
  rw [List.filterMap_append, List.filterMap_cons_some hb, List.filterMap_nil]
  exact h.insert hx

theorem skip (h : AddedTo base ((b :: l).filterMap f) s) (hb : f b = none) :
    AddedTo base (l.filterMap f) s := by
  rwa [List.filterMap_cons_none hb] at h

theorem first (h : AddedTo base ((b :: l).filterMap f) s) (hb : f b = some x) :
    AddedTo base (x :: l.filterMap f) s := by
  rwa [List.filterMap_cons_some hb] at h

end AddedTo

/-- The counters have been raised once for each item. -/
def CountedOn (base : α → Nat) (items : List α) (count : α → Nat) : Prop :=
  ∀ x, count x = base x + items.count x

namespace CountedOn

variable {base count : α → Nat} {items : List α} {x : α}

theorem nil (base : α → Nat) : CountedOn base [] base := fun _ => by simp

theorem eq_base (h : CountedOn base [] count) : count = base := by
  funext x
  simpa using h x

theorem raise (h : CountedOn base items count) :
    CountedOn base (items ++ [x]) (Function.update count x (count x + 1)) := by
  intro y
  rw [List.count_append]
  by_cases hy : y = x
  · subst hy
    rw [Function.update_self, h y, List.count_singleton_self, Nat.add_assoc]
  · rw [Function.update_of_ne hy, h y, List.count_cons_of_ne (Ne.symm hy), List.count_nil,
      Nat.add_zero]

theorem pos (h : CountedOn base (x :: items) count) : 0 < count x := by
  rw [h x, List.count_cons_self]
  omega

theorem lower (h : CountedOn base (x :: items) count) :
    CountedOn base items (Function.update count x (count x - 1)) := by
  intro y
  by_cases hy : y = x
  · subst hy
    rw [Function.update_self, h y, List.count_cons_self]
    omega
  · rw [Function.update_of_ne hy, h y, List.count_cons_of_ne (Ne.symm hy)]

variable {f : β → Option α} {l : List β} {b : β}

theorem keep (h : CountedOn base (l.filterMap f) count) (hb : f b = none) :
    CountedOn base ((l ++ [b]).filterMap f) count := by
  rwa [List.filterMap_append, List.filterMap_cons_none hb, List.filterMap_nil, List.append_nil]

theorem enter (h : CountedOn base (l.filterMap f) count) (hb : f b = some x) :
    CountedOn base ((l ++ [b]).filterMap f) (Function.update count x (count x + 1)) := by
  rw [List.filterMap_append, List.filterMap_cons_some hb, List.filterMap_nil]
  exact h.raise

theorem skip (h : CountedOn base ((b :: l).filterMap f) count) (hb : f b = none) :
    CountedOn base (l.filterMap f) count := by
  rwa [List.filterMap_cons_none hb] at h

theorem first (h : CountedOn base ((b :: l).filterMap f) count) (hb : f b = some x) :
    CountedOn base (x :: l.filterMap f) count := by
  rwa [List.filterMap_cons_some hb] at h

end CountedOn

end Pebblecoin.Containers
