import Mathlib.Data.List.Nodup

/-!
Key and value stores: a store that replaces the value of a known key, and tables whose
entries are visited in some order.
-/

namespace Pebblecoin.Containers

variable {κ ν : Type} [DecidableEq κ]

/-- A table without an order: its entries as some walk visits them. -/
structure UnorderedMap (κ ν : Type) where
  toList : List (κ × ν)
  nodup : (toList.map Prod.fst).Nodup

namespace UnorderedMap

variable {m : UnorderedMap κ ν} {k : κ} {v v' : ν}

def empty : UnorderedMap κ ν := ⟨[], .nil⟩

omit [DecidableEq κ] in
theorem value_unique (h : (k, v) ∈ m.toList) (h' : (k, v') ∈ m.toList) : v = v' := by
  have hpair := List.inj_on_of_nodup_map m.nodup h h' rfl
  exact congrArg Prod.snd hpair

end UnorderedMap

/-- The stored pairs, the latest first. -/
abbrev KeyedStore (κ ν : Type) := List (κ × ν)

namespace KeyedStore

variable {k k' : κ} {v : ν}

def store (l : KeyedStore κ ν) (k : κ) (v : ν) : KeyedStore κ ν :=
  (k, v) :: l.filter fun p => decide (p.1 ≠ k)

def load (l : KeyedStore κ ν) (k : κ) : Option ν :=
  (l.find? fun p => decide (p.1 = k)).map Prod.snd

@[simp] theorem load_nil (k : κ) : load ([] : KeyedStore κ ν) k = none := rfl

theorem load_store (l : KeyedStore κ ν) (k k' : κ) (v : ν) :
    (store l k v).load k' = if k = k' then some v else load l k' := by
  rw [load, store, List.find?_cons]
  rcases eq_or_ne k k' with rfl | hne
  · simp
  · have hsame : (fun p : κ × ν => decide (decide (p.1 ≠ k) = true ∧ decide (p.1 = k') = true)) =
        fun p => decide (p.1 = k') := by
      funext p
      rcases eq_or_ne p.1 k' with hp | hp
      · simp [hp, hne.symm]
      · simp [hp]
    rw [if_neg hne, decide_eq_false hne, load, List.find?_filter, hsame]

def storeAll (l : KeyedStore κ ν) (ps : List (κ × ν)) : KeyedStore κ ν :=
  ps.foldl (fun l p => l.store p.1 p.2) l

/-- Stored pairs that agree on their keys can all be loaded, and hide what was there. -/
theorem load_storeAll {l : KeyedStore κ ν} {ps : List (κ × ν)}
    (hps : ∀ k v v', (k, v) ∈ ps → (k, v') ∈ ps → v = v') :
    (l.storeAll ps).load k = some v ↔
      (k, v) ∈ ps ∨ (∀ v', (k, v') ∉ ps) ∧ l.load k = some v := by
  induction ps generalizing l with
  | nil => simp [storeAll]
  | cons p ps ih =>
    have hrest : ∀ k v v', (k, v) ∈ ps → (k, v') ∈ ps → v = v' := fun k v v' h h' =>
      hps k v v' (List.mem_cons_of_mem _ h) (List.mem_cons_of_mem _ h')
    rw [storeAll, List.foldl_cons, ← storeAll, ih hrest, load_store]
    constructor
    · rintro (hmem | ⟨hnone, hload⟩)
      · exact .inl (List.mem_cons_of_mem _ hmem)
      · split_ifs at hload with hk
        · cases hload
          exact .inl (hk ▸ List.mem_cons_self)
        · refine .inr ⟨fun v' hmem => ?_, hload⟩
          rcases List.mem_cons.mp hmem with hp | hmem
          · exact hk (congrArg Prod.fst hp).symm
          · exact hnone v' hmem
    · rintro (hmem | ⟨hnone, hload⟩)
      · rcases List.mem_cons.mp hmem with rfl | hmem
        · rw [if_pos rfl]
          rcases em (∃ v', (k, v') ∈ ps) with ⟨v', hv'⟩ | hnone
          · obtain rfl := hps k v v' List.mem_cons_self (List.mem_cons_of_mem _ hv')
            exact .inl hv'
          · exact .inr ⟨fun v' hv' => hnone ⟨v', hv'⟩, rfl⟩
        · exact .inl hmem
      · have hk : p.1 ≠ k := by
          rintro rfl
          exact hnone p.2 List.mem_cons_self
        rw [if_neg hk]
        exact .inr ⟨fun v' hv' => hnone v' (List.mem_cons_of_mem _ hv'), hload⟩

theorem load_storeAll_nil {ps : List (κ × ν)}
    (hps : ∀ k v v', (k, v) ∈ ps → (k, v') ∈ ps → v = v') :
    (storeAll [] ps).load k = some v ↔ (k, v) ∈ ps := by
  rw [load_storeAll hps, load_nil]
  simp

end KeyedStore

end Pebblecoin.Containers
