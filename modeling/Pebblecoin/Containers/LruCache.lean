import Mathlib.Data.List.Nodup

/-!
A bounded cache that drops the entry used longest ago.
-/

namespace Pebblecoin.Containers

variable {κ ν : Type}

/-- Entries with distinct keys, the one used last first. -/
structure LruCache (κ ν : Type) (maxSize : Nat) where
  items : List (κ × ν)
  nodup : (items.map Prod.fst).Nodup
  length_le : items.length ≤ maxSize

namespace LruCache

variable {maxSize : Nat}

theorem nodup_nil : (([] : List (κ × ν)).map Prod.fst).Nodup := List.nodup_nil

theorem length_nil_le : ([] : List (κ × ν)).length ≤ maxSize := Nat.zero_le _

def clear (maxSize : Nat) : LruCache κ ν maxSize := ⟨[], nodup_nil, length_nil_le⟩

/-- Every entry satisfies `P`. -/
def All (P : κ → ν → Prop) (c : LruCache κ ν maxSize) : Prop := ∀ p ∈ c.items, P p.1 p.2

theorem all_clear (P : κ → ν → Prop) : (clear maxSize).All P := fun _ h => absurd h List.not_mem_nil

theorem All.mono {P Q : κ → ν → Prop} {c : LruCache κ ν maxSize} (h : c.All P)
    (himp : ∀ key value, P key value → Q key value) : c.All Q :=
  fun p hp => himp _ _ (h p hp)

end LruCache

variable [DecidableEq κ]

/-- The entries of other keys. -/
def dropKey (key : κ) (items : List (κ × ν)) : List (κ × ν) :=
  items.filter fun p => p.1 ≠ key

/-- Put an entry in front and drop the last if there are too many. -/
def pushItem (maxSize : Nat) (key : κ) (value : ν) (items : List (κ × ν)) : List (κ × ν) :=
  ((key, value) :: dropKey key items).take maxSize

theorem dropKey_sublist (key : κ) (items : List (κ × ν)) : (dropKey key items).Sublist items :=
  List.filter_sublist

theorem notMem_dropKey (key : κ) (items : List (κ × ν)) :
    key ∉ (dropKey key items).map Prod.fst := by
  intro hmem
  obtain ⟨p, hp, hkey⟩ := List.mem_map.mp hmem
  simp only [dropKey, List.mem_filter, decide_eq_true_eq] at hp
  exact hp.2 hkey

theorem nodup_pushItem {maxSize : Nat} {key : κ} {value : ν} {items : List (κ × ν)}
    (h : (items.map Prod.fst).Nodup) : ((pushItem maxSize key value items).map Prod.fst).Nodup := by
  have hrest : ((dropKey key items).map Prod.fst).Nodup :=
    h.sublist ((dropKey_sublist key items).map _)
  have hall : (((key, value) :: dropKey key items).map Prod.fst).Nodup :=
    List.nodup_cons.mpr ⟨notMem_dropKey key items, hrest⟩
  exact hall.sublist ((List.take_sublist _ _).map _)

theorem length_pushItem_le {maxSize : Nat} {key : κ} {value : ν} {items : List (κ × ν)} :
    (pushItem maxSize key value items).length ≤ maxSize :=
  List.length_take_le ..

namespace LruCache

variable {maxSize : Nat}

def put (c : LruCache κ ν maxSize) (key : κ) (value : ν) : LruCache κ ν maxSize :=
  ⟨pushItem maxSize key value c.items, nodup_pushItem c.nodup, length_pushItem_le⟩

/-- The value of a key, which moves to the front. -/
def get? (c : LruCache κ ν maxSize) (key : κ) : Option (ν × LruCache κ ν maxSize) :=
  match c.items.find? fun p => p.1 = key with
  | none => none
  | some p => some (p.2, c.put key p.2)

theorem mem_put {c : LruCache κ ν maxSize} {key : κ} {value : ν} {p : κ × ν}
    (h : p ∈ (c.put key value).items) : p = (key, value) ∨ p ∈ c.items := by
  rcases List.mem_cons.mp (List.mem_of_mem_take h) with heq | hold
  · exact Or.inl heq
  · exact Or.inr ((dropKey_sublist key c.items).subset hold)

theorem get?_eq_some {c c' : LruCache κ ν maxSize} {key : κ} {value : ν}
    (h : c.get? key = some (value, c')) : (key, value) ∈ c.items ∧ c' = c.put key value := by
  unfold get? at h
  split at h
  · cases h
  · rename_i p hp
    obtain ⟨rfl, rfl⟩ := Prod.mk.inj (Option.some.inj h)
    obtain rfl : p.1 = key := by simpa using List.find?_some hp
    exact ⟨List.mem_of_find?_eq_some hp, rfl⟩

theorem All.put {P : κ → ν → Prop} {c : LruCache κ ν maxSize} (h : c.All P) {key : κ} {value : ν}
    (hnew : P key value) : (c.put key value).All P := by
  intro p hp
  rcases mem_put hp with rfl | hold
  · exact hnew
  · exact h p hold

theorem All.get? {P : κ → ν → Prop} {c c' : LruCache κ ν maxSize} (h : c.All P) {key : κ}
    {value : ν} (hget : c.get? key = some (value, c')) : P key value ∧ c'.All P := by
  obtain ⟨hmem, rfl⟩ := get?_eq_some hget
  have hvalue := h _ hmem
  exact ⟨hvalue, h.put hvalue⟩

end LruCache

end Pebblecoin.Containers
