import Mathlib.Order.Lattice
import Mathlib.Data.List.Basic

/-!
Finite maps and sets kept as strictly increasing lists, so that equal contents
mean equal values and walking a container visits the keys in order.
-/

namespace Pebblecoin.Containers

instance uint16LinearOrder : LinearOrder UInt16 where
  le_refl := UInt16.le_refl
  le_trans _ _ _ := UInt16.le_trans
  le_antisymm _ _ := UInt16.le_antisymm
  le_total := UInt16.le_total
  lt_iff_le_not_ge _ _ := by
    simp only [UInt16.lt_iff_toNat_lt, UInt16.le_iff_toNat_le]
    omega
  toDecidableLE := inferInstance
  toDecidableEq := inferInstance
  toDecidableLT := inferInstance

instance uint64LinearOrder : LinearOrder UInt64 where
  le_refl := UInt64.le_refl
  le_trans _ _ _ := UInt64.le_trans
  le_antisymm _ _ := UInt64.le_antisymm
  le_total := UInt64.le_total
  lt_iff_le_not_ge _ _ := by
    simp only [UInt64.lt_iff_toNat_lt, UInt64.le_iff_toNat_le]
    omega
  toDecidableLE := inferInstance
  toDecidableEq := inferInstance
  toDecidableLT := inferInstance

variable {κ ν : Type} [LinearOrder κ]

/-- A finite map whose association list is strictly increasing in the key. -/
structure OrdMap (κ ν : Type) [LinearOrder κ] where
  toList : List (κ × ν)
  sorted : toList.Pairwise fun a b => a.1 < b.1
deriving DecidableEq

namespace OrdMap

def lookup (k : κ) : List (κ × ν) → Option ν
  | [] => none
  | (k', v) :: rest => if k' = k then some v else lookup k rest

def insertList (k : κ) (v : ν) : List (κ × ν) → List (κ × ν)
  | [] => [(k, v)]
  | (k', v') :: rest =>
    if k < k' then (k, v) :: (k', v') :: rest
    else if k = k' then (k, v) :: rest
    else (k', v') :: insertList k v rest

theorem mem_insertList {k : κ} {v : ν} {p : κ × ν} {l : List (κ × ν)}
    (h : p ∈ insertList k v l) : p = (k, v) ∨ p ∈ l := by
  induction l with
  | nil => simpa [insertList] using h
  | cons q l ih =>
    rw [insertList] at h
    split_ifs at h with hlt heq
    · simpa using h
    · rcases List.mem_cons.mp h with rfl | hp
      · exact .inl rfl
      · exact .inr (by simp [hp])
    · rcases List.mem_cons.mp h with rfl | hp
      · exact .inr (by simp)
      · exact (ih hp).imp_right fun hp => by simp [hp]

theorem insertList_sorted (k : κ) (v : ν) {l : List (κ × ν)}
    (h : l.Pairwise fun a b => a.1 < b.1) :
    (insertList k v l).Pairwise fun a b => a.1 < b.1 := by
  induction l with
  | nil => simp [insertList]
  | cons q l ih =>
    obtain ⟨hq, hl⟩ := List.pairwise_cons.mp h
    rw [insertList]
    split_ifs with hlt heq
    · refine List.pairwise_cons.mpr ⟨fun p hp => ?_, h⟩
      rcases List.mem_cons.mp hp with rfl | hp
      · exact hlt
      · exact hlt.trans (hq p hp)
    · exact List.pairwise_cons.mpr ⟨fun p hp => heq ▸ hq p hp, hl⟩
    · refine List.pairwise_cons.mpr ⟨fun p hp => ?_, ih hl⟩
      rcases mem_insertList hp with rfl | hp
      · exact lt_of_le_of_ne (not_lt.mp hlt) (Ne.symm heq)
      · exact hq p hp

theorem lookup_insertList (k k' : κ) (v : ν) (l : List (κ × ν)) :
    lookup k' (insertList k v l) = if k = k' then some v else lookup k' l := by
  induction l with
  | nil => simp [insertList, lookup]
  | cons q l ih =>
    rw [insertList]
    by_cases hlt : k < q.1
    · simp [hlt, lookup]
    by_cases heq : k = q.1
    · by_cases hk : q.1 = k' <;> simp [heq, lookup, hk]
    · by_cases hk : q.1 = k'
      · rw [if_neg hlt, if_neg heq]
        simp [lookup, hk, show k ≠ k' from hk ▸ heq]
      · simp [hlt, heq, lookup, hk, ih]

theorem lookup_eq_some_iff {k : κ} {v : ν} {l : List (κ × ν)}
    (h : l.Pairwise fun a b => a.1 < b.1) : lookup k l = some v ↔ (k, v) ∈ l := by
  induction l with
  | nil => simp [lookup]
  | cons q l ih =>
    obtain ⟨hq, hl⟩ := List.pairwise_cons.mp h
    rw [lookup]
    split_ifs with heq
    · constructor
      · rintro hv
        obtain rfl : q.2 = v := by simpa using hv
        exact List.mem_cons.mpr (.inl (by rw [← heq]))
      · intro hmem
        rcases List.mem_cons.mp hmem with rfl | hmem
        · rfl
        · exact absurd (hq _ hmem) (by simp [heq])
    · rw [ih hl, List.mem_cons]
      refine ⟨.inr, fun hmem => hmem.resolve_left ?_⟩
      rintro rfl
      exact heq rfl

def empty : OrdMap κ ν := ⟨[], List.Pairwise.nil⟩

def find? (m : OrdMap κ ν) (k : κ) : Option ν := lookup k m.toList

def contains (m : OrdMap κ ν) (k : κ) : Bool := (m.find? k).isSome

def insert (m : OrdMap κ ν) (k : κ) (v : ν) : OrdMap κ ν :=
  ⟨insertList k v m.toList, insertList_sorted k v m.sorted⟩

def erase (m : OrdMap κ ν) (k : κ) : OrdMap κ ν :=
  ⟨m.toList.filter fun p => p.1 ≠ k, m.sorted.filter _⟩

theorem mem_toList {m : OrdMap κ ν} {k : κ} {v : ν} :
    (k, v) ∈ m.toList ↔ m.find? k = some v :=
  (lookup_eq_some_iff m.sorted).symm

/-- The last of the selected keys is the greatest. -/
theorem le_of_getLast?_filter {m : OrdMap κ ν} {f : κ × ν → Bool} {p q : κ × ν}
    (h : (m.toList.filter f).getLast? = some p) (hq : q ∈ m.toList) (hf : f q = true) :
    q.1 ≤ p.1 := by
  obtain ⟨init, hinit⟩ := List.getLast?_eq_some_iff.mp h
  have hsorted := m.sorted.filter f
  have hmem : q ∈ m.toList.filter f := List.mem_filter.mpr ⟨hq, hf⟩
  rw [hinit] at hsorted hmem
  rcases List.mem_append.mp hmem with hmem | hmem
  · exact ((List.pairwise_append.mp hsorted).2.2 q hmem p (by simp)).le
  · rw [List.mem_singleton.mp hmem]

@[simp] theorem find?_empty (k : κ) : (empty : OrdMap κ ν).find? k = none := rfl

theorem find?_insert (m : OrdMap κ ν) (k k' : κ) (v : ν) :
    (m.insert k v).find? k' = if k = k' then some v else m.find? k' :=
  lookup_insertList k k' v m.toList

@[simp] theorem find?_insert_self (m : OrdMap κ ν) (k : κ) (v : ν) :
    (m.insert k v).find? k = some v := by simp [find?_insert]

theorem find?_insert_ne (m : OrdMap κ ν) {k k' : κ} (v : ν) (h : k ≠ k') :
    (m.insert k v).find? k' = m.find? k' := by simp [find?_insert, h]

theorem find?_erase (m : OrdMap κ ν) (k k' : κ) :
    (m.erase k).find? k' = if k = k' then none else m.find? k' := by
  apply Option.ext
  intro v
  rw [← mem_toList, erase, List.mem_filter, mem_toList]
  split_ifs with h
  · simp [h]
  · simp [Ne.symm h]

/-- The range insertion of an ordered map: the first entry of a key stays. -/
def ofList : List (κ × ν) → OrdMap κ ν
  | [] => empty
  | p :: l => (ofList l).insert p.1 p.2

theorem mem_of_mem_ofList {l : List (κ × ν)} {p : κ × ν} (h : p ∈ (ofList l).toList) :
    p ∈ l := by
  induction l with
  | nil => cases h
  | cons q l ih =>
    rcases mem_insertList h with rfl | hp
    · simp
    · simp [ih hp]

theorem length_insertList_le (k : κ) (v : ν) (l : List (κ × ν)) :
    (insertList k v l).length ≤ l.length + 1 := by
  induction l with
  | nil => simp [insertList]
  | cons q l ih =>
    rw [insertList]
    split_ifs <;> simp [ih]

theorem length_ofList_le (l : List (κ × ν)) : (ofList l).toList.length ≤ l.length := by
  induction l with
  | nil => simp [ofList, empty]
  | cons q l ih =>
    have := length_insertList_le q.1 q.2 (ofList l).toList
    simp only [ofList, insert, List.length_cons]
    omega

/-- A strictly increasing list is taken over unchanged. -/
theorem ofList_toList {l : List (κ × ν)} (h : l.Pairwise fun a b => a.1 < b.1) :
    (ofList l).toList = l := by
  induction l with
  | nil => rfl
  | cons q l ih =>
    obtain ⟨hq, hl⟩ := List.pairwise_cons.mp h
    simp only [ofList, insert, ih hl]
    cases l with
    | nil => rfl
    | cons r l => rw [insertList, if_pos (hq r (by simp))]

theorem ofList_of_sorted {l : List (κ × ν)} (h : l.Pairwise fun a b => a.1 < b.1) :
    ofList l = ⟨l, h⟩ := by
  rw [mk.injEq, ofList_toList h]

/-- Maps with the same contents are equal. -/
@[ext] theorem ext {m m' : OrdMap κ ν} (h : ∀ k, m.find? k = m'.find? k) : m = m' := by
  obtain ⟨l, hl⟩ := m
  obtain ⟨l', hl'⟩ := m'
  have hmem : ∀ p, p ∈ l ↔ p ∈ l' := fun p => by
    have hp : lookup p.1 l = lookup p.1 l' := h p.1
    rw [← lookup_eq_some_iff hl, ← lookup_eq_some_iff hl', hp]
  have hnodup : ∀ {l : List (κ × ν)}, l.Pairwise (fun a b => a.1 < b.1) → l.Nodup := fun hl =>
    hl.imp fun {a b} hab => by
      rintro rfl
      exact lt_irrefl _ hab
  have hperm : l.Perm l' := (List.perm_ext_iff_of_nodup (hnodup hl) (hnodup hl')).mpr hmem
  simp only [mk.injEq]
  exact hperm.eq_of_pairwise (fun a b _ _ hab hba => absurd hab (not_lt.mpr hba.le)) hl hl'

def mapValues {μ : Type} (f : ν → μ) (m : OrdMap κ ν) : OrdMap κ μ :=
  ⟨m.toList.map fun p => (p.1, f p.2), List.pairwise_map.mpr m.sorted⟩

@[simp] theorem find?_mapValues {μ : Type} (f : ν → μ) (m : OrdMap κ ν) (k : κ) :
    (m.mapValues f).find? k = (m.find? k).map f := by
  apply Option.ext
  intro v
  rw [← mem_toList, Option.map_eq_some_iff]
  simp only [mapValues, List.mem_map, Prod.mk.injEq, Prod.exists]
  constructor
  · rintro ⟨k', w, hmem, rfl, rfl⟩
    exact ⟨w, mem_toList.mp hmem, rfl⟩
  · rintro ⟨w, hw, rfl⟩
    exact ⟨k, w, mem_toList.mpr hw, rfl, rfl⟩

/-- A map whose keys are all in another one is no longer than that. -/
theorem length_le_of_contains {μ : Type} {m : OrdMap κ ν} {m' : OrdMap κ μ}
    (h : ∀ k, m'.contains k = true → m.contains k = true) :
    m'.toList.length ≤ m.toList.length := by
  have hnodup : (m'.toList.map Prod.fst).Nodup := (List.pairwise_map.mpr m'.sorted).imp ne_of_lt
  have hsub : m'.toList.map Prod.fst ⊆ m.toList.map Prod.fst := by
    intro k' hk'
    obtain ⟨⟨k, v⟩, hmem, rfl⟩ := List.mem_map.mp hk'
    have hc : m'.contains k = true := by simp [contains, mem_toList.mp hmem]
    obtain ⟨w, hw⟩ := Option.isSome_iff_exists.mp (h k hc)
    exact List.mem_map.mpr ⟨(k, w), mem_toList.mpr hw, rfl⟩
  simpa using List.Nodup.length_le_of_subset hnodup hsub

end OrdMap

/-- A finite set as an ordered map without values. -/
abbrev OrdSet (κ : Type) [LinearOrder κ] := OrdMap κ Unit

namespace OrdSet

def elems (s : OrdSet κ) : List κ := s.toList.map Prod.fst

def ofElems (l : List κ) : OrdSet κ := OrdMap.ofList (l.map (·, ()))

theorem elems_sorted (s : OrdSet κ) : s.elems.Pairwise (· < ·) :=
  List.pairwise_map.mpr s.sorted

theorem mem_elems {s : OrdSet κ} {k : κ} : k ∈ s.elems ↔ s.contains k = true := by
  rw [elems, OrdMap.contains, List.mem_map]
  constructor
  · rintro ⟨⟨k', u⟩, hmem, rfl⟩
    rw [OrdMap.mem_toList.mp hmem]
    rfl
  · intro h
    obtain ⟨u, hu⟩ := Option.isSome_iff_exists.mp h
    exact ⟨(k, u), OrdMap.mem_toList.mpr hu, rfl⟩

theorem contains_ofElems {l : List κ} {k : κ} : (ofElems l).contains k = true ↔ k ∈ l := by
  induction l with
  | nil => simp [ofElems, OrdMap.ofList, OrdMap.contains]
  | cons a l ih =>
    rw [ofElems, List.map_cons, OrdMap.ofList, OrdMap.contains, List.mem_cons, ← ih]
    rcases eq_or_ne a k with rfl | hk
    · simp
    · rw [OrdMap.find?_insert_ne _ _ hk, or_iff_right hk.symm]
      rfl

theorem elems_ofElems_perm {l : List κ} (hl : l.Nodup) : (ofElems l).elems.Perm l :=
  (List.perm_ext_iff_of_nodup ((elems_sorted _).imp ne_of_lt) hl).mpr fun _ =>
    mem_elems.trans contains_ofElems

end OrdSet

end Pebblecoin.Containers
