import Mathlib.Data.List.Sort

/-!
Lists in descending order of a key: the place of an element is the number of elements
with a greater key.
-/

namespace Pebblecoin.Containers

variable {α β : Type} [LinearOrder β] {f : α → β} {l l' : List α} {x : α} {i n : Nat}

/-- From the greatest key to the least, without ties. -/
def Descending (f : α → β) (l : List α) : Prop := l.Pairwise fun x y => f y < f x

namespace Descending

/-- The elements with a greater key are those before. -/
theorem countP_lt (h : Descending f l) (hx : l[i]? = some x) :
    l.countP (fun y => f x < f y) = i := by
  induction l generalizing i with
  | nil => cases hx
  | cons a l ih =>
    obtain ⟨hfirst, hrest⟩ := List.pairwise_cons.mp h
    cases i with
    | zero =>
      obtain rfl : a = x := by simpa using hx
      refine List.countP_eq_zero.mpr fun y hy => ?_
      rcases List.mem_cons.mp hy with rfl | hy
      · simp
      · simpa using (hfirst y hy).le
    | succ i =>
      have hx' : l[i]? = some x := by simpa using hx
      have hlt := hfirst x (List.mem_of_getElem? hx')
      rw [List.countP_cons, ih hrest hx', if_pos (by simpa using hlt)]

theorem mem_take_iff (h : Descending f l) (hx : x ∈ l) :
    x ∈ l.take n ↔ l.countP (fun y => f x < f y) < n := by
  obtain ⟨i, hi⟩ := List.mem_iff_getElem?.mp hx
  rw [h.countP_lt hi]
  constructor
  · intro hmem
    obtain ⟨j, hj⟩ := List.mem_iff_getElem?.mp hmem
    have hjn : j < n := by
      have hlt := (List.getElem?_eq_some_iff.mp hj).1
      rw [List.length_take] at hlt
      omega
    rw [List.getElem?_take_of_lt hjn] at hj
    rw [← h.countP_lt hi, h.countP_lt hj]
    exact hjn
  · intro hlt
    exact List.mem_of_getElem? ((List.getElem?_take_of_lt hlt).trans hi)

/-- There is one descending arrangement. -/
theorem eq_of_perm (h : Descending f l) (h' : Descending f l') (hperm : l.Perm l') : l = l' :=
  hperm.eq_of_pairwise (fun _ _ _ _ hab hba => absurd hab (lt_asymm hba)) h h'

theorem map_countP (h : Descending f l) :
    l.map (fun x => l.countP fun y => f x < f y) = List.range l.length := by
  refine List.ext_getElem? fun i => ?_
  rw [List.getElem?_map]
  rcases Nat.lt_or_ge i l.length with hi | hi
  · rw [List.getElem?_eq_getElem hi, Option.map_some, h.countP_lt (List.getElem?_eq_getElem hi),
      List.getElem?_range hi]
  · rw [List.getElem?_eq_none hi, List.getElem?_eq_none (by simpa using hi)]
    rfl

end Descending

/-- Sorting and reversing leads to the descending arrangement if no key occurs twice. -/
theorem descending_insertionSort_reverse {r : α → α → Prop} [DecidableRel r]
    (hr : ∀ x y, r x y ↔ f x ≤ f y) (hinj : (l.map f).Nodup) :
    Descending f (l.insertionSort r).reverse := by
  have htotal : Std.Total r := ⟨fun x y => by
    simp only [hr]
    exact le_total ..⟩
  have htrans : IsTrans α r := ⟨fun x y z => by
    simp only [hr]
    exact le_trans⟩
  have hsorted : (l.insertionSort r).Pairwise r := List.pairwise_insertionSort r l
  have hnodup : (l.insertionSort r).Pairwise fun x y => f x ≠ f y := by
    rw [← List.pairwise_map]
    exact ((List.perm_insertionSort r l).map f).nodup_iff.mpr hinj
  refine List.pairwise_reverse.mpr ((hsorted.and hnodup).imp fun h => ?_)
  exact lt_of_le_of_ne ((hr _ _).mp h.1) h.2

/-- Items whose ranks are their places, from `start` on. -/
theorem filter_places_eq {rank : α → Nat} {start : Nat} (first last : Nat)
    (h : ∀ i x, l[i]? = some x → rank x = start + i) :
    l.filter (fun x => first ≤ rank x && rank x < last) =
      (l.take (last - start)).drop (first - start) := by
  induction l generalizing start with
  | nil => simp
  | cons a l ih =>
    have hplace : rank a = start := h 0 a rfl
    have hlater : ∀ i x, l[i]? = some x → rank x = start + 1 + i := by
      intro i x hx
      rw [h (i + 1) x (by simpa using hx)]
      omega
    rw [List.filter_cons, hplace, ih hlater]
    rcases Nat.lt_or_ge start last with hlast | hlast
    · rw [show last - start = last - (start + 1) + 1 by omega, List.take_succ_cons]
      rcases Nat.lt_or_ge start first with hfirst | hfirst
      · rw [show first - start = first - (start + 1) + 1 by omega, List.drop_succ_cons,
          if_neg (by simp; omega)]
      · rw [Nat.sub_eq_zero_of_le hfirst, Nat.sub_eq_zero_of_le (by omega), List.drop_zero,
          List.drop_zero, if_pos (by simp; omega)]
    · have hnone : last - start = 0 := Nat.sub_eq_zero_of_le hlast
      have hnone' : last - (start + 1) = 0 := by omega
      rw [hnone, hnone', List.take_zero, List.take_zero, List.drop_nil, List.drop_nil,
        if_neg (by simp; omega)]

section Sorted

variable {r : α → α → Prop} [DecidableRel r]

/-- The place in the sorted list is the number of smaller elements. -/
theorem countP_lt_insertionSort (hr : ∀ x y, r x y ↔ f x ≤ f y) (hinj : (l.map f).Nodup)
    (hx : (l.insertionSort r)[i]? = some x) : l.countP (fun y => f y < f x) = i := by
  have hdescending := List.pairwise_reverse.mp (descending_insertionSort_reverse hr hinj)
  have hdual : Descending (fun x => OrderDual.toDual (f x)) (l.insertionSort r) :=
    hdescending.imp fun h => OrderDual.toDual_lt_toDual.mpr h
  rw [← (List.perm_insertionSort r l).countP_eq, ← hdual.countP_lt hx]
  rfl

/-- Cutting a range out of the sorted list keeps the elements with so many smaller ones. -/
theorem perm_cut_insertionSort (first last : Nat) (hr : ∀ x y, r x y ↔ f x ≤ f y)
    (hinj : (l.map f).Nodup) :
    (((l.insertionSort r).take last).drop first).Perm
      (l.filter fun x => first ≤ l.countP (fun y => f y < f x) &&
        l.countP (fun y => f y < f x) < last) := by
  have hplaces : ∀ i x, (l.insertionSort r)[i]? = some x →
      l.countP (fun y => f y < f x) = 0 + i := by
    intro i x hx
    rw [countP_lt_insertionSort hr hinj hx, Nat.zero_add]
  have hcut := filter_places_eq first last hplaces
  rw [Nat.sub_zero, Nat.sub_zero] at hcut
  rw [← hcut]
  exact (List.perm_insertionSort r l).filter _

end Sorted

section Places

variable [DecidableEq α] {ranks : α → Option Nat} {start : Nat}

/-- The place of an element, written over an earlier one. -/
def writePlace (ranks : α → Option Nat) (p : α × Nat) : α → Option Nat :=
  fun x => if x = p.1 then some p.2 else ranks x

theorem foldl_writePlace_of_notMem (hx : x ∉ l) :
    (l.zipIdx start).foldl writePlace ranks x =
      ranks x := by
  induction l generalizing ranks start with
  | nil => rfl
  | cons a l ih =>
    obtain ⟨hne, hx⟩ := not_or.mp (mt List.mem_cons.mpr hx)
    rw [List.zipIdx_cons, List.foldl_cons, ih hx, writePlace, if_neg hne]

theorem foldl_writePlace (hl : l.Nodup) (hx : l[i]? = some x) :
    (l.zipIdx start).foldl writePlace ranks x =
      some (start + i) := by
  induction l generalizing ranks start i with
  | nil => cases hx
  | cons a l ih =>
    obtain ⟨hnotMem, hl⟩ := List.nodup_cons.mp hl
    rw [List.zipIdx_cons, List.foldl_cons]
    cases i with
    | zero =>
      obtain rfl : a = x := by simpa using hx
      rw [foldl_writePlace_of_notMem hnotMem, writePlace, if_pos rfl, Nat.add_zero]
    | succ i =>
      rw [ih hl (by simpa using hx)]
      congr 1
      omega

end Places

end Pebblecoin.Containers
