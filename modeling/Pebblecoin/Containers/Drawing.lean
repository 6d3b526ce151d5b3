import Mathlib.Algebra.GroupWithZero.Nat
import Mathlib.Data.List.Perm.Subperm

/-!
Drawing items from a pool without putting them back.
-/

namespace Pebblecoin.Containers

universe u

variable {α : Type u}

/-- Take out one item and move the last one to its place. -/
def popAt (idx : Nat) (pool : List α) : Option (α × List α) :=
  match pool[idx]?, pool.getLast? with
  | some item, some last => some (item, (pool.set idx last).dropLast)
  | _, _ => none

theorem popAt_perm {idx : Nat} {pool rest : List α} {item : α}
    (h : popAt idx pool = some (item, rest)) : (item :: rest).Perm pool := by
  rcases List.eq_nil_or_concat pool with rfl | ⟨init, last, rfl⟩
  · simp [popAt] at h
  rw [List.concat_eq_append] at h ⊢
  by_cases hidx : idx < init.length
  · have hpop : (init[idx], init.set idx last) = (item, rest) := by
      simpa [popAt, List.getElem?_append_left hidx, List.getElem?_eq_getElem hidx,
        List.set_append_left _ _ hidx] using h
    obtain ⟨rfl, rfl⟩ := Prod.mk.inj hpop
    calc (init[idx] :: init.set idx last).Perm (init[idx] :: last :: init.eraseIdx idx) :=
          (List.set_perm_cons_eraseIdx hidx last).cons _
      _ |>.Perm (last :: init[idx] :: init.eraseIdx idx) := List.Perm.swap ..
      _ |>.Perm (last :: init) := (List.getElem_cons_eraseIdx_perm hidx).cons last
      _ |>.Perm (init ++ [last]) := (List.perm_append_singleton last init).symm
  · have hlen : idx = init.length := by
      by_contra hne
      have hnone : (init ++ [last])[idx]? = none := List.getElem?_eq_none (by simp; omega)
      simp [popAt, hnone] at h
    subst hlen
    have hpop : (last, init) = (item, rest) := by
      simpa [popAt] using h
    obtain ⟨rfl, rfl⟩ := Prod.mk.inj hpop
    exact (List.perm_append_singleton last init).symm

/-- Take out the first item whose weight the choice does not exceed, the choice
being lowered by the weights before it. -/
def popWeighted (weight : α → UInt64) (choice : UInt64) : List α → Option (α × List α)
  | [] => none
  | item :: pool =>
    if choice ≤ weight item then some (item, pool)
    else (popWeighted weight (choice - weight item) pool).map fun (picked, rest) =>
      (picked, item :: rest)

theorem popWeighted_perm {weight : α → UInt64} {choice : UInt64} {pool rest : List α} {item : α}
    (h : popWeighted weight choice pool = some (item, rest)) : (item :: rest).Perm pool := by
  induction pool generalizing choice rest with
  | nil => cases h
  | cons first pool ih =>
    rw [popWeighted] at h
    split at h
    · obtain ⟨rfl, rfl⟩ := Prod.mk.inj (Option.some.inj h)
      exact List.Perm.refl _
    · obtain ⟨⟨picked, others⟩, hpicked, hpair⟩ := Option.map_eq_some_iff.mp h
      obtain ⟨rfl, rfl⟩ := Prod.mk.inj hpair
      exact (List.Perm.swap ..).trans ((ih hpicked).cons first)

/-- The place of the item that is taken out. -/
def weightedPosition (weight : α → UInt64) (choice : UInt64) : List α → Option Nat
  | [] => none
  | item :: pool =>
    if choice ≤ weight item then some 0
    else (weightedPosition weight (choice - weight item) pool).map (· + 1)

theorem popWeighted_eq (weight : α → UInt64) (choice : UInt64) (pool : List α) :
    popWeighted weight choice pool = (weightedPosition weight choice pool).bind fun i =>
      pool[i]?.map fun item => (item, pool.eraseIdx i) := by
  induction pool generalizing choice with
  | nil => rfl
  | cons first pool ih =>
    rw [popWeighted, weightedPosition]
    split_ifs
    · rfl
    · rw [ih, Option.bind_map, Option.map_bind]
      congr 1
      funext i
      simp [Function.comp_def]

theorem weightedPosition_lt {weight : α → UInt64} {choice : UInt64} {pool : List α} {i : Nat}
    (h : weightedPosition weight choice pool = some i) : i < pool.length := by
  induction pool generalizing choice i with
  | nil => cases h
  | cons first pool ih =>
    rw [weightedPosition] at h
    split_ifs at h
    · obtain rfl := Option.some.inj h
      exact Nat.zero_lt_succ _
    · obtain ⟨j, hj, rfl⟩ := Option.map_eq_some_iff.mp h
      exact Nat.succ_lt_succ (ih hj)

theorem exists_weightedPosition {weight : α → UInt64} {choice : UInt64} {pool : List α}
    (hpool : pool ≠ []) (hle : choice.toNat ≤ (pool.map fun item => (weight item).toNat).sum) :
    ∃ i, weightedPosition weight choice pool = some i := by
  induction pool generalizing choice with
  | nil => exact absurd rfl hpool
  | cons first pool ih =>
    rw [List.map_cons, List.sum_cons] at hle
    by_cases hfirst : choice ≤ weight first
    · exact ⟨0, by rw [weightedPosition, if_pos hfirst]⟩
    have hlt := UInt64.lt_iff_toNat_lt.mp (UInt64.not_le.mp hfirst)
    have hsub : (choice - weight first).toNat = choice.toNat - (weight first).toNat :=
      UInt64.toNat_sub_of_le _ _ (UInt64.le_iff_toNat_le.mpr (Nat.le_of_lt hlt))
    have hrest : pool ≠ [] := by
      rintro rfl
      rw [List.map_nil, List.sum_nil] at hle
      omega
    have hless : (choice - weight first).toNat ≤
        (pool.map fun item => (weight item).toNat).sum := by
      omega
    obtain ⟨i, hi⟩ := ih hrest hless
    exact ⟨i + 1, by rw [weightedPosition, if_neg hfirst, hi, Option.map_some]⟩

theorem nodup_of_subperm {picked pool : List α} (h : picked.Subperm pool) (hpool : pool.Nodup) :
    picked.Nodup := by
  obtain ⟨drawn, hperm, hsub⟩ := h
  exact hperm.nodup_iff.mp (hpool.sublist hsub)

theorem map_fst_zip_sublist {β : Type u} (items : List α) (others : List β) :
    ((items.zip others).map Prod.fst).Sublist items := by
  induction items generalizing others with
  | nil => simp
  | cons item items ih =>
    cases others with
    | nil => simp
    | cons other others => exact (ih others).cons_cons item

/-- Draws so far and what is left, after one more draw. -/
theorem perm_draw {item : α} {pool rest : List α} (picked : List α) (h : (item :: rest).Perm pool) :
    (picked ++ [item] ++ rest).Perm (picked ++ pool) := by
  rw [List.append_assoc, List.singleton_append]
  exact h.append_left picked

end Pebblecoin.Containers
