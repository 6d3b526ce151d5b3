import Mathlib.Data.List.Infix

/-!
How far two lists agree.
-/

namespace Pebblecoin.Containers

variable {α : Type} [DecidableEq α]

/-- The length of the longest common prefix. -/
def forkIndex : List α → List α → Nat
  | a :: as, b :: bs => if a = b then forkIndex as bs + 1 else 0
  | _, _ => 0

theorem forkIndex_le_left (as bs : List α) : forkIndex as bs ≤ as.length := by
  induction as generalizing bs with
  | nil => simp [forkIndex]
  | cons a as ih =>
    cases bs with
    | nil => simp [forkIndex]
    | cons b bs =>
      rw [forkIndex]
      split_ifs
      · exact Nat.succ_le_succ (ih bs)
      · exact Nat.zero_le _

theorem take_forkIndex (as bs : List α) :
    as.take (forkIndex as bs) = bs.take (forkIndex as bs) := by
  induction as generalizing bs with
  | nil => simp [forkIndex]
  | cons a as ih =>
    cases bs with
    | nil => simp [forkIndex]
    | cons b bs =>
      rw [forkIndex]
      split_ifs with hab
      · rw [List.take_succ_cons, List.take_succ_cons, hab, ih]
      · rfl

theorem forkIndex_le_right (as bs : List α) : forkIndex as bs ≤ bs.length := by
  have h := congrArg List.length (take_forkIndex as bs)
  have := forkIndex_le_left as bs
  simp only [List.length_take] at h
  omega

/-- Lists that agree up to an index do not fork before it. -/
theorem le_forkIndex {as bs : List α} {n : Nat} (has : n ≤ as.length)
    (h : as.take n = bs.take n) : n ≤ forkIndex as bs := by
  induction n generalizing as bs with
  | zero => exact Nat.zero_le _
  | succ n ih =>
    cases as with
    | nil => simp at has
    | cons a as =>
      cases bs with
      | nil => simp at h
      | cons b bs =>
        rw [List.take_succ_cons, List.take_succ_cons, List.cons.injEq] at h
        rw [forkIndex, if_pos h.1]
        exact Nat.succ_le_succ (ih (Nat.le_of_succ_le_succ has) h.2)

/-- At the fork the lists differ. -/
theorem getElem?_forkIndex_ne {as bs : List α} (hlt : forkIndex as bs < as.length) :
    as[forkIndex as bs]? ≠ bs[forkIndex as bs]? := by
  intro heq
  have hsucc : as.take (forkIndex as bs + 1) = bs.take (forkIndex as bs + 1) := by
    rw [List.take_add_one, List.take_add_one, take_forkIndex, heq]
  have := le_forkIndex (by omega) hsucc
  omega

theorem forkIndex_eq_length_iff {as bs : List α} :
    forkIndex as bs = as.length ↔ as <+: bs := by
  constructor
  · intro h
    have htake := take_forkIndex as bs
    rw [h, List.take_length] at htake
    rw [htake]
    exact List.take_prefix _ _
  · intro h
    refine le_antisymm (forkIndex_le_left as bs) (le_forkIndex le_rfl ?_)
    rw [List.take_length]
    exact List.prefix_iff_eq_take.mp h

theorem forkIndex_append (cs as bs : List α) :
    forkIndex (cs ++ as) (cs ++ bs) = cs.length + forkIndex as bs := by
  induction cs with
  | nil => simp
  | cons c cs ih =>
    rw [List.cons_append, List.cons_append, forkIndex, if_pos rfl, ih, List.length_cons]
    omega

theorem forkIndex_take (as bs : List α) (m : Nat) :
    forkIndex (as.take m) bs = min m (forkIndex as bs) := by
  induction as generalizing bs m with
  | nil => simp [forkIndex]
  | cons a as ih =>
    cases m with
    | zero => simp [forkIndex]
    | succ m =>
      cases bs with
      | nil => simp [forkIndex]
      | cons b bs =>
        rw [List.take_succ_cons, forkIndex, forkIndex, ih]
        split_ifs
        · omega
        · omega

end Pebblecoin.Containers
