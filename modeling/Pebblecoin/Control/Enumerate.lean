import Mathlib.Data.List.Basic

/-!
Loops over a list with the number of the round, whose body may fail.
-/

namespace Pebblecoin.Control

variable {α σ ε : Type}

/-- The body is run for each element, with the number of the round from `i` on. -/
def forEnum (body : Nat → α → σ → Except ε σ) : (i : Nat) → List α → σ → Except ε σ
  | _, [], s => .ok s
  | i, a :: as, s =>
    match body i a s with
    | .error e => .error e
    | .ok s => forEnum body (i + 1) as s

/-- A body that never fails makes a fold. -/
theorem forEnum_eq_foldl {body : Nat → α → σ → Except ε σ} {f : σ → α → σ}
    (h : ∀ i a s, body i a s = .ok (f s a)) (i : Nat) (as : List α) (s : σ) :
    forEnum body i as s = .ok (as.foldl f s) := by
  induction as generalizing i s with
  | nil => rfl
  | cons a as ih => rw [forEnum, h, List.foldl_cons, ← ih (i + 1)]

/-- A body that fails at once ends the loop, if there is a round. -/
theorem forEnum_eq_error {body : Nat → α → σ → Except ε σ} {e : ε} {as : List α} (has : as ≠ [])
    (h : ∀ i a s, body i a s = .error e) (i : Nat) (s : σ) : forEnum body i as s = .error e := by
  cases as with
  | nil => exact absurd rfl has
  | cons a as => rw [forEnum, h]

end Pebblecoin.Control
