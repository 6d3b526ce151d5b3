import Mathlib.Algebra.BigOperators.Group.List.Basic
import Mathlib.Algebra.Order.Ring.Int

/-!
Balances in exact integers and the changes that lead from one to the next.
-/

namespace Pebblecoin.Accounting

variable {κ : Type} [DecidableEq κ]

/-- What the changes add up to for one key. -/
def net (k : κ) (changes : List (κ × Int)) : Int :=
  ((changes.filter fun change => change.1 = k).map (·.2)).sum

@[simp] theorem net_nil (k : κ) : net k [] = 0 := rfl

@[simp] theorem net_cons (k j : κ) (x : Int) (changes : List (κ × Int)) :
    net k ((j, x) :: changes) = (if j = k then x else 0) + net k changes := by
  by_cases h : j = k
  · simp [net, h]
  · simp [net, h]

@[simp] theorem net_append (k : κ) (changes changes' : List (κ × Int)) :
    net k (changes ++ changes') = net k changes + net k changes' := by
  simp [net]

theorem net_eq_sum (k : κ) (changes : List (κ × Int)) :
    net k changes = (changes.map fun change => if change.1 = k then change.2 else 0).sum := by
  induction changes with
  | nil => rfl
  | cons change changes ih => rw [net_cons, ih, List.map_cons, List.sum_cons]

theorem net_eq_zero {k : κ} {changes : List (κ × Int)} (h : ∀ change ∈ changes, change.1 ≠ k) :
    net k changes = 0 := by
  rw [net_eq_sum]
  refine List.sum_eq_zero fun x hx => ?_
  obtain ⟨change, hchange, rfl⟩ := List.mem_map.mp hx
  exact if_neg (h change hchange)

/-- The changes lead from one balance to the other, and no balance is negative on the
way. -/
structure Carries (before : κ → Int) (changes : List (κ × Int)) (after : κ → Int) : Prop where
  total : ∀ k, after k = before k + net k changes
  nonneg : ∀ l, l <+: changes → ∀ k, 0 ≤ before k + net k l

namespace Carries

variable {a b c : κ → Int} {changes changes' : List (κ × Int)}

theorem nil (h : ∀ k, 0 ≤ a k) : Carries a [] a := by
  refine ⟨fun k => by simp, fun l hl k => ?_⟩
  obtain rfl := List.prefix_nil.mp hl
  simpa using h k

theorem single {j : κ} {x : Int} (ha : ∀ k, 0 ≤ a k) (hb : ∀ k, 0 ≤ b k)
    (h : ∀ k, b k = a k + if j = k then x else 0) : Carries a [(j, x)] b := by
  refine ⟨fun k => by simp [h k], fun l hl k => ?_⟩
  rcases List.prefix_cons_iff.mp hl with rfl | ⟨l', rfl, hl'⟩
  · simpa using ha k
  · obtain rfl := List.prefix_nil.mp hl'
    have hk := hb k
    rw [h k] at hk
    simpa using hk

theorem append (h : Carries a changes b) (h' : Carries b changes' c) :
    Carries a (changes ++ changes') c := by
  refine ⟨fun k => ?_, fun l hl k => ?_⟩
  · rw [h'.total, h.total, net_append, add_assoc]
  · rcases List.prefix_or_prefix_of_prefix hl (List.prefix_append changes changes') with hl' | ⟨l', rfl⟩
    · exact h.nonneg l hl' k
    · rw [net_append, ← add_assoc, ← h.total]
      exact h'.nonneg l' ((List.prefix_append_right_inj changes).mp hl) k

end Carries

end Pebblecoin.Accounting
