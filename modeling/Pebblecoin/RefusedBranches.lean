import Pebblecoin.Reorganizations

/-!
What becomes of a branch one of whose blocks the main chain refuses.
-/

namespace Pebblecoin

open Containers Control

namespace Storage

variable {env : Env} {now : UInt64} {s s' t : Storage} {b : Hash}

/-- A state that a run comes through, perhaps in the middle of an operation. -/
def MidRun (env : Env) (s : Storage) : Prop :=
  ∃ s₀ now, s₀.Reachable env ∧ Actions env (fun _ => True) now s₀ s

theorem MidRun.sound (h : MidRun env s) : s.Sound env := by
  obtain ⟨s₀, now, hreach, hrun⟩ := h
  exact Actions.sound hrun hreach.sound

theorem MidRun.worked (h : MidRun env s) : s.Worked env := by
  obtain ⟨s₀, now, hreach, hrun⟩ := h
  exact Actions.worked hrun hreach.sound hreach.worked

end Storage

end Pebblecoin
