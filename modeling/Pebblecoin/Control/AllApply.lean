import Mathlib.Data.List.Basic

/-!
Running a fallible state-changing step over a list until it first fails, and
undoing such a run backwards.
-/

namespace Pebblecoin.Control

variable {α σ : Type*}

/-- Apply `step` to the elements in order; the first failure ends the run and
keeps what was changed so far. -/
def allApply (step : α → σ → Bool × σ) : List α → σ → Bool × σ
  | [], s => (true, s)
  | a :: as, s =>
    match step a s with
    | (true, s') => allApply step as s'
    | (false, s') => (false, s')

@[simp] theorem allApply_nil (step : α → σ → Bool × σ) (s : σ) :
    allApply step [] s = (true, s) := rfl

theorem allApply_cons_of_true {step : α → σ → Bool × σ} {a : α} {as : List α} {s m : σ}
    (h : step a s = (true, m)) : allApply step (a :: as) s = allApply step as m := by
  rw [allApply, h]

theorem allApply_cons_eq_true_iff {step : α → σ → Bool × σ} {a : α} {as : List α} {s s' : σ} :
    allApply step (a :: as) s = (true, s') ↔
      ∃ m, step a s = (true, m) ∧ allApply step as m = (true, s') := by
  rw [allApply]
  split
  · rename_i m hm
    simp [hm]
  · rename_i m hm
    simp [hm]

theorem allApply_map {β : Type*} (step : α → σ → Bool × σ) (f : β → α) (bs : List β) (s : σ) :
    allApply step (bs.map f) s = allApply (fun b => step (f b)) bs s := by
  induction bs generalizing s with
  | nil => rfl
  | cons b bs ih =>
    rw [List.map_cons, allApply, allApply]
    split
    · exact ih _
    · rfl

/-- What every step keeps, whether it succeeds or not, the run keeps. -/
theorem allApply_keeps {step : α → σ → Bool × σ} {P : σ → Prop} {as : List α}
    (hstep : ∀ a ∈ as, ∀ s, P s → P (step a s).2) {s : σ} (hs : P s) :
    P (allApply step as s).2 := by
  induction as generalizing s with
  | nil => exact hs
  | cons a as ih =>
    have ha := hstep a (by simp) s hs
    rw [allApply]
    split
    · rename_i m hm
      rw [hm] at ha
      exact ih (fun b hb => hstep b (by simp [hb])) ha
    · rename_i m hm
      rwa [hm] at ha

/-- What every successful step keeps, a successful run keeps. -/
theorem allApply_keeps_of_true {step : α → σ → Bool × σ} {P : σ → Prop} {as : List α}
    (hstep : ∀ a ∈ as, ∀ s s', P s → step a s = (true, s') → P s') {s s' : σ} (hs : P s)
    (h : allApply step as s = (true, s')) : P s' := by
  induction as generalizing s with
  | nil =>
    obtain rfl : s = s' := by simpa using h
    exact hs
  | cons a as ih =>
    obtain ⟨m, hm, hrest⟩ := allApply_cons_eq_true_iff.mp h
    exact ih (fun b hb => hstep b (by simp [hb])) (hstep a (by simp) s m hs hm) hrest

/-- A run succeeds if every step does, from any state that fits the elements before it. -/
theorem allApply_progress {step : α → σ → Bool × σ} {P : List α → σ → Prop} {as : List α} {s : σ}
    (hstep : ∀ before a after s, as = before ++ a :: after → P before s →
      ∃ s', step a s = (true, s') ∧ P (before ++ [a]) s') (hs : P [] s) :
    ∃ s', allApply step as s = (true, s') ∧ P as s' := by
  induction as generalizing s P with
  | nil => exact ⟨s, rfl, hs⟩
  | cons a as ih =>
    obtain ⟨m, hm, hP⟩ := hstep [] a as s rfl hs
    obtain ⟨s', hrun, hs'⟩ := ih (P := fun before => P (a :: before))
      (fun before b after t heq => hstep (a :: before) b after t (by rw [heq, List.cons_append])) hP
    exact ⟨s', by rw [allApply_cons_of_true hm, hrun], hs'⟩

/-- Two runs in lockstep: if related states step to related states, a successful
run on the one side is matched on the other. -/
theorem allApply_simulate {τ : Type*} {step : α → σ → Bool × σ} {step' : α → τ → Bool × τ}
    {rel : σ → τ → Prop} {as : List α}
    (hstep : ∀ a ∈ as, ∀ s s' t, rel s t → step a s = (true, s') →
      ∃ t', step' a t = (true, t') ∧ rel s' t') {s s' : σ} {t : τ} (hrel : rel s t)
    (h : allApply step as s = (true, s')) :
    ∃ t', allApply step' as t = (true, t') ∧ rel s' t' := by
  induction as generalizing s t with
  | nil =>
    obtain rfl : s = s' := by simpa using h
    exact ⟨t, rfl, hrel⟩
  | cons a as ih =>
    obtain ⟨m, hm, hrest⟩ := allApply_cons_eq_true_iff.mp h
    obtain ⟨n, hn, hmn⟩ := hstep a (by simp) s m t hrel hm
    obtain ⟨t', ht', hrel'⟩ := ih (fun b hb => hstep b (by simp [hb])) hmn hrest
    exact ⟨t', by rw [allApply_cons_of_true hn, ht'], hrel'⟩

section Compatible

variable {step : α → σ → Bool × σ} {G : α → σ → Prop} {C : α → α → Prop}
  (hgood : ∀ {a b s s'}, C a b → G a s → G b s → step a s = (true, s') → G b s')

include hgood

/-- What each step keeps from a state where it is `G`, a run keeps, if compatible steps
keep `G` for each other. -/
theorem allApply_induction {P : List α → σ → Prop} {as : List α} {s s' : σ}
    (hcompat : as.Pairwise C) (hall : ∀ a ∈ as, G a s)
    (hstep : ∀ done a {s s'}, G a s → P done s → step a s = (true, s') → P (done ++ [a]) s')
    (hs : P [] s) (h : allApply step as s = (true, s')) : P as s' := by
  induction as generalizing s P with
  | nil =>
    obtain rfl : s = s' := by simpa using h
    exact hs
  | cons a as ih =>
    obtain ⟨ha, hrest⟩ := List.pairwise_cons.mp hcompat
    obtain ⟨m, hm, hrun⟩ := allApply_cons_eq_true_iff.mp h
    have hgooda := hall a (by simp)
    exact ih (P := fun done => P (a :: done)) hrest
      (fun b hb => hgood (ha b hb) hgooda (hall b (by simp [hb])) hm)
      (fun done => hstep (a :: done)) (hstep [] a hgooda hs hm) hrun

variable (step) in
/-- Undoing a successful run backwards restores the state it started from, if
one step is undone whenever `G` held before it. -/
theorem allApply_undo (undo : α → σ → Bool × σ)
    (hundo : ∀ {a s s'}, G a s → step a s = (true, s') → undo a s' = (true, s))
    {as : List α} {s s' : σ} (hcompat : as.Pairwise C) (hall : ∀ a ∈ as, G a s)
    (h : allApply step as s = (true, s')) : allApply undo as.reverse s' = (true, s) := by
  refine allApply_induction hgood (P := fun done t => allApply undo done.reverse t = (true, s))
    hcompat hall (fun done a t t' hgooda ht hone => ?_) rfl h
  rw [List.reverse_concat, allApply_cons_of_true (hundo hgooda hone), ht]

end Compatible

theorem allApply_eq_false {step : α → σ → Bool × σ} {as : List α} {s s' : σ}
    (h : allApply step as s = (false, s')) :
    ∃ before a after m, as = before ++ a :: after ∧ allApply step before s = (true, m) ∧
      step a m = (false, s') := by
  induction as generalizing s with
  | nil => simp at h
  | cons a as ih =>
    cases hstep : step a s with
    | mk r m =>
      cases r with
      | true =>
        rw [allApply_cons_of_true hstep] at h
        obtain ⟨before, b, after, m', rfl, hbefore, hb⟩ := ih h
        exact ⟨a :: before, b, after, m', rfl, by rwa [allApply_cons_of_true hstep], hb⟩
      | false =>
        rw [allApply, hstep] at h
        exact ⟨[], a, as, s, rfl, rfl, by rw [hstep, (Prod.mk.inj h).2]⟩

/-- What is kept up to an element that fails holds at the end. -/
theorem allApply_stopped {step : α → σ → Bool × σ} {P : σ → Prop} {before after : List α} {a : α}
    (hstep : ∀ x ∈ before, ∀ s, P s → P (step x s).2)
    (hstop : ∀ s, P s → (step a s).1 = false ∧ P (step a s).2) {s : σ} (hs : P s) :
    P (allApply step (before ++ a :: after) s).2 := by
  induction before generalizing s with
  | nil =>
    obtain ⟨hfalse, hP⟩ := hstop s hs
    rw [List.nil_append, allApply]
    split
    · rename_i m hm
      rw [hm] at hfalse
      cases hfalse
    · rename_i m hm
      rwa [hm] at hP
  | cons x before ih =>
    have hx := hstep x (by simp) s hs
    rw [List.cons_append, allApply]
    split
    · rename_i m hm
      rw [hm] at hx
      exact ih (fun y hy => hstep y (by simp [hy])) hx
    · rename_i m hm
      rwa [hm] at hx

end Pebblecoin.Control
