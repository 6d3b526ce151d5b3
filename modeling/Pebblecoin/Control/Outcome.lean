import Mathlib.Data.List.Basic

/-!
Partial correctness of computations that may throw: what holds of the result if
there is one.
-/

namespace Pebblecoin.Control

universe u v

variable {ε : Type u} {α β : Type v}

theorem bind_eq_ok_iff {x : Except ε α} {f : α → Except ε β} {b : β} :
    (x >>= f) = .ok b ↔ ∃ a, x = .ok a ∧ f a = .ok b := by
  cases x <;> simp [bind, Except.bind]

theorem map_eq_ok_iff {x : Except ε α} {f : α → β} {b : β} :
    f <$> x = .ok b ↔ ∃ a, x = .ok a ∧ f a = b := by
  cases x <;> simp [Functor.map, Except.map]

@[simp] theorem ok_bind (a : α) (f : α → Except ε β) : ((.ok a : Except ε α) >>= f) = f a := rfl

@[simp] theorem error_bind (e : ε) (f : α → Except ε β) :
    ((.error e : Except ε α) >>= f) = .error e := rfl

theorem exists_of_mem_mapM {ι : Type*} {f : ι → Except ε α} {is : List ι} {as : List α}
    (h : is.mapM f = .ok as) : ∀ a ∈ as, ∃ i ∈ is, f i = .ok a := by
  induction is generalizing as with
  | nil =>
    obtain rfl : [] = as := Except.ok.inj h
    simp
  | cons i is ih =>
    rw [List.mapM_cons] at h
    obtain ⟨a, ha, h⟩ := bind_eq_ok_iff.mp h
    obtain ⟨rest, hrest, h⟩ := bind_eq_ok_iff.mp h
    obtain rfl : a :: rest = as := Except.ok.inj h
    intro b hb
    rcases List.mem_cons.mp hb with rfl | hb
    · exact ⟨i, by simp, ha⟩
    · obtain ⟨j, hj, hfj⟩ := ih hrest b hb
      exact ⟨j, by simp [hj], hfj⟩

@[simp] theorem mapError_eq_ok_iff {δ : Type*} {x : Except ε α} {f : ε → δ} {a : α} :
    x.mapError f = .ok a ↔ x = .ok a := by
  cases x <;> simp [Except.mapError]

/-- The result, or the default if there is none. -/
def resultD (x : Except ε α) (default : α) : α :=
  match x with
  | .ok a => a
  | .error _ => default

theorem eq_ok_of_resultD {σ : Type v} {x : Except ε (Bool × σ)} {s : σ}
    (h : (resultD x (false, s)).1 = true) : x = .ok (true, (resultD x (false, s)).2) := by
  cases x with
  | error e => simp [resultD] at h
  | ok r => exact congrArg Except.ok (Prod.ext h rfl)

theorem eq_ok_of_toOption {x : Except ε α} {a : α} (h : x.toOption = some a) :
    x = .ok a := by
  cases x with
  | error e => cases h
  | ok b => exact congrArg Except.ok (Option.some.inj h)

theorem eq_ok_of_isOk {x : Except ε α} (default : α) (h : x.isOk = true) :
    x = .ok (resultD x default) := by
  cases x with
  | error e => cases h
  | ok a => rfl

theorem eq_ok_of_fst {β : Type*} {σ : Type v} {x : Except ε (β × σ)} {r : β × σ} {b : β}
    (hx : x = .ok r) (hb : r.1 = b) : x = .ok (b, r.2) := by
  subst hb
  exact hx

/-- Whatever the computation returns satisfies `P`. -/
structure Returns (x : Except ε α) (P : α → Prop) : Prop where
  out : ∀ a, x = .ok a → P a

namespace Returns

variable {P Q : α → Prop} {R : β → Prop}

@[simp] theorem ok_iff {a : α} : Returns (.ok a : Except ε α) P ↔ P a :=
  ⟨fun h => h.out a rfl, fun h => ⟨fun _ heq => by cases heq; exact h⟩⟩

@[simp] theorem error {e : ε} : Returns (.error e : Except ε α) P :=
  ⟨fun _ h => nomatch h⟩

theorem mono {x : Except ε α} (h : Returns x P) (hPQ : ∀ a, P a → Q a) : Returns x Q :=
  ⟨fun a ha => hPQ a (h.out a ha)⟩

theorem bind {x : Except ε α} {f : α → Except ε β} (hx : Returns x P)
    (hf : ∀ a, P a → Returns (f a) R) : Returns (x >>= f) R := by
  constructor
  intro b hb
  obtain ⟨a, ha, hfa⟩ := bind_eq_ok_iff.mp hb
  exact (hf a (hx.out a ha)).out b hfa

theorem map {x : Except ε α} {f : α → β} (h : Returns x fun a => R (f a)) :
    Returns (f <$> x) R := by
  constructor
  intro b hb
  obtain ⟨a, ha, rfl⟩ := map_eq_ok_iff.mp hb
  exact h.out a ha

/-- A computation whose result is kept as it is. -/
theorem bind_ok {x : Except ε α} {f : α → Except ε β} (hf : ∀ a, x = .ok a → Returns (f a) R) :
    Returns (x >>= f) R :=
  bind ⟨fun _ h => h⟩ hf

/-- A computation whose result does not matter. -/
theorem bind_const {x : Except ε α} {f : α → Except ε β} (hf : ∀ a, Returns (f a) R) :
    Returns (x >>= f) R :=
  bind (P := fun _ => True) ⟨fun _ _ => trivial⟩ fun a _ => hf a

end Returns

theorem eq_ok_of_mapM {α β ε : Type} {f : α → Except ε β} {l : List α} {r : List β}
    (h : l.mapM f = .ok r) {a : α} (ha : a ∈ l) : ∃ b, f a = .ok b := by
  induction l generalizing r with
  | nil => simp at ha
  | cons a' l ih =>
    rw [List.mapM_cons] at h
    obtain ⟨b, hb, h⟩ := bind_eq_ok_iff.mp h
    obtain ⟨r, hr, -⟩ := bind_eq_ok_iff.mp h
    rcases List.mem_cons.mp ha with rfl | ha
    · exact ⟨b, hb⟩
    · exact ih hr ha

theorem length_of_mapM {α β ε : Type} {f : α → Except ε β} {l : List α} {r : List β}
    (h : l.mapM f = .ok r) : r.length = l.length := by
  induction l generalizing r with
  | nil =>
    rw [← Except.ok.inj h]
    rfl
  | cons a l ih =>
    rw [List.mapM_cons] at h
    obtain ⟨b, -, h⟩ := bind_eq_ok_iff.mp h
    obtain ⟨rest, hrest, h⟩ := bind_eq_ok_iff.mp h
    rw [← Except.ok.inj h, List.length_cons, List.length_cons, ih hrest]

theorem mapM_drop_eq_ok {α β ε : Type} {f : α → Except ε β} {l : List α} {r : List β}
    (h : l.mapM f = .ok r) (n : Nat) : (l.drop n).mapM f = .ok (r.drop n) := by
  induction n generalizing l r with
  | zero => exact h
  | succ n ih =>
    cases l with
    | nil =>
      obtain rfl := Except.ok.inj h
      exact h
    | cons a l =>
      rw [List.mapM_cons] at h
      obtain ⟨b, -, h⟩ := bind_eq_ok_iff.mp h
      obtain ⟨r, hr, h⟩ := bind_eq_ok_iff.mp h
      obtain rfl := Except.ok.inj h
      exact ih hr

theorem mapM_map_fst {α β : Type} {f : α → Option β} {l : List (α × β)}
    (h : ∀ p ∈ l, f p.1 = some p.2) : (l.map Prod.fst).mapM f = some (l.map Prod.snd) := by
  induction l with
  | nil => rfl
  | cons p l ih =>
    rw [List.map_cons, List.mapM_cons, h p List.mem_cons_self,
      ih fun q hq => h q (List.mem_cons_of_mem p hq)]
    rfl

end Pebblecoin.Control
