import Mathlib.Data.Finset.Card

/-!
Drawing different numbers with a generator that may repeat itself.
-/

namespace Pebblecoin.Containers

universe u

variable {β : Type u}

/-- Draw numbers below the limit, try each of them once, and stop when enough of them gave a
value or all were tried.  The numbers of the generator are counted.  There is no result if the
rounds do not suffice. -/
def drawLoop (limit count : Nat) (value : Nat → Option β) (rand : Nat → Nat) :
    (rounds drawn : Nat) → (used : List Nat) → (outs : List β) → Option (List β × Nat)
  | 0, _, _, _ => none
  | rounds + 1, drawn, used, outs =>
    if outs.length ≠ count ∧ used.length < limit then
      let i := rand drawn % limit
      if used.contains i then drawLoop limit count value rand rounds (drawn + 1) used outs
      else
        drawLoop limit count value rand rounds (drawn + 1) (used ++ [i])
          (outs ++ (value i).toList)
    else some (outs, drawn)

/-- Values of different numbers below the limit. -/
structure Sampled (limit : Nat) (value : Nat → Option β) (used : List Nat) (outs : List β) : Prop where
  nodup : used.Nodup
  lt : ∀ i ∈ used, i < limit
  outs_eq : outs = used.filterMap value

/-- Every number comes again and again, below every limit. -/
def Fair (rand : Nat → Nat) : Prop := ∀ limit i n, i < limit → ∃ k, rand (n + k) % limit = i

/-- A generator that counts. -/
theorem fair_id : Fair id := by
  intro limit i n hi
  have hlt : n % limit < limit := Nat.mod_lt _ (Nat.zero_lt_of_lt hi)
  refine ⟨limit - n % limit + i, ?_⟩
  have hn := Nat.div_add_mod n limit
  have hsum : n + (limit - n % limit + i) = i + limit * (n / limit + 1) := by
    rw [Nat.mul_add, Nat.mul_one]
    omega
  rw [id, hsum, Nat.add_mul_mod_self_left, Nat.mod_eq_of_lt hi]

section Sampling

variable {limit count rounds drawn : Nat} {value : Nat → Option β} {rand : Nat → Nat}
  {used : List Nat} {outs : List β}

theorem Sampled.nil : Sampled limit value [] [] :=
  ⟨List.nodup_nil, fun _ h => absurd h List.not_mem_nil, rfl⟩

theorem Sampled.add (h : Sampled limit value used outs) (hlimit : used.length < limit) {n : Nat}
    (hnew : n % limit ∉ used) :
    Sampled limit value (used ++ [n % limit]) (outs ++ (value (n % limit)).toList) := by
  refine ⟨?_, fun i hi => ?_, ?_⟩
  · rw [← List.concat_eq_append]
    exact h.nodup.concat hnew
  · rcases List.mem_append.mp hi with hi | hi
    · exact h.lt i hi
    · rw [List.mem_singleton.mp hi]
      exact Nat.mod_lt _ (by omega)
  · rw [List.filterMap_append, ← h.outs_eq]
    cases hvalue : value (n % limit) <;> simp [hvalue]

theorem drawLoop_sampled {r : List β × Nat} (h : Sampled limit value used outs)
    (hcount : outs.length ≤ count)
    (hr : drawLoop limit count value rand rounds drawn used outs = some r) :
    r.1.length ≤ count ∧ ∃ used', Sampled limit value used' r.1 := by
  induction rounds generalizing drawn used outs with
  | zero => cases hr
  | succ rounds ih =>
    rw [drawLoop] at hr
    split at hr
    · rename_i hgo
      dsimp only at hr
      split at hr
      · exact ih h hcount hr
      · rename_i hnew
        refine ih (h.add hgo.2 (by simpa using hnew)) ?_ hr
        have hone : (value (rand drawn % limit)).toList.length ≤ 1 := by
          cases value (rand drawn % limit) <;> simp
        rw [List.length_append]
        omega
    · rw [← Option.some.inj hr]
      exact ⟨hcount, used, h⟩

/-- More rounds do not change the result. -/
theorem drawLoop_add {r : List β × Nat} (more : Nat)
    (h : drawLoop limit count value rand rounds drawn used outs = some r) :
    drawLoop limit count value rand (rounds + more) drawn used outs = some r := by
  induction rounds generalizing drawn used outs with
  | zero => cases h
  | succ rounds ih =>
    rw [Nat.add_right_comm, drawLoop]
    rw [drawLoop] at h
    split at h
    · rename_i hgo
      rw [if_pos hgo]
      dsimp only at h ⊢
      split at h
      · rename_i hused
        rw [if_pos hused]
        exact ih h
      · rename_i hused
        rw [if_neg hused]
        exact ih h
    · rename_i hstop
      rw [if_neg hstop]
      exact h

theorem exists_unused (hlimit : used.length < limit) : ∃ i < limit, i ∉ used := by
  by_contra hall
  push Not at hall
  have hsub : List.range limit ⊆ used := fun i hi => hall i (List.mem_range.mp hi)
  have hle := (List.nodup_range.subperm hsub).length_le
  rw [List.length_range] at hle
  omega

/-- With a fair generator the loop comes to an end. -/
theorem exists_drawLoop (hrand : Fair rand) (h : Sampled limit value used outs) (drawn : Nat) :
    ∃ rounds r, drawLoop limit count value rand rounds drawn used outs = some r := by
  -- The numbers that were not tried yet become fewer; between, the generator repeats itself.
  induction hmissing : limit - used.length generalizing drawn used outs with
  | zero =>
    refine ⟨1, (outs, drawn), ?_⟩
    rw [drawLoop, if_neg (by omega)]
  | succ missing ih =>
    by_cases hgo : outs.length ≠ count ∧ used.length < limit
    · have hnext : ∀ drawn, rand drawn % limit ∉ used →
          ∃ rounds r, drawLoop limit count value rand rounds drawn used outs = some r := by
        intro drawn hnew
        have hlength : limit - (used ++ [rand drawn % limit]).length = missing := by
          rw [List.length_append, List.length_singleton]
          omega
        obtain ⟨rounds, r, hr⟩ := ih (h.add hgo.2 hnew) (drawn + 1) hlength
        refine ⟨rounds + 1, r, ?_⟩
        rw [drawLoop, if_pos hgo]
        dsimp only
        rw [if_neg (by simpa using hnew)]
        exact hr
      obtain ⟨i, hi, hnew⟩ := exists_unused hgo.2
      obtain ⟨k, rfl⟩ := hrand limit i drawn hi
      clear hi
      induction k generalizing drawn with
      | zero => exact hnext drawn hnew
      | succ k ihk =>
        by_cases hused : rand drawn % limit ∈ used
        · obtain ⟨rounds, r, hr⟩ := ihk (drawn + 1) (by rwa [Nat.add_assoc, Nat.add_comm 1])
          refine ⟨rounds + 1, r, ?_⟩
          rw [drawLoop, if_pos hgo]
          dsimp only
          rw [if_pos (by simpa using hused)]
          exact hr
        · exact hnext drawn hused
    · refine ⟨1, (outs, drawn), ?_⟩
      rw [drawLoop, if_neg hgo]

end Sampling

end Pebblecoin.Containers
