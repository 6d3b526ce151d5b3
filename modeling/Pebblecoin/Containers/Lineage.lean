import Mathlib.Data.List.Basic
import Mathlib.Data.List.Induction
import Mathlib.Data.List.TakeDrop

/-!
Chains in a store whose nodes name their predecessor and carry their height.
-/

namespace Pebblecoin.Containers

section Lineage

variable {K N : Type} (prev : N → K) (height : N → Nat)

/-- The chain runs through stored nodes, each on top of the one before it. -/
def Lineage (store : K → Option N) (chain : List (K × N)) : Prop :=
  ∀ i p, chain[i]? = some p → store p.1 = some p.2 ∧ height p.2 = i ∧
    ∀ j q, i = j + 1 → chain[j]? = some q → q.1 = prev p.2

end Lineage

namespace Lineage

variable {K N : Type} {prev : N → K} {height : N → Nat} {store store' : K → Option N}
  {chain chain' : List (K × N)}

theorem nil : Lineage prev height store [] := fun _ _ h => (nomatch h)

theorem mono (h : Lineage prev height store chain)
    (hgrow : ∀ k n, store k = some n → store' k = some n) :
    Lineage prev height store' chain := by
  intro i p hp
  obtain ⟨hstore, hrest⟩ := h i p hp
  exact ⟨hgrow _ _ hstore, hrest⟩

theorem snoc_iff {k : K} {n : N} :
    Lineage prev height store (chain ++ [(k, n)]) ↔
      Lineage prev height store chain ∧ store k = some n ∧ height n = chain.length ∧
        ∀ q, chain.getLast? = some q → q.1 = prev n := by
  constructor
  · intro h
    obtain ⟨hstore, hheight, hprev⟩ := h chain.length (k, n) (by simp)
    refine ⟨fun i p hp => ?_, hstore, hheight, fun q hq => ?_⟩
    · have hi := (List.getElem?_eq_some_iff.mp hp).1
      obtain ⟨hs, hh, hlink⟩ := h i p (by rw [List.getElem?_append_left hi, hp])
      refine ⟨hs, hh, fun j q hj hq => hlink j q hj ?_⟩
      rw [List.getElem?_append_left (by omega), hq]
    · have hne : chain ≠ [] := by
        rintro rfl
        cases hq
      have hpos := List.length_pos_iff.mpr hne
      refine hprev (chain.length - 1) q (by omega) ?_
      rw [List.getElem?_append_left (by omega), ← List.getLast?_eq_getElem?, hq]
  · rintro ⟨h, hstore, hheight, hprev⟩ i p hp
    rcases Nat.lt_or_ge i chain.length with hi | hi
    · rw [List.getElem?_append_left hi] at hp
      obtain ⟨hs, hh, hlink⟩ := h i p hp
      refine ⟨hs, hh, fun j q hj hq => hlink j q hj ?_⟩
      rwa [List.getElem?_append_left (by omega)] at hq
    · rw [List.getElem?_append_right hi, List.getElem?_singleton] at hp
      split_ifs at hp with hzero
      cases hp
      obtain rfl : i = chain.length := by omega
      refine ⟨hstore, hheight, fun j q hj hq => hprev q ?_⟩
      rw [List.getElem?_append_left (by omega)] at hq
      rw [List.getLast?_eq_getElem?, hj, Nat.add_sub_cancel, hq]

theorem append_left (h : Lineage prev height store (chain ++ chain')) :
    Lineage prev height store chain := by
  induction chain' using List.reverseRecOn with
  | nil => simpa using h
  | append_singleton chain' p ih =>
    obtain ⟨k, n⟩ := p
    rw [← List.append_assoc] at h
    exact ih (snoc_iff.mp h).1

theorem take (h : Lineage prev height store chain) (n : Nat) :
    Lineage prev height store (chain.take n) := by
  rw [← List.take_append_drop n chain] at h
  exact h.append_left

/-- The last node determines the chain. -/
theorem unique (h : Lineage prev height store chain) (h' : Lineage prev height store chain')
    {k : K} (hlast : chain.getLast?.map Prod.fst = some k)
    (hlast' : chain'.getLast?.map Prod.fst = some k) : chain = chain' := by
  induction chain using List.reverseRecOn generalizing chain' k with
  | nil => simp at hlast
  | append_singleton chain p ih =>
    obtain ⟨k₁, n⟩ := p
    induction chain' using List.reverseRecOn with
    | nil => simp at hlast'
    | append_singleton chain' p' =>
      obtain ⟨k₂, n'⟩ := p'
      simp only [List.getLast?_append, List.getLast?_singleton, Option.some_or,
        Option.map_some, Option.some.injEq] at hlast hlast'
      subst hlast hlast'
      obtain ⟨hchain, hstore, hheight, hprev⟩ := snoc_iff.mp h
      obtain ⟨hchain', hstore', hheight', hprev'⟩ := snoc_iff.mp h'
      obtain rfl : n = n' := Option.some.inj (hstore.symm.trans hstore')
      have hlength : chain.length = chain'.length := hheight.symm.trans hheight'
      congr 1
      rcases List.eq_nil_or_concat chain with rfl | ⟨c, q, rfl⟩
      · exact (List.length_eq_zero_iff.mp hlength.symm).symm
      rcases List.eq_nil_or_concat chain' with rfl | ⟨c', q', rfl⟩
      · simp at hlength
      · refine ih hchain hchain' (k := prev n) ?_ ?_
        · simpa using hprev q (by simp)
        · simpa using hprev' q' (by simp)

theorem node_of_key {i : Nat} {k : K} (h : (chain.map Prod.fst)[i]? = some k) :
    ∃ n, chain[i]? = some (k, n) := by
  rw [List.getElem?_map] at h
  obtain ⟨⟨k, n⟩, hp, rfl⟩ := Option.map_eq_some_iff.mp h
  exact ⟨n, hp⟩

theorem index_unique (h : Lineage prev height store chain) {i j : Nat} {k : K}
    (hi : (chain.map Prod.fst)[i]? = some k) (hj : (chain.map Prod.fst)[j]? = some k) : i = j := by
  obtain ⟨n₁, hi⟩ := node_of_key hi
  obtain ⟨n₂, hj⟩ := node_of_key hj
  obtain ⟨hstore₁, hheight₁, -⟩ := h i _ hi
  obtain ⟨hstore₂, hheight₂, -⟩ := h j _ hj
  obtain rfl : n₁ = n₂ := Option.some.inj (hstore₁.symm.trans hstore₂)
  exact hheight₁.symm.trans hheight₂

/-- Chains of two stores that start with the same key are the same up to every
key they share, if the stores agree on what comes before it. -/
theorem take_eq_of_shared (h : Lineage prev height store chain)
    (h' : Lineage prev height store' chain')
    (hhead : (chain.map Prod.fst).head? = (chain'.map Prod.fst).head?)
    (hprev : ∀ k n n', (k, n) ∈ chain → (k, n') ∈ chain' → prev n = prev n') {i j : Nat} {k : K}
    (hi : (chain.map Prod.fst)[i]? = some k) (hj : (chain'.map Prod.fst)[j]? = some k) :
    (chain.map Prod.fst).take (i + 1) = (chain'.map Prod.fst).take (j + 1) := by
  simp only [List.head?_eq_getElem?] at hhead
  induction i generalizing j k with
  | zero =>
    obtain rfl : j = 0 := h'.index_unique hj (hhead.symm.trans hi)
    rw [List.take_add_one, List.take_add_one, hi, hj]
    rfl
  | succ i ih =>
    cases j with
    | zero =>
      have := h.index_unique hi (hhead.trans hj)
      omega
    | succ j =>
      rw [List.take_add_one, List.take_add_one (i := j + 1), hi, hj]
      obtain ⟨n, hi⟩ := node_of_key hi
      obtain ⟨n', hj⟩ := node_of_key hj
      obtain ⟨p, hp⟩ : ∃ p, chain[i]? = some p :=
        ⟨_, List.getElem?_eq_getElem (Nat.lt_of_succ_lt (List.getElem?_eq_some_iff.mp hi).1)⟩
      obtain ⟨q, hq⟩ : ∃ q, chain'[j]? = some q :=
        ⟨_, List.getElem?_eq_getElem (Nat.lt_of_succ_lt (List.getElem?_eq_some_iff.mp hj).1)⟩
      have hp' := (h _ _ hi).2.2 i p rfl hp
      have hq' := (h' _ _ hj).2.2 j q rfl hq
      have hsame := hprev _ n n' (List.mem_of_getElem? hi) (List.mem_of_getElem? hj)
      rw [ih (j := j) (k := prev n) (by simp [hp, hp']) (by simp [hq, hq', hsame])]

end Lineage

end Pebblecoin.Containers
