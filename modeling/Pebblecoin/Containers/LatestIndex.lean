import Mathlib.Data.List.Nodup
import Mathlib.Order.Nat

/-!
A list of entries with keys, some of them live, and an index that knows the latest entry
of each key.
-/

namespace Pebblecoin.Containers

variable {α κ : Type*} (key : α → κ) (live : α → Bool)

/-- The keys of the live entries, in order. -/
def liveKeys (xs : List α) : List κ := (xs.filter live).map key

/-- Every entry is found under its key, or one that came after it. -/
structure Latest (index : κ → Option Nat) (xs : List α) : Prop where
  key_at : ∀ k i, index k = some i → ∃ x, xs[i]? = some x ∧ key x = k
  reaches : ∀ i x, xs[i]? = some x → ∃ j, i ≤ j ∧ index (key x) = some j

/-- Moreover no live entry is hidden by a later one. -/
structure Leads (index : κ → Option Nat) (xs : List α) : Prop extends
    Latest key index xs where
  live_at : ∀ i x, xs[i]? = some x → live x = true → index (key x) = some i

variable {key live} {index : κ → Option Nat} {xs : List α}

theorem liveKeys_append (xs ys : List α) :
    liveKeys key live (xs ++ ys) = liveKeys key live xs ++ liveKeys key live ys := by
  rw [liveKeys, List.filter_append, List.map_append]
  rfl

theorem liveKeys_cons (x : α) (xs : List α) :
    liveKeys key live (x :: xs) = liveKeys key live [x] ++ liveKeys key live xs :=
  liveKeys_append [x] xs

theorem mem_liveKeys {k : κ} :
    k ∈ liveKeys key live xs ↔ ∃ (i : Nat) (x : α), xs[i]? = some x ∧ live x = true ∧ key x = k := by
  constructor
  · intro hk
    obtain ⟨x, hx, rfl⟩ := List.mem_map.mp hk
    obtain ⟨hmem, hlive⟩ := List.mem_filter.mp hx
    obtain ⟨i, hi⟩ := List.mem_iff_getElem?.mp hmem
    exact ⟨i, x, hi, hlive, rfl⟩
  · rintro ⟨i, x, hi, hlive, rfl⟩
    exact List.mem_map_of_mem (List.mem_filter.mpr ⟨List.mem_of_getElem? hi, hlive⟩)

theorem liveKeys_of_all (h : ∀ x ∈ xs, live x = true) : liveKeys key live xs = xs.map key := by
  rw [liveKeys, List.filter_eq_self.mpr h]

theorem nodup_liveKeys_iff :
    (liveKeys key live xs).Nodup ↔ ∀ (i j : Nat) (x y : α), i < j → xs[i]? = some x → xs[j]? = some y →
      live x = true → live y = true → key x ≠ key y := by
  rw [liveKeys, List.Nodup, List.pairwise_map, List.pairwise_filter, List.pairwise_iff_getElem]
  constructor
  · intro h i j x y hij hi hj hx hy
    obtain ⟨hli, rfl⟩ := List.getElem?_eq_some_iff.mp hi
    obtain ⟨hlj, rfl⟩ := List.getElem?_eq_some_iff.mp hj
    exact h i j hli hlj hij hx hy
  · intro h i j hli hlj hij hx hy
    exact h i j _ _ hij (List.getElem?_eq_getElem hli) (List.getElem?_eq_getElem hlj) hx hy

theorem Leads.nodup (h : Leads key live index xs) : (liveKeys key live xs).Nodup := by
  rw [nodup_liveKeys_iff]
  intro i j x y hij hi hj hx hy hkey
  have hsame := (h.live_at i x hi hx).symm.trans (hkey ▸ h.live_at j y hj hy)
  exact hij.ne (Option.some.inj hsame)

theorem Leads.index_of_mem (h : Leads key live index xs) {k : κ}
    (hk : k ∈ liveKeys key live xs) : ∃ i, index k = some i := by
  obtain ⟨i, x, hi, hlive, rfl⟩ := mem_liveKeys.mp hk
  exact ⟨i, h.live_at i x hi hlive⟩

variable [DecidableEq κ]

theorem Latest.push (h : Latest key index xs) (x : α) :
    Latest key (Function.update index (key x) (some xs.length)) (xs ++ [x]) where
  key_at k i hk := by
    rcases eq_or_ne k (key x) with rfl | hne
    · rw [Function.update_self] at hk
      obtain rfl := Option.some.inj hk
      exact ⟨x, by simp, rfl⟩
    · rw [Function.update_of_ne hne] at hk
      obtain ⟨y, hy, hkey⟩ := h.key_at k i hk
      obtain ⟨hlt, -⟩ := List.getElem?_eq_some_iff.mp hy
      exact ⟨y, by rw [List.getElem?_append_left hlt, hy], hkey⟩
  reaches i y hy := by
    have hle : i ≤ xs.length := by
      obtain ⟨hlt, -⟩ := List.getElem?_eq_some_iff.mp hy
      rw [List.length_append, List.length_singleton] at hlt
      exact Nat.le_of_lt_succ hlt
    rcases eq_or_ne (key y) (key x) with heq | hne
    · exact ⟨xs.length, hle, by rw [heq, Function.update_self]⟩
    · rw [Function.update_of_ne hne]
      rcases hle.lt_or_eq with hlt | rfl
      · rw [List.getElem?_append_left hlt] at hy
        exact h.reaches i y hy
      · rw [List.getElem?_append_right le_rfl, Nat.sub_self] at hy
        exact absurd (congrArg key (Option.some.inj hy)).symm hne

theorem Leads.push (h : Leads key live index xs) {x : α} (hx : key x ∉ liveKeys key live xs) :
    Leads key live (Function.update index (key x) (some xs.length)) (xs ++ [x]) where
  toLatest := h.toLatest.push x
  live_at i y hy hlive := by
    rcases lt_or_ge i xs.length with hlt | hge
    · rw [List.getElem?_append_left hlt] at hy
      have hne : key y ≠ key x := fun heq => hx (mem_liveKeys.mpr ⟨i, y, hy, hlive, heq⟩)
      rw [Function.update_of_ne hne]
      exact h.live_at i y hy hlive
    · rw [List.getElem?_append_right hge, List.getElem?_singleton] at hy
      split_ifs at hy with hi
      obtain rfl := Option.some.inj hy
      rw [Function.update_self, Nat.le_antisymm (Nat.le_of_sub_eq_zero hi) hge]

variable {f : α → α}

omit [DecidableEq κ] in
theorem Latest.modify (h : Latest key index xs) (hf : ∀ x, key (f x) = key x) (i : Nat) :
    Latest key index (xs.modify i f) where
  key_at k j hk := by
    obtain ⟨x, hx, hkey⟩ := h.key_at k j hk
    rw [List.getElem?_modify, hx]
    refine ⟨_, rfl, ?_⟩
    split_ifs
    · exact (hf x).trans hkey
    · exact hkey
  reaches j y hy := by
    rw [List.getElem?_modify] at hy
    obtain ⟨x, hx, rfl⟩ := Option.map_eq_some_iff.mp hy
    obtain ⟨n, hn, hindex⟩ := h.reaches j x hx
    refine ⟨n, hn, ?_⟩
    split_ifs
    · rw [hf, hindex]
    · exact hindex

omit [DecidableEq κ] in
theorem Leads.kill (h : Leads key live index xs) (hf : ∀ x, key (f x) = key x)
    (hdead : ∀ x, live (f x) = false) (i : Nat) : Leads key live index (xs.modify i f) where
  toLatest := h.toLatest.modify hf i
  live_at j y hy hlive := by
    rw [List.getElem?_modify] at hy
    obtain ⟨x, hx, rfl⟩ := Option.map_eq_some_iff.mp hy
    split_ifs at hlive ⊢ with hij
    · rw [hdead] at hlive
      cases hlive
    · exact h.live_at j x hx hlive

/-- The entry under a key dies, and nothing else does. -/
theorem Leads.liveKeys_kill (h : Leads key live index xs) (hdead : ∀ x, live (f x) = false) {k : κ} {i : Nat} (hi : index k = some i) :
    liveKeys key live (xs.modify i f) = (liveKeys key live xs).filter fun k' => decide (k' ≠ k) := by
  obtain ⟨x, hx, hkey⟩ := h.key_at k i hi
  obtain ⟨hlt, rfl⟩ := List.getElem?_eq_some_iff.mp hx
  -- A live entry with the key stands at the index; so there is none before or after.
  have hbefore : ∀ y ∈ xs.take i, live y = true → key y ≠ k := by
    intro y hy hlive heq
    obtain ⟨j, hj⟩ := List.mem_iff_getElem?.mp hy
    rw [List.getElem?_take] at hj
    split_ifs at hj with hji
    have hindex := h.live_at j y hj hlive
    rw [heq, hi] at hindex
    exact hji.ne (Option.some.inj hindex).symm
  have hafter : ∀ y ∈ xs.drop (i + 1), live y = true → key y ≠ k := by
    intro y hy hlive heq
    obtain ⟨j, hj⟩ := List.mem_iff_getElem?.mp hy
    rw [List.getElem?_drop] at hj
    have hindex := h.live_at _ y hj hlive
    rw [heq, hi] at hindex
    have := Option.some.inj hindex
    omega
  have hkeep : ∀ ys : List α, (∀ y ∈ ys, live y = true → key y ≠ k) →
      (liveKeys key live ys).filter (fun k' => decide (k' ≠ k)) = liveKeys key live ys := by
    intro ys hys
    refine List.filter_eq_self.mpr fun k' hk' => ?_
    obtain ⟨y, hy, rfl⟩ := List.mem_map.mp hk'
    obtain ⟨hmem, hlive⟩ := List.mem_filter.mp hy
    exact decide_eq_true (hys y hmem hlive)
  have hsplit : xs = xs.take i ++ xs[i] :: xs.drop (i + 1) := by
    rw [List.getElem_cons_drop, List.take_append_drop]
  rw [List.modify_eq_take_cons_drop hlt]
  conv_rhs => rw [hsplit]
  rw [liveKeys_append, liveKeys_append, liveKeys_cons (f _), liveKeys_cons xs[i],
    List.filter_append, List.filter_append, hkeep _ hbefore, hkeep _ hafter]
  congr 2
  cases hlive : live xs[i] with
  | true => simp [liveKeys, hdead, hlive, hkey]
  | false => simp [liveKeys, hdead, hlive]

end Pebblecoin.Containers
