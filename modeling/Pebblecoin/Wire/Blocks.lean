import Mathlib.Data.List.Basic

/-!
Codes that work block by block, with a shorter block at the end.
-/

namespace Pebblecoin.Wire

variable {α β : Type}

/-- The blocks of `n` items that a list starts with. -/
def fullBlocks (n : Nat) (l : List α) : List (List α) :=
  (List.range (l.length / n)).map fun i => (l.drop (i * n)).take n

/-- What comes after them. -/
def lastBlock (n : Nat) (l : List α) : List α := l.drop (l.length / n * n)

/-- Nothing is translated to nothing. -/
def translateEnd (f : List α → Option (List β)) (b : List α) : Option (List β) :=
  if b.isEmpty then some [] else f b

/-- Translate each block. -/
def blockwise (n : Nat) (f : List α → Option (List β)) (l : List α) : Option (List β) := do
  let full ← (fullBlocks n l).mapM f
  let last ← translateEnd f (lastBlock n l)
  some (full.flatten ++ last)

section Splitting

variable {n : Nat}

theorem length_lastBlock (l : List α) : (lastBlock n l).length = l.length % n := by
  rw [lastBlock, List.length_drop, Nat.mod_eq_sub_div_mul]

theorem fullBlocks_of_lt {l : List α} (h : l.length < n) : fullBlocks n l = [] := by
  rw [fullBlocks, Nat.div_eq_of_lt h, List.range_zero, List.map_nil]

theorem lastBlock_of_lt {l : List α} (h : l.length < n) : lastBlock n l = l := by
  rw [lastBlock, Nat.div_eq_of_lt h, Nat.zero_mul, List.drop_zero]

theorem length_append_div {b : List α} (l : List α) (hn : 0 < n) (hb : b.length = n) :
    (b ++ l).length / n = l.length / n + 1 := by
  rw [List.length_append, hb, Nat.add_div_left _ hn]

theorem fullBlocks_append {b : List α} (l : List α) (hn : 0 < n) (hb : b.length = n) :
    fullBlocks n (b ++ l) = b :: fullBlocks n l := by
  rw [fullBlocks, length_append_div l hn hb, List.range_succ_eq_map, List.map_cons, List.map_map,
    Nat.zero_mul, List.drop_zero, ← hb, List.take_left]
  congr 1
  refine List.map_congr_left fun i _ => ?_
  have hnext : Nat.succ i * b.length = b.length + i * b.length := by
    rw [Nat.succ_mul, Nat.add_comm]
  rw [Function.comp_apply, hnext, ← List.drop_drop, List.drop_left]

theorem lastBlock_append {b : List α} (l : List α) (hn : 0 < n) (hb : b.length = n) :
    lastBlock n (b ++ l) = lastBlock n l := by
  have hnext : (l.length / n + 1) * n = b.length + l.length / n * n := by
    rw [Nat.succ_mul, Nat.add_comm, hb]
  rw [lastBlock, length_append_div l hn hb, hnext, ← List.drop_drop, List.drop_left, lastBlock]

theorem length_of_mem_fullBlocks {l b : List α} (h : b ∈ fullBlocks n l) : b.length = n := by
  obtain ⟨i, hi, rfl⟩ := List.mem_map.mp h
  have hle : (i + 1) * n ≤ l.length :=
    Nat.le_trans (Nat.mul_le_mul_right n (List.mem_range.mp hi)) (Nat.div_mul_le_self _ _)
  rw [Nat.succ_mul] at hle
  rw [List.length_take, List.length_drop]
  omega

theorem flatten_append_lastBlock (hn : 0 < n) (l : List α) :
    (fullBlocks n l).flatten ++ lastBlock n l = l := by
  induction hlength : l.length using Nat.strongRecOn generalizing l with
  | ind m ih =>
    by_cases hlt : l.length < n
    · rw [fullBlocks_of_lt hlt, lastBlock_of_lt hlt, List.flatten_nil, List.nil_append]
    have htake : (l.take n).length = n := by
      rw [List.length_take]
      omega
    have hrest := ih (l.drop n).length (by rw [List.length_drop]; omega) (l.drop n) rfl
    rw [← List.take_append_drop n l, fullBlocks_append _ hn htake, lastBlock_append _ hn htake,
      List.flatten_cons, List.append_assoc, hrest]

/-- Blocks and a shorter one at the end are found again. -/
theorem blocks_flatten_append {bs : List (List α)} {r : List α} (hbs : ∀ b ∈ bs, b.length = n)
    (hr : r.length < n) :
    fullBlocks n (bs.flatten ++ r) = bs ∧ lastBlock n (bs.flatten ++ r) = r := by
  have hn : 0 < n := Nat.zero_lt_of_lt hr
  induction bs with
  | nil => exact ⟨fullBlocks_of_lt hr, lastBlock_of_lt hr⟩
  | cons b bs ih =>
    obtain ⟨hfull, hlast⟩ := ih fun b' hb' => hbs b' (List.mem_cons_of_mem _ hb')
    have hb := hbs b List.mem_cons_self
    rw [List.flatten_cons, List.append_assoc, fullBlocks_append _ hn hb,
      lastBlock_append _ hn hb, hfull, hlast]
    exact ⟨rfl, rfl⟩

end Splitting

section Translation

variable {n m : Nat} {f : List α → Option (List β)} {g : List β → Option (List α)}

theorem mapM_reverse_of {bs : List (List α)} {cs : List (List β)}
    (hinv : ∀ b ∈ bs, ∀ c, f b = some c → g c = some b ∧ c.length = m)
    (h : bs.mapM f = some cs) : cs.mapM g = some bs ∧ ∀ c ∈ cs, c.length = m := by
  induction bs generalizing cs with
  | nil =>
    obtain rfl := Option.some.inj h
    exact ⟨rfl, fun _ hc => absurd hc List.not_mem_nil⟩
  | cons b bs ih =>
    rw [List.mapM_cons] at h
    obtain ⟨c, hc, h⟩ := Option.bind_eq_some_iff.mp h
    obtain ⟨rest, hrest, h⟩ := Option.bind_eq_some_iff.mp h
    obtain rfl := Option.some.inj h
    obtain ⟨hback, hlength⟩ := hinv b List.mem_cons_self c hc
    obtain ⟨hbacks, hlengths⟩ := ih (fun b' hb' => hinv b' (List.mem_cons_of_mem _ hb')) hrest
    refine ⟨?_, List.forall_mem_cons.mpr ⟨hlength, hlengths⟩⟩
    rw [List.mapM_cons, hback, hbacks]
    rfl

theorem exists_blockwise (hn : 0 < n) (hfull : ∀ b, b.length = n → ∃ c, f b = some c)
    (hlast : ∀ b, b.length < n → b ≠ [] → ∃ c, f b = some c) (l : List α) :
    ∃ l', blockwise n f l = some l' := by
  have hmap : ∀ bs : List (List α), (∀ b ∈ bs, b.length = n) → ∃ cs, bs.mapM f = some cs := by
    intro bs hbs
    induction bs with
    | nil => exact ⟨[], rfl⟩
    | cons b bs ih =>
      obtain ⟨c, hc⟩ := hfull b (hbs b List.mem_cons_self)
      obtain ⟨cs, hcs⟩ := ih fun b' hb' => hbs b' (List.mem_cons_of_mem _ hb')
      exact ⟨c :: cs, by rw [List.mapM_cons, hc, hcs]; rfl⟩
  obtain ⟨cs, hcs⟩ := hmap (fullBlocks n l) fun b => length_of_mem_fullBlocks
  have hend : ∃ r, translateEnd f (lastBlock n l) = some r := by
    rw [translateEnd]
    split_ifs with hempty
    · exact ⟨[], rfl⟩
    · refine hlast _ ?_ (by simpa using hempty)
      rw [length_lastBlock]
      exact Nat.mod_lt _ hn
  obtain ⟨r, hr⟩ := hend
  exact ⟨cs.flatten ++ r, by rw [blockwise, hcs, hr]; rfl⟩

/-- A translation of blocks that can be undone, and keeps full blocks full and short ones
short, can be undone block by block. -/
theorem blockwise_inverse {l : List α} {l' : List β} (hn : 0 < n)
    (hfull : ∀ b c, b.length = n → f b = some c → g c = some b ∧ c.length = m)
    (hlast : ∀ b c, b.length < n → b ≠ [] → f b = some c →
      g c = some b ∧ c.length < m ∧ c ≠ [])
    (hm : 0 < m) (h : blockwise n f l = some l') : blockwise m g l' = some l := by
  rw [blockwise] at h
  obtain ⟨cs, hcs, h⟩ := Option.bind_eq_some_iff.mp h
  obtain ⟨r, hr, h⟩ := Option.bind_eq_some_iff.mp h
  obtain rfl := Option.some.inj h
  obtain ⟨hback, hlengths⟩ := mapM_reverse_of
    (fun b hb c hc => hfull b c (length_of_mem_fullBlocks hb) hc) hcs
  have hshort : (lastBlock n l).length < n := by
    rw [length_lastBlock]
    exact Nat.mod_lt _ hn
  have hend : r.length < m ∧ translateEnd g r = some (lastBlock n l) := by
    by_cases hempty : lastBlock n l = []
    · rw [hempty] at hr ⊢
      obtain rfl := Option.some.inj hr
      exact ⟨hm, rfl⟩
    · rw [translateEnd, if_neg (by simpa using hempty)] at hr
      obtain ⟨hg, hlt, hne⟩ := hlast _ _ hshort hempty hr
      exact ⟨hlt, by rw [translateEnd, if_neg (by simpa using hne), hg]⟩
  obtain ⟨hblocks, hrest⟩ := blocks_flatten_append hlengths hend.1
  rw [blockwise, hblocks, hrest, hback, hend.2]
  exact congrArg some (flatten_append_lastBlock hn l)

end Translation

end Pebblecoin.Wire
