import Mathlib.Data.List.Basic
import Mathlib.Tactic.Ring
import Mathlib.Tactic.Linarith

/-!
Variable-length integers: groups of seven bits, lowest group first, every byte
but the last with its top bit set.
-/

namespace Pebblecoin.Wire

abbrev Bytes := List UInt8

/-- Write `n` in groups of seven bits.  `fuel` bounds the number of
continuation bytes. -/
def writeVarintAux : (fuel : Nat) → Nat → Bytes
  | 0, n => [UInt8.ofNat n]
  | fuel + 1, n =>
    if 0x80 ≤ n then
      UInt8.ofNat (n % 0x80 + 0x80) :: writeVarintAux fuel (n / 0x80)
    else [UInt8.ofNat n]

/-- Nine continuation bytes cover every value below `2 ^ 70`. -/
def writeVarint (n : Nat) : Bytes :=
  writeVarintAux 9 n

/-- What one call of the reader leaves behind. -/
structure VarintRead where
  /-- Bytes consumed, `-1` on overflow, `-2` on a superfluous zero group. -/
  code : Int
  value : Nat
  rest : Bytes
deriving DecidableEq, Repr

/-- The reading loop for an integer of `bits` bits.  End of input is not an
error: the groups seen so far are the value.  After an error the offending byte
is consumed and the value holds the groups before it.  The groups do not
overlap, so the bitwise or of the loop is a sum. -/
def readVarintLoop (bits : Nat) : (read shift value : Nat) → Bytes → VarintRead
  | read, _, value, [] => ⟨read, value, []⟩
  | read, shift, value, byte :: rest =>
    if bits ≤ shift + 7 ∧ 2 ^ (bits - shift) ≤ byte.toNat then
      ⟨-1, value, rest⟩
    else if byte = 0 ∧ shift ≠ 0 then
      ⟨-2, value, rest⟩
    else if byte.toNat < 0x80 then
      ⟨read + 1, value + byte.toNat * 2 ^ shift, rest⟩
    else
      readVarintLoop bits (read + 1) (shift + 7)
        (value + (byte.toNat - 0x80) * 2 ^ shift) rest

def readVarint (bits : Nat) (input : Bytes) : VarintRead :=
  readVarintLoop bits 0 0 0 input

/-- The reader that refuses what the loop above tolerates: a value cut off by
the end of the input, an overflow and a superfluous zero group. -/
def strictVarint (bits : Nat) : (shift : Nat) → Bytes → Option (Nat × Bytes)
  | _, [] => none
  | shift, byte :: rest =>
    if bits ≤ shift + 7 ∧ 2 ^ (bits - shift) ≤ byte.toNat then none
    else if byte = 0 ∧ shift ≠ 0 then none
    else if byte.toNat < 0x80 then some (byte.toNat, rest)
    else (strictVarint bits (shift + 7) rest).map fun p =>
      (byte.toNat - 0x80 + 0x80 * p.1, p.2)

/-- What the strict reader accepts: the groups of `n`, then `rest`. -/
inductive StrictRead (bits : Nat) : (shift : Nat) → Bytes → Nat → Bytes → Prop
  | last {shift : Nat} {byte : UInt8} {rest : Bytes}
      (hover : ¬ (bits ≤ shift + 7 ∧ 2 ^ (bits - shift) ≤ byte.toNat))
      (hzero : ¬ (byte = 0 ∧ shift ≠ 0)) (hlast : byte.toNat < 0x80) :
      StrictRead bits shift (byte :: rest) byte.toNat rest
  | more {shift high : Nat} {byte : UInt8} {input rest : Bytes}
      (hover : ¬ (bits ≤ shift + 7 ∧ 2 ^ (bits - shift) ≤ byte.toNat))
      (hzero : ¬ (byte = 0 ∧ shift ≠ 0)) (hmore : ¬ byte.toNat < 0x80)
      (hhigh : StrictRead bits (shift + 7) input high rest) :
      StrictRead bits shift (byte :: input) (byte.toNat - 0x80 + 0x80 * high) rest

theorem strictRead_of_strictVarint {bits shift : Nat} {input rest : Bytes} {n : Nat}
    (h : strictVarint bits shift input = some (n, rest)) : StrictRead bits shift input n rest := by
  induction input generalizing shift n with
  | nil => simp [strictVarint] at h
  | cons byte input ih =>
    rw [strictVarint] at h
    split_ifs at h with hover hzero hlast
    · obtain ⟨rfl, rfl⟩ : byte.toNat = n ∧ input = rest := by simpa using h
      exact .last hover hzero hlast
    · obtain ⟨⟨high, rest'⟩, hhigh, hn⟩ := Option.map_eq_some_iff.mp h
      obtain ⟨rfl, rfl⟩ : byte.toNat - 0x80 + 0x80 * high = n ∧ rest' = rest := by
        simpa using hn
      exact .more hover hzero hlast (ih hhigh)

theorem StrictRead.readVarintLoop {bits shift : Nat} {input rest : Bytes} {n : Nat}
    (h : StrictRead bits shift input n rest) (read value : Nat) :
    ∃ used, input = used ++ rest ∧ readVarintLoop bits read shift value input =
      ⟨read + used.length, value + n * 2 ^ shift, rest⟩ := by
  induction h generalizing read value with
  | @last shift byte rest hover hzero hlast =>
    refine ⟨[byte], rfl, ?_⟩
    rw [Wire.readVarintLoop, if_neg hover, if_neg hzero, if_pos hlast]
    rfl
  | @more shift high byte input rest hover hzero hmore hhigh ih =>
    obtain ⟨used, rfl, hread⟩ := ih (read + 1) (value + (byte.toNat - 0x80) * 2 ^ shift)
    refine ⟨byte :: used, rfl, ?_⟩
    rw [Wire.readVarintLoop, if_neg hover, if_neg hzero, if_neg hmore, hread]
    simp only [VarintRead.mk.injEq, and_true, List.length_cons]
    constructor
    · push_cast
      ring
    · ring

/-- A continuation byte leaves room for the next group. -/
theorem shift_lt_of_not_over {bits shift : Nat} {byte : UInt8}
    (hover : ¬ (bits ≤ shift + 7 ∧ 2 ^ (bits - shift) ≤ byte.toNat))
    (hbyte : ¬ byte.toNat < 0x80) : shift + 7 < bits := by
  by_contra hle
  have : 2 ^ (bits - shift) ≤ 2 ^ 7 := Nat.pow_le_pow_right (by omega) (by omega)
  omega

/-- What the loop returns a count for, although it is not read strictly: an input that ends
inside a number. -/
theorem cut_off_of_strictVarint_none {bits read shift value : Nat} {input : Bytes}
    (h : strictVarint bits shift input = none)
    (hcode : 0 < (readVarintLoop bits read shift value input).code) :
    (∀ byte ∈ input, 0x80 ≤ byte.toNat) ∧ (input ≠ [] → shift + 7 * input.length < bits) := by
  induction input generalizing read shift value with
  | nil => simp
  | cons byte input ih =>
    rw [strictVarint] at h
    rw [readVarintLoop] at hcode
    split_ifs at h hcode with hover hzero hlast
    · simp at hcode
    · simp at hcode
    · obtain ⟨hall, hroom⟩ := ih (Option.map_eq_none_iff.mp h) hcode
      have hnext := shift_lt_of_not_over hover hlast
      refine ⟨List.forall_mem_cons.mpr ⟨Nat.not_lt.mp hlast, hall⟩, fun _ => ?_⟩
      rw [List.length_cons]
      by_cases hempty : input = []
      · rw [hempty, List.length_nil]
        omega
      · have := hroom hempty
        omega

theorem readVarintLoop_of_cut_off {bits read shift value : Nat} {input : Bytes}
    (hall : ∀ byte ∈ input, 0x80 ≤ byte.toNat) (hroom : shift + 7 * input.length < bits) :
    (readVarintLoop bits read shift value input).code = read + input.length := by
  induction input generalizing read shift value with
  | nil => simp [readVarintLoop]
  | cons byte input ih =>
    obtain ⟨hbyte, hall⟩ := List.forall_mem_cons.mp hall
    rw [List.length_cons] at hroom
    have hzero : byte ≠ 0 := by
      rintro rfl
      exact absurd hbyte (by decide)
    rw [readVarintLoop, if_neg (by omega), if_neg (fun h => hzero h.1), if_neg (by omega),
      ih hall (by omega), List.length_cons]
    push_cast
    ring

theorem readVarintLoop_rest_lt {bits read shift value : Nat} {input : Bytes} (h : input ≠ []) :
    (readVarintLoop bits read shift value input).rest.length < input.length := by
  induction input generalizing read shift value with
  | nil => exact absurd rfl h
  | cons byte input ih =>
    rw [readVarintLoop, List.length_cons]
    split_ifs
    · exact Nat.lt_succ_self _
    · exact Nat.lt_succ_self _
    · exact Nat.lt_succ_self _
    · by_cases hempty : input = []
      · subst hempty
        exact Nat.zero_lt_one
      · exact (ih hempty).trans (Nat.lt_succ_self _)

/-- A byte below the continuation bit is a number of its own. -/
theorem readVarint_cons_of_lt {byte : UInt8} (rest : Bytes) (h : byte.toNat < 0x80) :
    readVarint 64 (byte :: rest) = ⟨1, byte.toNat, rest⟩ := by
  rw [readVarint, readVarintLoop, if_neg (by omega), if_neg (fun h => h.2 rfl), if_pos h]
  simp

/-- Any other byte takes the next one with it. -/
theorem readVarint_rest_lt_of_le {byte : UInt8} {rest : Bytes} (h : 0x80 ≤ byte.toNat) (hne : rest ≠ []) :
    (readVarint 64 (byte :: rest)).rest.length < rest.length := by
  rw [readVarint, readVarintLoop, if_neg (by omega), if_neg (fun h => h.2 rfl),
    if_neg (Nat.not_lt.mpr h)]
  exact readVarintLoop_rest_lt hne

/-- The loop never stores more than `bits` bits. -/
theorem readVarintLoop_value_lt {bits read shift value : Nat} (input : Bytes)
    (hshift : shift < bits) (hvalue : value < 2 ^ shift) :
    (readVarintLoop bits read shift value input).value < 2 ^ bits := by
  induction input generalizing read shift value with
  | nil => exact hvalue.trans (Nat.pow_lt_pow_right (by omega) hshift)
  | cons byte input ih =>
    have hstop : value < 2 ^ bits := hvalue.trans (Nat.pow_lt_pow_right (by omega) hshift)
    -- a group below `2 ^ k` placed at `shift` stays below `2 ^ (k + shift)`
    have hgroup : ∀ k g : Nat, g < 2 ^ k → value + g * 2 ^ shift < 2 ^ (k + shift) := by
      intro k g hg
      calc value + g * 2 ^ shift < 2 ^ shift + g * 2 ^ shift := by omega
        _ = (g + 1) * 2 ^ shift := by ring
        _ ≤ 2 ^ k * 2 ^ shift := Nat.mul_le_mul_right _ hg
        _ = 2 ^ (k + shift) := (pow_add ..).symm
    have hbyte := byte.toNat_lt
    rw [readVarintLoop]
    split_ifs with hover hzero hlast
    · exact hstop
    · exact hstop
    · by_cases hbits : bits ≤ shift + 7
      · have := hgroup (bits - shift) byte.toNat (by omega)
        rwa [show bits - shift + shift = bits by omega] at this
      · exact (hgroup 7 byte.toNat (by omega)).trans
          (Nat.pow_lt_pow_right (by omega) (by omega))
    · refine ih (shift_lt_of_not_over hover hlast) ?_
      have := hgroup 7 (byte.toNat - 0x80) (by omega)
      rwa [add_comm 7 shift] at this

/-- A group that is not the first one is never zero. -/
theorem StrictRead.pos {bits shift : Nat} {input rest : Bytes} {n : Nat}
    (h : StrictRead bits shift input n rest) (hshift : shift ≠ 0) : 0 < n := by
  induction h with
  | @last shift byte rest hover hzero hlast =>
    have hbyte : byte ≠ 0 := fun hb => hzero ⟨hb, hshift⟩
    exact Nat.pos_of_ne_zero fun h0 => hbyte (UInt8.toNat_inj.mp h0)
  | more hover hzero hmore hhigh ih =>
    have := ih (by omega)
    omega

/-- A value read strictly fits the bits that are left. -/
theorem StrictRead.lt {bits shift : Nat} {input rest : Bytes} {n : Nat}
    (h : StrictRead bits shift input n rest) : n < 2 ^ (bits - shift) := by
  induction h with
  | @last shift byte rest hover hzero hlast =>
    by_cases hbits : bits ≤ shift + 7
    · by_contra hge
      exact hover ⟨hbits, by omega⟩
    · calc byte.toNat < 2 ^ 7 := by simpa using hlast
        _ ≤ 2 ^ (bits - shift) := Nat.pow_le_pow_right (by omega) (by omega)
  | @more shift high byte input rest hover hzero hmore hhigh ih =>
    have hroom := shift_lt_of_not_over hover hmore
    have hpow : 2 ^ (bits - shift) = 0x80 * 2 ^ (bits - (shift + 7)) := by
      rw [show bits - shift = 7 + (bits - (shift + 7)) by omega, pow_add]
      norm_num
    have := byte.toNat_lt
    omega

theorem StrictRead.exists_last {bits shift : Nat} {input rest : Bytes} {n : Nat}
    (h : StrictRead bits shift input n rest) : ∃ byte ∈ input, byte.toNat < 0x80 := by
  induction h with
  | last hover hzero hlast => exact ⟨_, List.mem_cons_self, hlast⟩
  | more hover hzero hmore hhigh ih =>
    obtain ⟨byte, hmem, hlast⟩ := ih
    exact ⟨byte, List.mem_cons_of_mem _ hmem, hlast⟩

/-- What is read strictly is what would be written. -/
theorem StrictRead.eq_write {bits shift fuel : Nat} {input rest : Bytes} {n : Nat}
    (h : StrictRead bits shift input n rest) (hfuel : n < 0x80 ^ (fuel + 1)) :
    input = writeVarintAux fuel n ++ rest := by
  induction h generalizing fuel with
  | @last shift byte rest hover hzero hlast =>
    cases fuel with
    | zero => simp [writeVarintAux]
    | succ fuel => simp [writeVarintAux, show ¬ 0x80 ≤ byte.toNat by omega]
  | @more shift high byte input rest hover hzero hmore hhigh ih =>
    have hpos := hhigh.pos (by omega)
    have hbyte := byte.toNat_lt
    cases fuel with
    | zero => omega
    | succ fuel =>
      have hdiv : (byte.toNat - 0x80 + 0x80 * high) / 0x80 = high := by omega
      have hmod : (byte.toNat - 0x80 + 0x80 * high) % 0x80 + 0x80 = byte.toNat := by
        omega
      have hhighlt : high < 0x80 ^ (fuel + 1) := by
        rw [pow_succ] at hfuel
        omega
      rw [writeVarintAux, if_pos (by omega), hdiv, hmod, UInt8.ofNat_toNat,
        List.cons_append, ← ih hhighlt]

/-- What is written is read back strictly. -/
theorem strictVarint_write {bits shift fuel n : Nat} (rest : Bytes)
    (hbits : n < 2 ^ (bits - shift)) (hpos : shift ≠ 0 → 0 < n)
    (hfuel : n < 0x80 ^ (fuel + 1)) :
    strictVarint bits shift (writeVarintAux fuel n ++ rest) = some (n, rest) := by
  -- a last group, whichever branch of the writer produced it
  have hlast : ∀ {shift n : Nat}, n < 2 ^ (bits - shift) → (shift ≠ 0 → 0 < n) → n < 0x80 →
      strictVarint bits shift (UInt8.ofNat n :: rest) = some (n, rest) := by
    intro shift n hbits hpos hn
    have hbyte : (UInt8.ofNat n).toNat = n := UInt8.toNat_ofNat_of_lt (by simp [UInt8.size]; omega)
    have hzero : ¬ (UInt8.ofNat n = 0 ∧ shift ≠ 0) := by
      rintro ⟨hz, hs⟩
      have : n = 0 := by rw [← hbyte, hz]; rfl
      have := hpos hs
      omega
    rw [strictVarint, hbyte, if_neg (by omega), if_neg hzero, if_pos hn]
  induction fuel generalizing shift n with
  | zero => exact hlast hbits hpos (by omega)
  | succ fuel ih =>
    rw [writeVarintAux]
    split_ifs with hge
    · have hbyte : (UInt8.ofNat (n % 0x80 + 0x80)).toNat = n % 0x80 + 0x80 :=
        UInt8.toNat_ofNat_of_lt (by simp [UInt8.size]; omega)
      have hroom : ¬ bits ≤ shift + 7 := fun hle => by
        have : 2 ^ (bits - shift) ≤ 2 ^ 7 := Nat.pow_le_pow_right (by omega) (by omega)
        omega
      have hzero : ¬ (UInt8.ofNat (n % 0x80 + 0x80) = 0 ∧ shift ≠ 0) := by
        rintro ⟨hz, -⟩
        rw [hz] at hbyte
        simp at hbyte
      have hhigh : n / 0x80 < 2 ^ (bits - (shift + 7)) := by
        rw [show bits - shift = 7 + (bits - (shift + 7)) by omega, pow_add] at hbits
        omega
      have hhighfuel : n / 0x80 < 0x80 ^ (fuel + 1) := by
        rw [pow_succ] at hfuel
        omega
      rw [List.cons_append, strictVarint, hbyte, if_neg (fun h => hroom h.1), if_neg hzero,
        if_neg (by omega), ih hhigh (by omega) hhighfuel]
      simp only [Option.map_some, Option.some.injEq, Prod.mk.injEq, and_true]
      omega
    · exact hlast hbits hpos (by omega)

end Pebblecoin.Wire
