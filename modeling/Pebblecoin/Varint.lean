import Pebblecoin.Wire.Varint
import Mathlib.Data.UInt

/-!
The variable-length integers of `tools`, on words of any width.
-/

namespace Pebblecoin.Tools

open Wire

variable {w : Nat}

/-- The writing loop.  Every pass shifts the word by seven. -/
def writeVarintLoop : (fuel : Nat) → BitVec w → Bytes
  | 0, i => [UInt8.ofNat i.toNat]
  | fuel + 1, i =>
    if 0x80 ≤ i.toNat then
      ((UInt8.ofNat i.toNat &&& 0x7f) ||| 0x80) :: writeVarintLoop fuel (i >>> 7)
    else [UInt8.ofNat i.toNat]

/-- A word of `w` bits is below `0x80` after at most `w` passes. -/
def writeVarint (i : BitVec w) : Bytes := writeVarintLoop w i

/-- What a call of the reader returns, the word it has written and the bytes it has left. -/
@[ext] structure VarintResult (w : Nat) where
  code : Int
  i : BitVec w
  rest : Bytes
deriving DecidableEq, Repr

/-- The reading loop for the lowest `bits` bits of a word. -/
def readVarintBits (bits : Nat) : (read shift : Nat) → BitVec w → Bytes → VarintResult w
  | read, _, i, [] => ⟨read, i, []⟩ -- end of input
  | read, shift, i, byte :: rest =>
    if bits ≤ shift + 7 ∧ 1 <<< (bits - shift) ≤ byte.toNat then
      ⟨-1, i, rest⟩ -- overflow
    else if byte = 0 ∧ shift ≠ 0 then
      ⟨-2, i, rest⟩ -- non-canonical representation
    else
      let i := i ||| (BitVec.ofNat w (byte &&& 0x7f).toNat <<< shift)
      if byte &&& 0x80 = 0 then ⟨read + 1, i, rest⟩
      else readVarintBits bits (read + 1) (shift + 7) i rest

/-- The reader for a whole word. -/
def readVarint (w : Nat) (input : Bytes) : VarintResult w := readVarintBits w 0 0 0#w input

theorem toNat_and_low (byte : UInt8) : (byte &&& 0x7f).toNat = byte.toNat % 0x80 := by
  rw [UInt8.toNat_and]
  exact Nat.and_two_pow_sub_one_eq_mod byte.toNat 7

theorem and_high_eq_zero_iff (byte : UInt8) : byte &&& 0x80 = 0 ↔ byte.toNat < 0x80 := by
  have hall : ∀ n : Fin 256, n.val &&& 0x80 = 0 ↔ n.val < 0x80 := by decide +kernel
  rw [← UInt8.toNat_inj, UInt8.toNat_and]
  exact hall ⟨byte.toNat, byte.toNat_lt⟩

theorem continuation_eq (n : Nat) :
    (UInt8.ofNat n &&& 0x7f) ||| 0x80 = UInt8.ofNat (n % 0x80 + 0x80) := by
  have hlow : (UInt8.ofNat n &&& 0x7f).toNat = n % 2 ^ 7 := by
    rw [toNat_and_low, UInt8.toNat_ofNat']
    omega
  rw [← UInt8.toNat_inj, UInt8.toNat_or, hlow, Nat.or_comm, UInt8.toNat_ofNat']
  refine (Nat.two_pow_add_eq_or_of_lt (Nat.mod_lt n (Nat.two_pow_pos 7)) 1).symm.trans ?_
  omega

theorem writeVarintLoop_eq (fuel : Nat) (i : BitVec w) :
    writeVarintLoop fuel i = writeVarintAux fuel i.toNat := by
  induction fuel generalizing i with
  | zero => rfl
  | succ fuel ih =>
    rw [writeVarintLoop, writeVarintAux, ih, continuation_eq, BitVec.toNat_ushiftRight,
      Nat.shiftRight_eq_div_pow]

/-- The group goes above the bits that are there. -/
theorem toNat_or_group {shift g : Nat} {i : BitVec w} (hi : i.toNat < 2 ^ shift)
    (hfits : g * 2 ^ shift < 2 ^ w) :
    (i ||| (BitVec.ofNat w g <<< shift)).toNat = i.toNat + g * 2 ^ shift := by
  have hg : g < 2 ^ w := (Nat.le_mul_of_pos_right g (Nat.two_pow_pos shift)).trans_lt hfits
  rw [BitVec.toNat_or, BitVec.toNat_shiftLeft, BitVec.toNat_ofNat, Nat.mod_eq_of_lt hg,
    Nat.shiftLeft_eq, Nat.mod_eq_of_lt hfits, Nat.or_comm, Nat.mul_comm g,
    ← Nat.two_pow_add_eq_or_of_lt hi, Nat.add_comm]

/-- A byte that passes the overflow test has its group within the lowest `bits` bits. -/
theorem group_lt {bits shift : Nat} {byte : UInt8} (hshift : shift ≤ bits)
    (hover : ¬ (bits ≤ shift + 7 ∧ 2 ^ (bits - shift) ≤ byte.toNat)) :
    byte.toNat % 0x80 * 2 ^ shift < 2 ^ bits := by
  have hgroup : byte.toNat % 0x80 < 2 ^ (bits - shift) := by
    rcases Nat.lt_or_ge (shift + 7) bits with hroom | hend
    · calc byte.toNat % 0x80 < 2 ^ 7 := Nat.mod_lt _ (by decide)
        _ ≤ 2 ^ (bits - shift) := Nat.pow_le_pow_right (by decide) (by omega)
    · exact (Nat.mod_le _ _).trans_lt (Nat.not_le.mp fun hle => hover ⟨hend, hle⟩)
  calc byte.toNat % 0x80 * 2 ^ shift < 2 ^ (bits - shift) * 2 ^ shift :=
        Nat.mul_lt_mul_of_pos_right hgroup (Nat.two_pow_pos shift)
    _ = 2 ^ bits := by rw [← pow_add, Nat.sub_add_cancel hshift]

/-- The loop on words computes what the loop on numbers does. -/
theorem readVarintBits_refines {bits read shift : Nat} {i : BitVec w} (hbits : bits ≤ w)
    (input : Bytes) (hshift : shift ≤ bits) (hi : i.toNat < 2 ^ shift) :
    readVarintLoop bits read shift i.toNat input =
      ⟨(readVarintBits bits read shift i input).code,
        (readVarintBits bits read shift i input).i.toNat,
        (readVarintBits bits read shift i input).rest⟩ := by
  induction input generalizing read shift i with
  | nil => rfl
  | cons byte input ih =>
    rw [readVarintLoop, readVarintBits, Nat.one_shiftLeft]
    simp only [and_high_eq_zero_iff, toNat_and_low]
    split_ifs with hover hzero hlast
    · rfl
    · rfl
    · have hgroup := (group_lt hshift hover).trans_le (Nat.pow_le_pow_right (by decide) hbits)
      rw [toNat_or_group hi hgroup, Nat.mod_eq_of_lt hlast]
    · have hgroup := (group_lt hshift hover).trans_le (Nat.pow_le_pow_right (by decide) hbits)
      have hlow : byte.toNat - 0x80 = byte.toNat % 0x80 := by
        have := byte.toNat_lt
        omega
      have hnext : i.toNat + byte.toNat % 0x80 * 2 ^ shift < 2 ^ (shift + 7) := by
        calc i.toNat + byte.toNat % 0x80 * 2 ^ shift
            < (byte.toNat % 0x80 + 1) * 2 ^ shift := by
              rw [Nat.succ_mul]
              omega
          _ ≤ 2 ^ 7 * 2 ^ shift := Nat.mul_le_mul_right _ (Nat.mod_lt _ (by decide))
          _ = 2 ^ (shift + 7) := by rw [← pow_add, Nat.add_comm]
      rw [hlow, ← toNat_or_group hi hgroup] at *
      exact ih (shift_lt_of_not_over hover hlast).le hnext

theorem readVarint_refines (input : Bytes) :
    readVarintLoop w 0 0 0 input =
      ⟨(readVarint w input).code, (readVarint w input).i.toNat, (readVarint w input).rest⟩ := by
  have hrefines := @readVarintBits_refines w w 0 0 0#w le_rfl input (Nat.zero_le w) (by simp)
  rwa [BitVec.toNat_zero] at hrefines

theorem lt_fuel {n : Nat} (h : n < 2 ^ w) : n < 0x80 ^ (w + 1) :=
  calc n < 2 ^ w := h
    _ ≤ 0x80 ^ w := Nat.pow_le_pow_left (by decide) w
    _ ≤ 0x80 ^ (w + 1) := Nat.pow_le_pow_right (by decide) (Nat.le_succ w)

theorem strictRead_writeVarint (x : BitVec w) (rest : Bytes) :
    StrictRead w 0 (writeVarint x ++ rest) x.toNat rest := by
  rw [writeVarint, writeVarintLoop_eq]
  exact strictRead_of_strictVarint
    (strictVarint_write rest x.isLt (fun h => absurd rfl h) (lt_fuel x.isLt))

/-- What a strict reading says of the reader: it has counted the bytes of the number. -/
theorem readVarint_of_strictRead {input rest : Bytes} {n : Nat} (h : StrictRead w 0 input n rest) :
    (readVarint w input).code = (writeVarint (readVarint w input).i).length ∧
      (readVarint w input).i.toNat = n ∧ (readVarint w input).rest = rest ∧
      input = writeVarint (readVarint w input).i ++ rest := by
  obtain ⟨used, hused, hread⟩ := h.readVarintLoop 0 0
  rw [readVarint_refines, VarintRead.mk.injEq] at hread
  obtain ⟨hcode, hi, hrest⟩ := hread
  have hn : (readVarint w input).i.toNat = n := by simpa using hi
  have hwritten : input = writeVarint (readVarint w input).i ++ rest := by
    rw [writeVarint, writeVarintLoop_eq, hn]
    exact h.eq_write (lt_fuel h.lt)
  have hsame : used = writeVarint (readVarint w input).i :=
    List.append_cancel_right (hused.symm.trans hwritten)
  refine ⟨?_, hn, hrest, hwritten⟩
  rw [hcode, hsame]
  simp

/-- The input ends inside a number of fewer than `w` bits. -/
def CutOff (w : Nat) (input : Bytes) : Prop :=
  input ≠ [] ∧ (∀ byte ∈ input, 0x80 ≤ byte.toNat) ∧ 7 * input.length < w

/-- What is written is read back, and the bytes that a count is returned for are those that
are written, exactly if the input does not end inside a number. -/
theorem readVarint_exact_iff (w : Nat) :
    (∀ (x : BitVec w) (rest : Bytes),
      readVarint w (writeVarint x ++ rest) = ⟨(writeVarint x).length, x, rest⟩) ∧
      ∀ input : Bytes,
        (∀ n : Nat, 0 < n → (readVarint w input).code = n →
          input.take n = writeVarint (readVarint w input).i) ↔ ¬ CutOff w input := by
  refine ⟨fun x rest => ?_, fun input => ⟨?_, ?_⟩⟩
  · obtain ⟨hcode, hi, hrest, -⟩ := readVarint_of_strictRead (strictRead_writeVarint x rest)
    have hx := BitVec.eq_of_toNat_eq hi
    rw [hx] at hcode
    exact VarintResult.ext hcode hx hrest
  · rintro hexact ⟨hne, hall, hroom⟩
    -- the whole input is counted, but a written number has a byte without the bit
    have hcode : (readVarint w input).code = input.length := by
      have hread := @readVarintLoop_of_cut_off w 0 0 0 input hall (by omega)
      rw [readVarint_refines] at hread
      simpa using hread
    have hwritten := hexact input.length (List.length_pos_iff.mpr hne) hcode
    rw [List.take_length] at hwritten
    obtain ⟨byte, hmem, hlast⟩ := (strictRead_writeVarint (readVarint w input).i []).exists_last
    rw [List.append_nil, ← hwritten] at hmem
    exact absurd hlast (Nat.not_lt.mpr (hall byte hmem))
  · intro hwhole n hn hcode
    cases hstrict : strictVarint w 0 input with
    | some p =>
      obtain ⟨hcount, -, -, hwritten⟩ := readVarint_of_strictRead (strictRead_of_strictVarint hstrict)
      have hlength : n = (writeVarint (readVarint w input).i).length :=
        Int.ofNat_inj.mp (hcode.symm.trans hcount)
      conv_lhs => rw [hwritten, hlength]
      exact List.take_left
    | none =>
      have hpos : 0 < (readVarintLoop w 0 0 0 input).code := by
        rw [readVarint_refines, hcode]
        exact Int.natCast_pos.mpr hn
      obtain ⟨hall, hroom⟩ := cut_off_of_strictVarint_none hstrict hpos
      by_cases hempty : input = []
      · simp [hempty, readVarintLoop] at hpos
      · exact absurd ⟨hempty, hall, by simpa using hroom hempty⟩ hwhole

/-- One byte of a longer number is returned as the number 0. -/
theorem readVarint_cut_off :
    (readVarint 64 [0x80]).code = 1 ∧ (readVarint 64 [0x80]).i = 0 ∧ CutOff 64 [0x80] ∧
      [0x80].take 1 ≠ writeVarint (readVarint 64 [0x80]).i := by
  exact ⟨by decide, by decide, ⟨by decide, List.forall_mem_singleton.mpr (by decide), by decide⟩,
    by decide⟩

end Pebblecoin.Tools
