import Pebblecoin.Difficulty
import Pebblecoin.Wire.Words

/-!
The proof-of-work test compares the product of hash and difficulty with the size of the
space of hashes.
-/

namespace Pebblecoin

open Wire

theorem mulWords_eq (a b : UInt64) :
    (mulWords a b).2.toNat * 2 ^ 64 + (mulWords a b).1.toNat = a.toNat * b.toNat := by
  have hlt : a.toNat * b.toNat < 2 ^ 64 * 2 ^ 64 :=
    Nat.mul_lt_mul'' a.toNat_lt b.toNat_lt
  have hhigh : a.toNat * b.toNat / 2 ^ 64 < 2 ^ 64 := Nat.div_lt_of_lt_mul hlt
  rw [mulWords, toNat_ofNat_of_lt hhigh, UInt64.toNat_ofNat']
  exact Nat.div_add_mod' _ _

theorem cadd_iff (a b : UInt64) : cadd a b = true ↔ 2 ^ 64 ≤ a.toNat + b.toNat := by
  rw [cadd, decide_eq_true_eq, add_lt_left_iff]

theorem cadc_iff (a b : UInt64) (c : Bool) :
    cadc a b c = true ↔ 2 ^ 64 ≤ a.toNat + b.toNat + c.toNat := by
  rw [cadc, Bool.or_eq_true, decide_eq_true_eq]
  by_cases hwrap : a + b < a
  · have hcarry := (add_lt_left_iff a b).mp hwrap
    simp only [hwrap, true_or, true_iff]
    omega
  · have hsum := (add_lt_left_iff a b).not.mp hwrap
    cases c with
    | false =>
      simp only [hwrap, Bool.false_and, Bool.false_eq_true, or_self, Bool.toNat_false, false_iff]
      omega
    | true =>
      rw [Bool.true_and, decide_eq_true_eq, add_eq_max_iff a b hwrap, Bool.toNat_true]
      simp only [hwrap, false_or]
      omega

theorem toNat_cadd (a b : UInt64) : (cadd a b).toNat = (a.toNat + b.toNat) / 2 ^ 64 := by
  have ha := a.toNat_lt
  have hb := b.toNat_lt
  have hcarry := cadd_iff a b
  cases hc : cadd a b with
  | false =>
    rw [hc] at hcarry
    simp only [Bool.false_eq_true, false_iff] at hcarry
    rw [Bool.toNat_false]
    omega
  | true =>
    have hwrap := hcarry.mp hc
    rw [Bool.toNat_true]
    omega

theorem toNat_cadc (a b : UInt64) (c : Bool) :
    (cadc a b c).toNat = (a.toNat + b.toNat + c.toNat) / 2 ^ 64 := by
  have ha := a.toNat_lt
  have hb := b.toNat_lt
  have hc := c.toNat_le
  have hcarry := cadc_iff a b c
  cases hout : cadc a b c with
  | false =>
    rw [hout] at hcarry
    simp only [Bool.false_eq_true, false_iff] at hcarry
    rw [Bool.toNat_false]
    omega
  | true =>
    have hwrap := hcarry.mp hout
    rw [Bool.toNat_true]
    omega

/-- A hash as a number, lowest byte first. -/
def hashValue (hash : Hash) : Nat := Codec.decodeLE hash.bytes

theorem toNat_hashWord (hash : Hash) (i : Nat) :
    (hashWord hash i).toNat = Codec.decodeLE ((hash.bytes.drop (8 * i)).take 8) := by
  refine toNat_ofNat_of_lt ((Codec.decodeLE_lt _).trans_le ?_)
  calc 256 ^ ((hash.bytes.drop (8 * i)).take 8).length
      ≤ 256 ^ 8 := Nat.pow_le_pow_right (by decide) (List.length_take_le _ _)
    _ = 2 ^ 64 := by decide

theorem decodeLE_drop_eq_word (bs : Bytes) (i : Nat) (h : 8 * i + 8 ≤ bs.length) :
    Codec.decodeLE (bs.drop (8 * i)) =
      Codec.decodeLE ((bs.drop (8 * i)).take 8) + 2 ^ 64 * Codec.decodeLE (bs.drop (8 * (i + 1))) := by
  have hlength : ((bs.drop (8 * i)).take 8).length = 8 := by
    rw [List.length_take, List.length_drop]
    omega
  have hsplit := decodeLE_append ((bs.drop (8 * i)).take 8) ((bs.drop (8 * i)).drop 8)
  rw [List.take_append_drop, hlength, List.drop_drop] at hsplit
  exact hsplit

theorem hashValue_eq (hash : Hash) :
    hashValue hash = (hashWord hash 0).toNat + 2 ^ 64 * ((hashWord hash 1).toNat +
      2 ^ 64 * ((hashWord hash 2).toNat + 2 ^ 64 * (hashWord hash 3).toNat)) := by
  have hsize : hash.bytes.length = 32 := hash.size_eq
  have hend : Codec.decodeLE (hash.bytes.drop (8 * 4)) = 0 := by
    rw [List.drop_of_length_le (by omega)]
    rfl
  have h0 := decodeLE_drop_eq_word hash.bytes 0 (by omega)
  have h1 := decodeLE_drop_eq_word hash.bytes 1 (by omega)
  have h2 := decodeLE_drop_eq_word hash.bytes 2 (by omega)
  have h3 := decodeLE_drop_eq_word hash.bytes 3 (by omega)
  rw [hend, Nat.mul_zero, Nat.add_zero] at h3
  rw [h3] at h2
  rw [h2] at h1
  rw [h1, Nat.mul_zero, List.drop_zero] at h0
  simp only [toNat_hashWord]
  exact h0

theorem not_eq_true_iff_toNat (c : Bool) : (!c) = true ↔ c.toNat = 0 := by
  cases c <;> decide

/-- The product is never formed: its words are added up from the lowest carry on. -/
theorem checkHash_iff (hash : Hash) (difficulty : UInt64) :
    checkHash hash difficulty = true ↔ hashValue hash * difficulty.toNat < 2 ^ 256 := by
  have h0 := mulWords_eq (hashWord hash 0) difficulty
  have h1 := mulWords_eq (hashWord hash 1) difficulty
  have h2 := mulWords_eq (hashWord hash 2) difficulty
  have h3 := mulWords_eq (hashWord hash 3) difficulty
  have hproduct : hashValue hash * difficulty.toNat =
      (hashWord hash 0).toNat * difficulty.toNat +
        2 ^ 64 * ((hashWord hash 1).toNat * difficulty.toNat +
          2 ^ 64 * ((hashWord hash 2).toNat * difficulty.toNat +
            2 ^ 64 * ((hashWord hash 3).toNat * difficulty.toNat))) := by
    rw [hashValue_eq]
    ring
  rw [hproduct, ← h0, ← h1, ← h2, ← h3, checkHash]
  rcases mulWords (hashWord hash 0) difficulty with ⟨low0, high0⟩
  rcases mulWords (hashWord hash 1) difficulty with ⟨low1, high1⟩
  rcases mulWords (hashWord hash 2) difficulty with ⟨low2, high2⟩
  rcases mulWords (hashWord hash 3) difficulty with ⟨low3, high3⟩
  have hlow0 := low0.toNat_lt
  have hlow1 := low1.toNat_lt
  have hlow2 := low2.toNat_lt
  dsimp only
  by_cases hhigh : high3 = 0
  · rw [if_neg (not_not_intro hhigh), not_eq_true_iff_toNat, toNat_cadc, toNat_cadc, toNat_cadd, hhigh]
    rw [UInt64.toNat_zero]
    omega
  · have hpos : high3.toNat ≠ 0 := fun hzero => hhigh (UInt64.toNat_inj.mp hzero)
    rw [if_pos hhigh]
    simp only [Bool.false_eq_true, false_iff]
    omega

end Pebblecoin
