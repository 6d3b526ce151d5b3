import Mathlib.Data.UInt
import Pebblecoin.Wire.Codec

/-!
Sums, shifts and bit patterns of 64-bit words as numbers.
-/

namespace Pebblecoin.Wire

/-- A sum is below its first part exactly if it wraps. -/
theorem add_lt_left_iff (a b : UInt64) : a + b < a ↔ 2 ^ 64 ≤ a.toNat + b.toNat := by
  have ha := a.toNat_lt
  have hb := b.toNat_lt
  rw [UInt64.lt_iff_toNat_lt, UInt64.toNat_add]
  omega

theorem add_eq_max_iff (a b : UInt64) (hle : ¬ a + b < a) :
    a + b = 0xffffffffffffffff ↔ a.toNat + b.toNat + 1 = 2 ^ 64 := by
  rw [add_lt_left_iff, Nat.not_le] at hle
  rw [← UInt64.toNat_inj, UInt64.toNat_add, Nat.mod_eq_of_lt hle]
  change _ = 0xffffffffffffffff ↔ _
  omega

theorem toNat_ofNat_of_lt {n : Nat} (h : n < 2 ^ 64) : (UInt64.ofNat n).toNat = n := by
  rw [UInt64.toNat_ofNat', Nat.mod_eq_of_lt h]

theorem toNat_mul_of_lt {a b : UInt64} (h : a.toNat * b.toNat < 2 ^ 64) :
    (a * b).toNat = a.toNat * b.toNat := by
  rw [UInt64.toNat_mul, Nat.mod_eq_of_lt h]

theorem toNat_shiftRight_32 (a : UInt64) : (a >>> 32).toNat = a.toNat / 2 ^ 32 := by
  rw [UInt64.toNat_shiftRight, Nat.shiftRight_eq_div_pow]
  rfl

theorem toNat_shiftLeft_32 (a : UInt64) : (a <<< 32).toNat = a.toNat * 2 ^ 32 % 2 ^ 64 := by
  rw [UInt64.toNat_shiftLeft, Nat.shiftLeft_eq]
  rfl

theorem toNat_and_low_32 (a : UInt64) : (a &&& 0xFFFFFFFF).toNat = a.toNat % 2 ^ 32 := by
  rw [UInt64.toNat_and]
  exact Nat.and_two_pow_sub_one_eq_mod a.toNat 32

/-- Two halves next to each other. -/
theorem toNat_shiftLeft_or {a b : UInt64} (ha : a.toNat < 2 ^ 32) (hb : b.toNat < 2 ^ 32) :
    ((a <<< 32) ||| b).toNat = a.toNat * 2 ^ 32 + b.toNat := by
  have hshift : a.toNat * 2 ^ 32 % 2 ^ 64 = 2 ^ 32 * a.toNat := by
    rw [Nat.mul_comm, Nat.mod_eq_of_lt (by omega)]
  rw [UInt64.toNat_or, toNat_shiftLeft_32, hshift, ← Nat.two_pow_add_eq_or_of_lt hb, Nat.mul_comm]

theorem toNat_or_shiftLeft {a b : UInt64} (ha : a.toNat < 2 ^ 32) (hb : b.toNat < 2 ^ 32) :
    (b ||| (a <<< 32)).toNat = a.toNat * 2 ^ 32 + b.toNat := by
  rw [UInt64.toNat_or, Nat.or_comm, ← UInt64.toNat_or, toNat_shiftLeft_or ha hb]

/-- Two digits of a long division in base `base` make one digit in base `base * base`. -/
theorem long_division_two {base d r digit q next digit' q' last : Nat}
    (hfirst : r * base + digit = d * q + next) (hsecond : next * base + digit' = d * q' + last) :
    r * (base * base) + (digit * base + digit') = d * (q * base + q') + last := by
  calc r * (base * base) + (digit * base + digit')
      = (r * base + digit) * base + digit' := by ring
    _ = d * q * base + (next * base + digit') := by rw [hfirst]; ring
    _ = d * (q * base + q') + last := by rw [hsecond]; ring

/-- A carry as a word. -/
theorem toNat_carry (a b : UInt64) :
    (if a + b < a then (1 : UInt64) else 0).toNat = (a.toNat + b.toNat) / 2 ^ 64 := by
  have ha := a.toNat_lt
  have hb := b.toNat_lt
  have hwrap := add_lt_left_iff a b
  split_ifs with hlt
  · have hcarry := hwrap.mp hlt
    rw [UInt64.toNat_one]
    omega
  · have hcarry := hwrap.not.mp hlt
    rw [UInt64.toNat_zero]
    omega

theorem decodeLE_append (xs ys : Bytes) :
    Codec.decodeLE (xs ++ ys) = Codec.decodeLE xs + 256 ^ xs.length * Codec.decodeLE ys := by
  induction xs with
  | nil => simp [Codec.decodeLE]
  | cons x xs ih =>
    rw [List.cons_append, Codec.decodeLE, ih, Codec.decodeLE, List.length_cons, pow_succ]
    ring

/-- A sum of words wraps once. -/
theorem toNat_sum (l : List UInt64) : l.sum.toNat = (l.map UInt64.toNat).sum % 2 ^ 64 := by
  induction l with
  | nil => rfl
  | cons a l ih =>
    rw [List.sum_cons, UInt64.toNat_add, ih, List.map_cons, List.sum_cons, Nat.add_mod_mod]

/-- Words whose numbers add up to a word. -/
theorem toNat_sum_of_lt {l : List UInt64} (h : (l.map UInt64.toNat).sum < 2 ^ 64) :
    l.sum.toNat = (l.map UInt64.toNat).sum := by
  rw [toNat_sum, Nat.mod_eq_of_lt h]

/-- Wrapping changes a quotient, unless the divisor is greater than what is wrapped away. -/
theorem mod_div_eq_div_iff {a n m : Nat} (hpos : 0 < n) (hle : n ≤ m) :
    a % m / n = a / n ↔ a < m := by
  constructor
  · intro heq
    by_contra hlt
    have hwrapped : a % m + n ≤ a := by
      have hquot : 1 ≤ a / m := (Nat.le_div_iff_mul_le (by omega)).mpr (by omega)
      have hsplit := Nat.mod_add_div a m
      have hmul := Nat.mul_le_mul_left m hquot
      omega
    have hmore : a % m / n + 1 ≤ a / n := by
      rw [← Nat.add_div_right _ hpos]
      exact Nat.div_le_div_right hwrapped
    omega
  · intro hlt
    rw [Nat.mod_eq_of_lt hlt]

end Pebblecoin.Wire
