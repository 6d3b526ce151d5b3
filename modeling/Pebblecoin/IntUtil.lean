import Mathlib.Data.List.Basic

/-!
Products and quotients of 128-bit numbers held in two 64-bit words.
-/

namespace Pebblecoin

def hiDword (val : UInt64) : UInt64 := val >>> 32
def loDword (val : UInt64) : UInt64 := val &&& 0xFFFFFFFF

/-- Schoolbook multiplication in base `2 ^ 32`: the high and the low word. -/
def mul128 (multiplier multiplicand : UInt64) : UInt64 × UInt64 :=
  let a := hiDword multiplier
  let b := loDword multiplier
  let c := hiDword multiplicand
  let d := loDword multiplicand
  let ac := a * c
  let ad := a * d
  let bc := b * c
  let bd := b * d
  let adbc := ad + bc
  let adbcCarry : UInt64 := if adbc < ad then 1 else 0
  let productLo := bd + (adbc <<< 32)
  let productLoCarry : UInt64 := if productLo < bd then 1 else 0
  (ac + (adbc >>> 32) + (adbcCarry <<< 32) + productLoCarry, productLo)

/-- Quotient and remainder of one digit with the remainder carried in. -/
def divWithReminder (dividend : UInt64) (divisor remainder : UInt32) : UInt64 × UInt32 :=
  let dividend := dividend ||| (remainder.toUInt64 <<< 32)
  (dividend / divisor.toUInt64, (dividend % divisor.toUInt64).toUInt32)

/-- Long division in base `2 ^ 32`: the two quotient words and the remainder. -/
def div128By32 (dividendHi dividendLo : UInt64) (divisor : UInt32) : UInt64 × UInt64 × UInt32 :=
  let q3 := divWithReminder (hiDword dividendHi) divisor 0
  let q2 := divWithReminder (loDword dividendHi) divisor q3.2
  let q1 := divWithReminder (hiDword dividendLo) divisor q2.2
  let q0 := divWithReminder (loDword dividendLo) divisor q1.2
  ((q3.1 <<< 32) ||| q2.1, (q1.1 <<< 32) ||| q0.1, q0.2)

end Pebblecoin
