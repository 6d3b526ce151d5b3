import Pebblecoin.Difficulty
import Pebblecoin.Wire.Words

/-!
The block reward in exact numbers.
-/

namespace Pebblecoin

open Wire

theorem toNat_hiDword (val : UInt64) : (hiDword val).toNat = val.toNat / 2 ^ 32 :=
  toNat_shiftRight_32 val

theorem toNat_loDword (val : UInt64) : (loDword val).toNat = val.toNat % 2 ^ 32 :=
  toNat_and_low_32 val

theorem toNat_mul_dwords {a b : UInt64} (ha : a.toNat < 2 ^ 32) (hb : b.toNat < 2 ^ 32) :
    (a * b).toNat = a.toNat * b.toNat :=
  toNat_mul_of_lt ((Nat.mul_lt_mul'' ha hb).trans_le (by decide))

theorem toNat_hiDword_lt (val : UInt64) : (hiDword val).toNat < 2 ^ 32 := by
  have hval := val.toNat_lt
  rw [toNat_hiDword]
  omega

theorem toNat_loDword_lt (val : UInt64) : (loDword val).toNat < 2 ^ 32 := by
  rw [toNat_loDword]
  exact Nat.mod_lt _ (by decide)

theorem toNat_eq_dwords (val : UInt64) :
    val.toNat = (hiDword val).toNat * 2 ^ 32 + (loDword val).toNat := by
  rw [toNat_hiDword, toNat_loDword, Nat.div_add_mod']

/-- The four products of two halves are exact. -/
theorem mul_eq_dwords (x y : UInt64) :
    x.toNat * y.toNat = (hiDword x * hiDword y).toNat * 2 ^ 64 +
      ((hiDword x * loDword y).toNat + (loDword x * hiDword y).toNat) * 2 ^ 32 +
      (loDword x * loDword y).toNat := by
  have ha := toNat_hiDword_lt x
  have hb := toNat_loDword_lt x
  have hc := toNat_hiDword_lt y
  have hd := toNat_loDword_lt y
  rw [toNat_mul_dwords ha hc, toNat_mul_dwords ha hd, toNat_mul_dwords hb hc,
    toNat_mul_dwords hb hd, toNat_eq_dwords x, toNat_eq_dwords y]
  ring

theorem mul128_eq (x y : UInt64) :
    (mul128 x y).1.toNat * 2 ^ 64 + (mul128 x y).2.toNat = x.toNat * y.toNat := by
  have hproduct := mul_eq_dwords x y
  have hlt : x.toNat * y.toNat < 2 ^ 64 * 2 ^ 64 := Nat.mul_lt_mul'' x.toNat_lt y.toNat_lt
  rw [mul128]
  generalize hiDword x * hiDword y = ac at hproduct ⊢
  generalize hiDword x * loDword y = ad at hproduct ⊢
  generalize loDword x * hiDword y = bc at hproduct ⊢
  generalize loDword x * loDword y = bd at hproduct ⊢
  have hcarry := toNat_carry ad bc
  have hlow := toNat_carry bd ((ad + bc) <<< 32)
  generalize (if ad + bc < ad then (1 : UInt64) else 0) = adbcCarry at hcarry ⊢
  generalize (if bd + ((ad + bc) <<< 32) < bd then (1 : UInt64) else 0) = loCarry at hlow ⊢
  have had := ad.toNat_lt
  have hbc := bc.toNat_lt
  rw [toNat_shiftLeft_32, UInt64.toNat_add] at hlow
  simp only [UInt64.toNat_add, toNat_shiftLeft_32, toNat_shiftRight_32]
  rw [hproduct] at hlt ⊢
  omega

/-- What the multiplication asserts at its end. -/
theorem hiDword_mul_le_mul128 (x y : UInt64) : hiDword x * hiDword y ≤ (mul128 x y).1 := by
  have hproduct := mul_eq_dwords x y
  have hwords := mul128_eq x y
  have hlo := (mul128 x y).2.toNat_lt
  rw [UInt64.le_iff_toNat_le]
  omega

/-- One step of the long division in numbers: the digit fits below the remainder, and the
quotient is one digit again. -/
structure ExactStep (digit : UInt64) (divisor remainder : UInt32) : Prop where
  joined : (digit ||| (remainder.toUInt64 <<< 32)).toNat = remainder.toNat * 2 ^ 32 + digit.toNat
  divided : remainder.toNat * 2 ^ 32 + digit.toNat =
    divisor.toNat * (divWithReminder digit divisor remainder).1.toNat +
      (divWithReminder digit divisor remainder).2.toNat
  remainder_lt : (divWithReminder digit divisor remainder).2.toNat < divisor.toNat
  quotient_lt : (divWithReminder digit divisor remainder).1.toNat < 2 ^ 32

theorem exactStep {digit : UInt64} {divisor remainder : UInt32} (hdigit : digit.toNat < 2 ^ 32)
    (hrem : remainder.toNat < divisor.toNat) : ExactStep digit divisor remainder := by
  have hr := remainder.toNat_lt
  have hd := divisor.toNat_lt
  have hdividend : (digit ||| (remainder.toUInt64 <<< 32)).toNat =
      remainder.toNat * 2 ^ 32 + digit.toNat := by
    rw [toNat_or_shiftLeft (by rwa [UInt32.toNat_toUInt64]) hdigit, UInt32.toNat_toUInt64]
  have hmod : (remainder.toNat * 2 ^ 32 + digit.toNat) % divisor.toNat < divisor.toNat :=
    Nat.mod_lt _ (by omega)
  have hquotient : (divWithReminder digit divisor remainder).1.toNat =
      (remainder.toNat * 2 ^ 32 + digit.toNat) / divisor.toNat := by
    rw [divWithReminder, UInt64.toNat_div, UInt32.toNat_toUInt64, hdividend]
  have hremainder : (divWithReminder digit divisor remainder).2.toNat =
      (remainder.toNat * 2 ^ 32 + digit.toNat) % divisor.toNat := by
    rw [divWithReminder, UInt64.toNat_toUInt32, UInt64.toNat_mod, UInt32.toNat_toUInt64, hdividend,
      Nat.mod_eq_of_lt (hmod.trans hd)]
  refine ⟨hdividend, ?_, hremainder ▸ hmod, ?_⟩
  · rw [hquotient, hremainder, Nat.div_add_mod]
  · rw [hquotient]
    refine Nat.div_lt_of_lt_mul ?_
    calc remainder.toNat * 2 ^ 32 + digit.toNat
        < remainder.toNat * 2 ^ 32 + 2 ^ 32 := Nat.add_lt_add_left hdigit _
      _ = (remainder.toNat + 1) * 2 ^ 32 := by rw [Nat.succ_mul]
      _ ≤ divisor.toNat * 2 ^ 32 := Nat.mul_le_mul_right _ hrem

/-- The four steps of the long division, each with the remainder of the one before. -/
def ExactSteps (hi lo : UInt64) (divisor : UInt32) : Prop :=
  let q3 := divWithReminder (hiDword hi) divisor 0
  let q2 := divWithReminder (loDword hi) divisor q3.2
  let q1 := divWithReminder (hiDword lo) divisor q2.2
  ExactStep (hiDword hi) divisor 0 ∧ ExactStep (loDword hi) divisor q3.2 ∧
    ExactStep (hiDword lo) divisor q2.2 ∧ ExactStep (loDword lo) divisor q1.2

theorem exactSteps (hi lo : UInt64) {divisor : UInt32} (hdivisor : 0 < divisor.toNat) :
    ExactSteps hi lo divisor := by
  have h3 : ExactStep (hiDword hi) divisor 0 := exactStep (toNat_hiDword_lt hi) hdivisor
  have h2 := exactStep (toNat_loDword_lt hi) h3.remainder_lt
  have h1 := exactStep (toNat_hiDword_lt lo) h2.remainder_lt
  exact ⟨h3, h2, h1, exactStep (toNat_loDword_lt lo) h1.remainder_lt⟩

theorem ExactSteps.divided {hi lo : UInt64} {divisor : UInt32} (h : ExactSteps hi lo divisor) :
    hi.toNat * 2 ^ 64 + lo.toNat =
        divisor.toNat * ((div128By32 hi lo divisor).1.toNat * 2 ^ 64 +
          (div128By32 hi lo divisor).2.1.toNat) + (div128By32 hi lo divisor).2.2.toNat ∧
      (div128By32 hi lo divisor).2.2.toNat < divisor.toNat := by
  obtain ⟨h3, h2, h1, h0⟩ := h
  rw [div128By32]
  refine ⟨?_, h0.remainder_lt⟩
  dsimp only
  rw [toNat_shiftLeft_or h3.quotient_lt h2.quotient_lt,
    toNat_shiftLeft_or h1.quotient_lt h0.quotient_lt]
  -- Each digit was divided exactly, so the digits of the quotient add up to the quotient.
  have hfirst := h3.divided
  rw [UInt32.toNat_zero] at hfirst
  have hhigh := long_division_two hfirst h2.divided
  have hlow := long_division_two h1.divided h0.divided
  rw [← toNat_eq_dwords, Nat.zero_mul, ← Nat.zero_mul (2 ^ 64)] at hhigh
  rw [← toNat_eq_dwords] at hlow
  have hdivided := long_division_two hhigh hlow
  rwa [Nat.zero_mul, Nat.zero_add] at hdivided

theorem div128By32_eq (hi lo : UInt64) {divisor : UInt32} (hdivisor : 0 < divisor.toNat) :
    (div128By32 hi lo divisor).1.toNat * 2 ^ 64 + (div128By32 hi lo divisor).2.1.toNat =
      (hi.toNat * 2 ^ 64 + lo.toNat) / divisor.toNat := by
  obtain ⟨hdivided, hlt⟩ := (exactSteps hi lo hdivisor).divided
  rw [hdivided, Nat.mul_add_div hdivisor, Nat.div_eq_of_lt hlt, Nat.add_zero]

/-- Products of two words and quotients by half a word are exact, and no step on the way loses
anything. -/
theorem mul128_div128By32_exact :
    (∀ x y : UInt64,
      (mul128 x y).1.toNat * 2 ^ 64 + (mul128 x y).2.toNat = x.toNat * y.toNat ∧
        hiDword x * hiDword y ≤ (mul128 x y).1) ∧
      ∀ (hi lo : UInt64) (divisor : UInt32), divisor ≠ 0 →
        (div128By32 hi lo divisor).1.toNat * 2 ^ 64 + (div128By32 hi lo divisor).2.1.toNat =
            (hi.toNat * 2 ^ 64 + lo.toNat) / divisor.toNat ∧
          (div128By32 hi lo divisor).2.2.toNat =
            (hi.toNat * 2 ^ 64 + lo.toNat) % divisor.toNat ∧
          ExactSteps hi lo divisor := by
  refine ⟨fun x y => ⟨mul128_eq x y, hiDword_mul_le_mul128 x y⟩, fun hi lo divisor hne => ?_⟩
  have hpos : 0 < divisor.toNat :=
    Nat.pos_of_ne_zero fun hzero => hne (UInt32.toNat_inj.mp hzero)
  have hsteps := exactSteps hi lo hpos
  obtain ⟨hdivided, hlt⟩ := hsteps.divided
  refine ⟨div128By32_eq hi lo hpos, ?_, hsteps⟩
  rw [hdivided, Nat.mul_add_mod, Nat.mod_eq_of_lt hlt]

/-- A product with both carries, and a dividend whose digits are all below the divisor. -/
theorem mul128_div128By32_of_words :
    mul128 0xf1f2f3f4f5f6f7f8 0xf9f0fafbfcfdfeff = (0xec39104363716e59, 0x52118e5f3b211008) ∧
      div128By32 0x5AD629E441074F28 0x0DBCAB2B231081F1 0xFE735CD6 =
        (0x000000005B63C274, 0x9084FC024383E48C, 0xB9C924E9) ∧
      ExactSteps 0x5AD629E441074F28 0x0DBCAB2B231081F1 0xFE735CD6 :=
  ⟨by decide +kernel, by decide +kernel,
    (mul128_div128By32_exact.2 0x5AD629E441074F28 0x0DBCAB2B231081F1 0xFE735CD6 (by decide)).2.2⟩

/-- The reward of a block of the given size, `m` being the size up to which nothing is taken
off. -/
def exactReward (base m size : Nat) : Nat :=
  if size ≤ m then base else base * size * (2 * m - size) / (m * m)

theorem size_mul_le_square {m size : Nat} (hle : size ≤ 2 * m) : size * (2 * m - size) ≤ m * m := by
  obtain ⟨rest, hrest⟩ := Nat.exists_eq_add_of_le hle
  rw [hrest, Nat.add_sub_cancel_left]
  nlinarith [sq_nonneg ((size : Int) - rest)]

theorem size_mul_lt_square {m size : Nat} (hlt : m < size) (hle : size ≤ 2 * m) :
    size * (2 * m - size) < m * m := by
  obtain ⟨excess, rfl⟩ := Nat.exists_eq_add_of_lt hlt
  obtain ⟨rest, hrest⟩ := Nat.exists_eq_add_of_le hle
  have hm : m = excess + 1 + rest := by omega
  rw [hrest, Nat.add_sub_cancel_left, hm]
  nlinarith

theorem exactReward_le (base : Nat) {m size : Nat} (hle : size ≤ 2 * m) :
    exactReward base m size ≤ base := by
  rw [exactReward]
  split_ifs with hm
  · exact Nat.le_refl base
  · refine Nat.div_le_of_le_mul ?_
    rw [Nat.mul_assoc, Nat.mul_comm (m * m)]
    exact Nat.mul_le_mul_left base (size_mul_le_square hle)

theorem exactReward_anti (base : Nat) {m size size' : Nat} (hsize : size ≤ size')
    (hle : size' ≤ 2 * m) : exactReward base m size' ≤ exactReward base m size := by
  by_cases hm : size ≤ m
  · rw [exactReward.eq_def base m size, if_pos hm]
    exact exactReward_le base hle
  · rw [exactReward, exactReward, if_neg hm, if_neg (by omega)]
    refine Nat.div_le_div_right ?_
    rw [Nat.mul_assoc, Nat.mul_assoc]
    refine Nat.mul_le_mul_left base ?_
    obtain ⟨more, rfl⟩ := Nat.exists_eq_add_of_le hsize
    obtain ⟨rest, hrest⟩ := Nat.exists_eq_add_of_le hle
    have hfirst : 2 * m - size = more + rest := by omega
    rw [hfirst, hrest, Nat.add_sub_cancel_left]
    nlinarith

/-- The size up to which a block gets the full reward. -/
def fullRewardSize (medianSize : UInt64) : UInt64 :=
  if medianSize < cryptonoteBlockGrantedFullRewardZone then cryptonoteBlockGrantedFullRewardZone
  else medianSize

theorem toNat_fullRewardSize (medianSize : UInt64) :
    (fullRewardSize medianSize).toNat =
      max medianSize.toNat cryptonoteBlockGrantedFullRewardZone.toNat := by
  rw [fullRewardSize]
  split_ifs with hlt
  · rw [UInt64.lt_iff_toNat_lt] at hlt
    omega
  · rw [UInt64.lt_iff_toNat_lt] at hlt
    omega

theorem toNat_two_mul {m : UInt64} (hm : m.toNat < 2 ^ 32) : (2 * m).toNat = 2 * m.toNat := by
  rw [UInt64.toNat_mul]
  change 2 * m.toNat % 2 ^ 64 = _
  omega

/-- Dividing twice by `m` is dividing once by its square, and the result is below the base
reward. -/
theorem reducedReward (base : UInt64) {m size : UInt64} (hm : m.toNat < 2 ^ 32) (hlt : m < size)
    (hle : size.toNat ≤ 2 * m.toNat) :
    let product := mul128 base (size * (2 * m - size))
    let first := div128By32 product.1 product.2 m.toUInt32
    let second := div128By32 first.1 first.2.1 m.toUInt32
    second.1 = 0 ∧ second.2.1.toNat = exactReward base.toNat m.toNat size.toNat ∧
      (second.2.1 < base ∨ base = 0) := by
  intro product first second
  rw [UInt64.lt_iff_toNat_lt] at hlt
  have hdivisor : m.toUInt32.toNat = m.toNat := by
    rw [UInt64.toNat_toUInt32, Nat.mod_eq_of_lt hm]
  have hpos : 0 < m.toUInt32.toNat := by omega
  have htwice := toNat_two_mul hm
  have hrest : (2 * m - size).toNat = 2 * m.toNat - size.toNat := by
    rw [UInt64.toNat_sub_of_le _ _ (by rwa [UInt64.le_iff_toNat_le, htwice]), htwice]
  have hfactor : (size * (2 * m - size)).toNat = size.toNat * (2 * m.toNat - size.toNat) := by
    have hsquare : m.toNat * m.toNat < 2 ^ 32 * 2 ^ 32 := Nat.mul_lt_mul'' hm hm
    have hfits : size.toNat * (2 * m - size).toNat < 2 ^ 64 := by
      rw [hrest]
      exact (size_mul_le_square hle).trans_lt hsquare
    rw [toNat_mul_of_lt hfits, hrest]
  have hexact : exactReward base.toNat m.toNat size.toNat =
      base.toNat * (size.toNat * (2 * m.toNat - size.toNat)) / (m.toNat * m.toNat) := by
    rw [exactReward, if_neg (Nat.not_le.mpr hlt), Nat.mul_assoc]
  have hvalue : second.1.toNat * 2 ^ 64 + second.2.1.toNat =
      exactReward base.toNat m.toNat size.toNat := by
    rw [div128By32_eq first.1 first.2.1 hpos, div128By32_eq product.1 product.2 hpos,
      mul128_eq base (size * (2 * m - size)), hfactor, hdivisor, Nat.div_div_eq_div_mul, hexact]
  have hbound := exactReward_le base.toNat hle
  have hbase := base.toNat_lt
  refine ⟨UInt64.toNat_inj.mp ?_, by omega, ?_⟩
  · rw [UInt64.toNat_zero]
    omega
  · rcases Nat.eq_zero_or_pos base.toNat with hzero | hbasepos
    · exact Or.inr (UInt64.toNat_inj.mp hzero)
    · have hless : exactReward base.toNat m.toNat size.toNat < base.toNat := by
        rw [hexact]
        refine Nat.div_lt_of_lt_mul ?_
        rw [Nat.mul_comm (m.toNat * m.toNat)]
        exact Nat.mul_lt_mul_of_pos_left (size_mul_lt_square hlt hle) hbasepos
      rw [UInt64.lt_iff_toNat_lt]
      omega

theorem getBlockReward_eq (cfg : Config) (height : Nat) {medianSize size : UInt64}
    (hmedian : medianSize.toNat < 2 ^ 32 - 1) (hsize : size.toNat < 2 ^ 32 - 1) :
    (getBlockReward cfg medianSize size height).map UInt64.toNat =
      let m := max medianSize.toNat cryptonoteBlockGrantedFullRewardZone.toNat
      if 2 * m < size.toNat then none
      else some (exactReward (getBaseReward cfg height).toNat m size.toNat) := by
  have hfull := toNat_fullRewardSize medianSize
  have hzone : cryptonoteBlockGrantedFullRewardZone.toNat < 2 ^ 32 - 1 := by decide
  dsimp only
  rw [← hfull, getBlockReward]
  rw [fullRewardSize] at hfull ⊢
  dsimp only
  generalize (if medianSize < cryptonoteBlockGrantedFullRewardZone then
    cryptonoteBlockGrantedFullRewardZone else medianSize) = m at hfull ⊢
  generalize getBaseReward cfg height = base
  have hm : m.toNat < 2 ^ 32 - 1 := by omega
  have htwice := toNat_two_mul (show m.toNat < 2 ^ 32 by omega)
  by_cases hsmall : size ≤ m
  · have hle := UInt64.le_iff_toNat_le.mp hsmall
    rw [if_pos hsmall, if_neg (by omega), exactReward, if_pos hle]
    rfl
  have hlt : m < size := UInt64.not_le.mp hsmall
  rw [if_neg hsmall]
  by_cases hbig : 2 * m < size
  · rw [if_pos hbig, if_pos (by rwa [UInt64.lt_iff_toNat_lt, htwice] at hbig)]
    rfl
  have hle : size.toNat ≤ 2 * m.toNat := by
    rw [UInt64.lt_iff_toNat_lt, htwice] at hbig
    omega
  have hwords : ¬ ((0xffffffff : UInt64) ≤ m ∨ (0xffffffff : UInt64) ≤ size) := by
    rw [UInt64.le_iff_toNat_le, UInt64.le_iff_toNat_le]
    change ¬ (4294967295 ≤ m.toNat ∨ 4294967295 ≤ size.toNat)
    omega
  obtain ⟨hhigh, hlow, hless⟩ := reducedReward base (by omega) hlt hle
  rw [if_neg hbig, if_neg hwords, if_neg (Nat.not_lt.mpr hle), ← hlow]
  exact congrArg (Option.map UInt64.toNat)
    ((if_neg (not_not_intro hhigh)).trans (if_pos hless))

/-- The reward fails exactly for a block above twice the size that gets the full reward; it is
exact, never above the base reward and never larger for a larger block. -/
theorem getBlockReward_exact (cfg : Config) (height : Nat) {medianSize size : UInt64}
    (hmedian : medianSize.toNat < 2 ^ 32 - 1) (hsize : size.toNat < 2 ^ 32 - 1) :
    let m := max medianSize.toNat cryptonoteBlockGrantedFullRewardZone.toNat
    let base := (getBaseReward cfg height).toNat
    (getBlockReward cfg medianSize size height = none ↔ 2 * m < size.toNat) ∧
      (∀ reward, getBlockReward cfg medianSize size height = some reward →
        reward.toNat = (if size.toNat ≤ m then base
          else base * size.toNat * (2 * m - size.toNat) / (m * m)) ∧ reward.toNat ≤ base) ∧
      ∀ size' : UInt64, size.toNat ≤ size'.toNat → size'.toNat < 2 ^ 32 - 1 → ∀ reward reward',
        getBlockReward cfg medianSize size height = some reward →
        getBlockReward cfg medianSize size' height = some reward' → reward'.toNat ≤ reward.toNat := by
  intro m base
  have hvalue : ∀ {size reward : UInt64}, size.toNat < 2 ^ 32 - 1 →
      getBlockReward cfg medianSize size height = some reward →
      size.toNat ≤ 2 * m ∧ reward.toNat = exactReward base m size.toNat := by
    intro size reward hsize hreward
    have heq := getBlockReward_eq cfg height hmedian hsize
    rw [hreward, Option.map_some] at heq
    dsimp only at heq
    split_ifs at heq with hbig
    exact ⟨Nat.not_lt.mp hbig, Option.some.inj heq⟩
  refine ⟨?_, fun reward hreward => ?_, fun size' hle hsize' reward reward' hreward hreward' => ?_⟩
  · have heq := getBlockReward_eq cfg height hmedian hsize
    rw [← Option.map_eq_none_iff (f := UInt64.toNat), heq]
    dsimp only
    by_cases hbig : 2 * m < size.toNat
    · rw [if_pos hbig]
      exact iff_of_true rfl hbig
    · rw [if_neg hbig]
      exact iff_of_false (Option.some_ne_none _) hbig
  · obtain ⟨hle, heq⟩ := hvalue hsize hreward
    exact ⟨heq, heq ▸ exactReward_le base hle⟩
  · obtain ⟨-, heq⟩ := hvalue hsize hreward
    obtain ⟨hle', heq'⟩ := hvalue hsize' hreward'
    rw [heq, heq']
    exact exactReward_anti base hle hle'

theorem getBlockReward_exact_of_large_block :
    (10000 : UInt64).toNat < 2 ^ 32 - 1 ∧ (20001 : UInt64).toNat < 2 ^ 32 - 1 ∧
      ∀ cfg height, getBlockReward cfg 10000 20001 height = none ∧
        ∃ reward, getBlockReward cfg 10000 15000 height = some reward ∧
          reward.toNat = (getBaseReward cfg height).toNat * 15000 * 5000 / (10000 * 10000) := by
  have hmedian : (10000 : UInt64).toNat < 2 ^ 32 - 1 := by decide
  have hsize : (20001 : UInt64).toNat < 2 ^ 32 - 1 := by decide
  refine ⟨hmedian, hsize, fun cfg height =>
    ⟨(getBlockReward_exact cfg height hmedian hsize).1.mpr (by decide), ?_⟩⟩
  obtain ⟨hnone, hvalue, -⟩ := @getBlockReward_exact cfg height _ 15000 hmedian (by decide)
  cases hreward : getBlockReward cfg 10000 15000 height with
  | none => exact absurd (hnone.mp hreward) (by decide)
  | some reward => exact ⟨reward, rfl, (hvalue reward hreward).1⟩

end Pebblecoin
