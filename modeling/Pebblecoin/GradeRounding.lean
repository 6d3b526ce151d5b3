import Mathlib.Tactic.Ring
import Pebblecoin.ContractGrading

/-!
How much of the coins of a contract gets lost by rounding when they are graded.
-/

namespace Pebblecoin

theorem mul_feeScale_le_roundFeeUp {gradedAmount feeScale : Nat}
    (hscale : feeScale ≤ gradeScaleMax.toNat) {rounds fee : Nat}
    (hrounds : gradedAmount ≤ rounds + fee) :
    gradedAmount * feeScale ≤
      roundFeeUp gradedAmount feeScale rounds fee * gradeScaleMax.toNat := by
  induction rounds generalizing fee with
  | zero =>
    rw [Nat.zero_add] at hrounds
    exact Nat.mul_le_mul hrounds hscale
  | succ rounds ih =>
    rw [roundFeeUp]
    split_ifs with hmore
    · exact ih (by omega)
    · rcases Nat.eq_zero_or_pos feeScale with rfl | hpos
      · simp
      · have hdone : gradedAmount ≤ fee * gradeScaleMax.toNat / feeScale := by
          by_contra hlt
          exact hmore ⟨hpos, by omega⟩
        exact (Nat.le_div_iff_mul_le hpos).mp hdone

theorem toNat_gradeAmount_le (fullAmount : UInt64) (grade : UInt32) {feeScale : UInt32}
    (hscale : feeScale ≤ gradeScaleMax) :
    gradeScaleMax.toNat * gradeScaleMax.toNat * (gradeAmount fullAmount grade feeScale).toNat ≤
      fullAmount.toNat * grade.toNat * (gradeScaleMax.toNat - feeScale.toNat) := by
  have hscale' : feeScale.toNat ≤ gradeScaleMax.toNat := UInt32.le_iff_toNat_le.mp hscale
  rw [gradeAmount]
  generalize hgraded : fullAmount.toNat * grade.toNat / gradeScaleMax.toNat = graded
  generalize hfee : roundFeeUp graded feeScale.toNat graded
    (graded * feeScale.toNat / gradeScaleMax.toNat) = fee
  have hround : graded * feeScale.toNat ≤ fee * gradeScaleMax.toNat :=
    hfee ▸ mul_feeScale_le_roundFeeUp hscale' (Nat.le_add_right _ _)
  have hfloor : graded * gradeScaleMax.toNat ≤ fullAmount.toNat * grade.toNat :=
    hgraded ▸ Nat.div_mul_le_self _ _
  have hleft : (UInt64.ofNat (graded - fee)).toNat ≤ graded - fee := by
    rw [UInt64.toNat_ofNat']
    exact Nat.mod_le _ _
  have hkept : gradeScaleMax.toNat * (graded - fee) ≤
      graded * (gradeScaleMax.toNat - feeScale.toNat) := by
    rw [Nat.mul_sub, Nat.mul_sub, Nat.mul_comm _ graded]
    exact Nat.sub_le_sub_left (by rwa [Nat.mul_comm gradeScaleMax.toNat fee]) _
  calc gradeScaleMax.toNat * gradeScaleMax.toNat * (UInt64.ofNat (graded - fee)).toNat
      ≤ gradeScaleMax.toNat * gradeScaleMax.toNat * (graded - fee) := Nat.mul_le_mul_left _ hleft
    _ = gradeScaleMax.toNat * (gradeScaleMax.toNat * (graded - fee)) := Nat.mul_assoc _ _ _
    _ ≤ gradeScaleMax.toNat * (graded * (gradeScaleMax.toNat - feeScale.toNat)) :=
        Nat.mul_le_mul_left _ hkept
    _ = graded * gradeScaleMax.toNat * (gradeScaleMax.toNat - feeScale.toNat) := by
        rw [← Nat.mul_assoc, Nat.mul_comm gradeScaleMax.toNat graded]
    _ ≤ _ := Nat.mul_le_mul_right _ hfloor

theorem toNat_calculateTotalFee_le (total : UInt64) (feeScale : UInt32) :
    gradeScaleMax.toNat * (calculateTotalFee total feeScale).toNat ≤
      feeScale.toNat * total.toNat := by
  rw [calculateTotalFee, UInt64.toNat_ofNat', Nat.mul_comm feeScale.toNat]
  exact (Nat.mul_le_mul_left _ (Nat.mod_le _ _)).trans (Nat.mul_div_le _ _)

/-- How often the body of the loop that rounds a fee up is run. -/
def feeRounds (gradedAmount feeScale : Nat) : (rounds : Nat) → (fee : Nat) → Nat
  | 0, _ => 0
  | rounds + 1, fee =>
    if 0 < feeScale ∧ fee * gradeScaleMax.toNat / feeScale < gradedAmount then
      feeRounds gradedAmount feeScale rounds (fee + 1) + 1
    else 0

theorem roundFeeUp_eq_add (gradedAmount feeScale rounds fee : Nat) :
    roundFeeUp gradedAmount feeScale rounds fee =
      fee + feeRounds gradedAmount feeScale rounds fee := by
  induction rounds generalizing fee with
  | zero => rfl
  | succ rounds ih =>
    rw [roundFeeUp, feeRounds]
    split_ifs
    · rw [ih]
      omega
    · rfl

theorem feeRounds_eq_zero {gradedAmount feeScale fee : Nat} (rounds : Nat)
    (hfee : gradedAmount * feeScale ≤ fee * gradeScaleMax.toNat) :
    feeRounds gradedAmount feeScale rounds fee = 0 := by
  cases rounds with
  | zero => rfl
  | succ rounds =>
    rw [feeRounds, if_neg]
    rintro ⟨hpos, hlt⟩
    exact absurd ((Nat.le_div_iff_mul_le hpos).mpr hfee) (Nat.not_le.mpr hlt)

theorem gradeScaleMax_pos : 0 < gradeScaleMax.toNat := by decide

theorem feeRounds_le_one (gradedAmount feeScale rounds : Nat) :
    feeRounds gradedAmount feeScale rounds (gradedAmount * feeScale / gradeScaleMax.toNat) ≤ 1 := by
  cases rounds with
  | zero => exact Nat.zero_le 1
  | succ rounds =>
    rw [feeRounds]
    split_ifs
    · have hnext := Nat.lt_div_mul_add gradeScaleMax_pos (a := gradedAmount * feeScale)
      rw [feeRounds_eq_zero rounds]
      rw [Nat.succ_mul]
      exact hnext.le
    · exact Nat.zero_le 1

theorem roundFeeUp_mul_lt (gradedAmount feeScale rounds : Nat) :
    roundFeeUp gradedAmount feeScale rounds (gradedAmount * feeScale / gradeScaleMax.toNat) *
      gradeScaleMax.toNat < gradedAmount * feeScale + gradeScaleMax.toNat := by
  have hfloor := Nat.div_mul_le_self (gradedAmount * feeScale) gradeScaleMax.toNat
  generalize hfee : gradedAmount * feeScale / gradeScaleMax.toNat = fee at hfloor
  have hrounds : feeRounds gradedAmount feeScale rounds fee ≤ 1 := by
    rw [← hfee]
    exact feeRounds_le_one gradedAmount feeScale rounds
  rw [roundFeeUp_eq_add]
  by_cases hexact : gradedAmount * feeScale ≤ fee * gradeScaleMax.toNat
  · rw [feeRounds_eq_zero rounds hexact, Nat.add_zero]
    have hpos := gradeScaleMax_pos
    omega
  · calc (fee + feeRounds gradedAmount feeScale rounds fee) * gradeScaleMax.toNat
        ≤ (fee + 1) * gradeScaleMax.toNat := Nat.mul_le_mul_right _ (by omega)
      _ = fee * gradeScaleMax.toNat + gradeScaleMax.toNat := Nat.succ_mul _ _
      _ < gradedAmount * feeScale + gradeScaleMax.toNat := by omega

theorem lt_toNat_gradeAmount (fullAmount : UInt64) {grade feeScale : UInt32}
    (hgrade : grade ≤ gradeScaleMax) (hscale : feeScale ≤ gradeScaleMax) :
    fullAmount.toNat * grade.toNat * (gradeScaleMax.toNat - feeScale.toNat) <
      gradeScaleMax.toNat * gradeScaleMax.toNat *
        ((gradeAmount fullAmount grade feeScale).toNat + 2) := by
  have hgrade' : grade.toNat ≤ gradeScaleMax.toNat := UInt32.le_iff_toNat_le.mp hgrade
  have hscale' : feeScale.toNat ≤ gradeScaleMax.toNat := UInt32.le_iff_toNat_le.mp hscale
  have hgraded := Nat.lt_div_mul_add gradeScaleMax_pos (a := fullAmount.toNat * grade.toNat)
  have hbound : fullAmount.toNat * grade.toNat / gradeScaleMax.toNat ≤ fullAmount.toNat :=
    Nat.div_le_of_le_mul (by rw [Nat.mul_comm]; exact Nat.mul_le_mul_right _ hgrade')
  rw [gradeAmount]
  generalize fullAmount.toNat * grade.toNat / gradeScaleMax.toNat = graded at hgraded hbound ⊢
  have hround := roundFeeUp_mul_lt graded feeScale.toNat graded
  generalize roundFeeUp graded feeScale.toNat graded
    (graded * feeScale.toNat / gradeScaleMax.toNat) = fee at hround ⊢
  have hleft : (UInt64.ofNat (graded - fee)).toNat = graded - fee := by
    have hword := fullAmount.toNat_lt
    rw [UInt64.toNat_ofNat']
    exact Nat.mod_eq_of_lt (by omega)
  have hkept : graded * (gradeScaleMax.toNat - feeScale.toNat) <
      gradeScaleMax.toNat * (graded - fee + 1) := by
    have hsub : gradeScaleMax.toNat * graded ≤
        gradeScaleMax.toNat * (graded - fee) + fee * gradeScaleMax.toNat := by
      rw [Nat.mul_comm fee, ← Nat.mul_add]
      exact Nat.mul_le_mul_left _ (by omega)
    have hpos := gradeScaleMax_pos
    rw [Nat.mul_sub, Nat.mul_succ, Nat.mul_comm graded gradeScaleMax.toNat]
    omega
  rw [hleft]
  calc fullAmount.toNat * grade.toNat * (gradeScaleMax.toNat - feeScale.toNat)
      ≤ (graded * gradeScaleMax.toNat + gradeScaleMax.toNat) *
          (gradeScaleMax.toNat - feeScale.toNat) := Nat.mul_le_mul_right _ hgraded.le
    _ = gradeScaleMax.toNat * (graded * (gradeScaleMax.toNat - feeScale.toNat)) +
          gradeScaleMax.toNat * (gradeScaleMax.toNat - feeScale.toNat) := by
        rw [Nat.add_mul, Nat.mul_comm graded, Nat.mul_assoc]
    _ < gradeScaleMax.toNat * (gradeScaleMax.toNat * (graded - fee + 1)) +
          gradeScaleMax.toNat * gradeScaleMax.toNat :=
        Nat.add_lt_add_of_lt_of_le (Nat.mul_lt_mul_of_pos_left hkept gradeScaleMax_pos)
          (Nat.mul_le_mul_left _ (Nat.sub_le _ _))
    _ = gradeScaleMax.toNat * gradeScaleMax.toNat * (graded - fee + 2) := by
        rw [← Nat.mul_assoc, ← Nat.mul_succ]

theorem lt_toNat_calculateTotalFee (total : UInt64) {feeScale : UInt32}
    (hscale : feeScale ≤ gradeScaleMax) :
    total.toNat * feeScale.toNat <
      gradeScaleMax.toNat * ((calculateTotalFee total feeScale).toNat + 1) := by
  have hscale' : feeScale.toNat ≤ gradeScaleMax.toNat := UInt32.le_iff_toNat_le.mp hscale
  have hbound : total.toNat * feeScale.toNat / gradeScaleMax.toNat ≤ total.toNat :=
    Nat.div_le_of_le_mul (by rw [Nat.mul_comm]; exact Nat.mul_le_mul_right _ hscale')
  have hword := total.toNat_lt
  rw [calculateTotalFee, UInt64.toNat_ofNat', Nat.mod_eq_of_lt (by omega), Nat.mul_succ,
    Nat.mul_comm gradeScaleMax.toNat]
  exact Nat.lt_div_mul_add gradeScaleMax_pos

/-- What a list of coins is worth after grading. -/
def gradedSum (grading : UInt64 → UInt32 → UInt32 → UInt64) (grade feeScale : UInt32)
    (coins : List UInt64) : Nat :=
  (coins.map fun coin => (grading coin grade feeScale).toNat).sum

def coinSum (coins : List UInt64) : Nat := (coins.map UInt64.toNat).sum

theorem gradedSum_mul_le (grade : UInt32) {feeScale : UInt32} (hscale : feeScale ≤ gradeScaleMax)
    (coins : List UInt64) :
    gradeScaleMax.toNat * gradeScaleMax.toNat * gradedSum gradeAmount grade feeScale coins ≤
      coinSum coins * grade.toNat * (gradeScaleMax.toNat - feeScale.toNat) := by
  induction coins with
  | nil => simp [gradedSum, coinSum]
  | cons coin coins ih =>
    have hcoin := toNat_gradeAmount_le coin grade hscale
    simp only [gradedSum, coinSum, List.map_cons, List.sum_cons, Nat.mul_add, Nat.add_mul] at ih ⊢
    omega

theorem le_gradedSum_mul {grade feeScale : UInt32} (hgrade : grade ≤ gradeScaleMax)
    (hscale : feeScale ≤ gradeScaleMax) (coins : List UInt64) :
    coinSum coins * grade.toNat * (gradeScaleMax.toNat - feeScale.toNat) ≤
      gradeScaleMax.toNat * gradeScaleMax.toNat *
        (gradedSum gradeAmount grade feeScale coins + 2 * coins.length) := by
  induction coins with
  | nil => simp [coinSum]
  | cons coin coins ih =>
    have hcoin := lt_toNat_gradeAmount coin hgrade hscale
    simp only [gradedSum, coinSum, List.map_cons, List.sum_cons, List.length_cons, Nat.mul_add,
      Nat.add_mul] at ih hcoin ⊢
    omega

theorem shares_eq (total grade feeScale scale : Nat) (hgrade : grade ≤ scale)
    (hscale : feeScale ≤ scale) :
    total * grade * (scale - feeScale) + total * (scale - grade) * (scale - feeScale) +
      scale * (total * feeScale) = scale * scale * total := by
  obtain ⟨rest, rfl⟩ := Nat.exists_eq_add_of_le hgrade
  obtain ⟨kept, hkept⟩ := Nat.exists_eq_add_of_le hscale
  rw [Nat.add_sub_cancel_left, hkept, Nat.add_sub_cancel_left, ← hkept]
  calc total * grade * kept + total * rest * kept + (grade + rest) * (total * feeScale)
      = (grade + rest) * (feeScale + kept) * total := by ring
    _ = (grade + rest) * (grade + rest) * total := by rw [← hkept]

/-- Grading all coins of a contract and paying its fee creates no coins and loses at most two
for each coin that is graded. -/
theorem graded_coins_near_total (total : UInt64) {grade feeScale : UInt32}
    (hgrade : grade ≤ gradeScaleMax) (hscale : feeScale ≤ gradeScaleMax)
    {contractCoins backingCoins : List UInt64} (hcontract : coinSum contractCoins = total.toNat)
    (hbacking : coinSum backingCoins = total.toNat) :
    gradedSum gradeContractAmount grade feeScale contractCoins +
          gradedSum gradeBackingAmount grade feeScale backingCoins +
          (calculateTotalFee total feeScale).toNat ≤ total.toNat ∧
      total.toNat ≤ gradedSum gradeContractAmount grade feeScale contractCoins +
          gradedSum gradeBackingAmount grade feeScale backingCoins +
          (calculateTotalFee total feeScale).toNat +
        2 * (contractCoins.length + backingCoins.length) ∧
      ∀ gradedAmount rounds,
        feeRounds gradedAmount feeScale.toNat rounds
          (gradedAmount * feeScale.toNat / gradeScaleMax.toNat) ≤ 1 := by
  have hgrade' : grade.toNat ≤ gradeScaleMax.toNat := UInt32.le_iff_toNat_le.mp hgrade
  have hscale' : feeScale.toNat ≤ gradeScaleMax.toNat := UInt32.le_iff_toNat_le.mp hscale
  have hother : (gradeScaleMax - grade).toNat = gradeScaleMax.toNat - grade.toNat :=
    UInt32.toNat_sub_of_le _ _ hgrade
  have hother' : gradeScaleMax - grade ≤ gradeScaleMax := by
    rw [UInt32.le_iff_toNat_le, hother]
    exact Nat.sub_le _ _
  have hbacked : gradedSum gradeBackingAmount grade feeScale backingCoins =
      gradedSum gradeAmount (gradeScaleMax - grade) feeScale backingCoins := by
    simp only [gradedSum, gradeBackingAmount]
  have hcoins : gradedSum gradeContractAmount grade feeScale contractCoins =
      gradedSum gradeAmount grade feeScale contractCoins := by
    simp only [gradedSum, gradeContractAmount]
  have hshares := shares_eq total.toNat grade.toNat feeScale.toNat gradeScaleMax.toNat hgrade' hscale'
  have hsquare : 0 < gradeScaleMax.toNat * gradeScaleMax.toNat :=
    Nat.mul_pos gradeScaleMax_pos gradeScaleMax_pos
  rw [hbacked, hcoins]
  refine ⟨?_, ?_, fun gradedAmount rounds => feeRounds_le_one gradedAmount feeScale.toNat rounds⟩
  · have hleft := gradedSum_mul_le grade hscale contractCoins
    have hright := gradedSum_mul_le (gradeScaleMax - grade) hscale backingCoins
    have hfee := Nat.mul_le_mul_left gradeScaleMax.toNat (toNat_calculateTotalFee_le total feeScale)
    rw [hcontract] at hleft
    rw [hbacking, hother] at hright
    rw [← Nat.mul_assoc, Nat.mul_comm feeScale.toNat] at hfee
    refine Nat.le_of_mul_le_mul_left ?_ hsquare
    rw [Nat.mul_add, Nat.mul_add]
    omega
  · have hleft := le_gradedSum_mul hgrade hscale contractCoins
    have hright := le_gradedSum_mul hother' hscale backingCoins
    have hfee := Nat.mul_lt_mul_of_pos_left (lt_toNat_calculateTotalFee total hscale) gradeScaleMax_pos
    rw [hcontract] at hleft
    rw [hbacking, hother] at hright
    rw [← Nat.mul_assoc gradeScaleMax.toNat gradeScaleMax.toNat] at hfee
    refine Nat.le_of_lt_succ (Nat.lt_of_mul_lt_mul_left (a := gradeScaleMax.toNat * gradeScaleMax.toNat) ?_)
    simp only [Nat.mul_add, Nat.succ_eq_add_one] at hleft hright hfee ⊢
    omega

theorem graded_coins_near_total_of_ten :
    coinSum [3, 7] = 10 ∧ coinSum [10] = 10 ∧
      10 ≤ gradedSum gradeContractAmount 500000000 1000 [3, 7] +
        gradedSum gradeBackingAmount 500000000 1000 [10] +
        (calculateTotalFee 10 1000).toNat + 2 * 3 := by
  have hcontract : coinSum [3, 7] = (10 : UInt64).toNat := by decide
  have hbacking : coinSum [10] = (10 : UInt64).toNat := by decide
  exact ⟨hcontract, hbacking,
    (graded_coins_near_total 10 (by decide) (by decide) hcontract hbacking).2.1⟩

end Pebblecoin
