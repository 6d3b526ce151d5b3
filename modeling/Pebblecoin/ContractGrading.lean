import Pebblecoin.Crypto
import Pebblecoin.Wire.Codec

/-!
Grades and fees of contracts, in units of `gradeScaleMax`.
-/

namespace Pebblecoin

open Wire

def gradeScaleMax : UInt32 := 1000000000

/-- The fee is rounded up so that rounding creates no coins; the loop of the
source is cut off after as many rounds as there are coins. -/
def roundFeeUp (gradedAmount feeScale : Nat) : (rounds : Nat) → (fee : Nat) → Nat
  | 0, fee => fee
  | rounds + 1, fee =>
    if 0 < feeScale ∧ fee * gradeScaleMax.toNat / feeScale < gradedAmount then
      roundFeeUp gradedAmount feeScale rounds (fee + 1)
    else fee

def gradeAmount (fullAmount : UInt64) (grade feeScale : UInt32) : UInt64 :=
  let gradedAmount := fullAmount.toNat * grade.toNat / gradeScaleMax.toNat
  let fee := gradedAmount * feeScale.toNat / gradeScaleMax.toNat
  UInt64.ofNat (gradedAmount - roundFeeUp gradedAmount feeScale.toNat gradedAmount fee)

def gradeContractAmount (contractAmount : UInt64) (grade feeScale : UInt32) : UInt64 :=
  gradeAmount contractAmount grade feeScale

/-- The backing coins get the other side of the contract. -/
def gradeBackingAmount (lockedAmount : UInt64) (grade feeScale : UInt32) : UInt64 :=
  gradeAmount lockedAmount (gradeScaleMax - grade) feeScale

def calculateTotalFee (totalContractCoins : UInt64) (feeScale : UInt32) : UInt64 :=
  UInt64.ofNat (totalContractCoins.toNat * feeScale.toNat / gradeScaleMax.toNat)

def TxinRemint.getPrefixHash (crypto : Crypto) (inp : TxinRemint) : Hash :=
  crypto.cnFastHash ("txin_remint sig".toUTF8.toList ++ Codec.encodeLE 8 inp.currency.toNat ++
    Codec.encodeLE 8 inp.amount.toNat ++ inp.newRemintKey.bytes)

def TxinGradeContract.getPrefixHash (crypto : Crypto) (inp : TxinGradeContract) : Hash :=
  crypto.cnFastHash ("txin_grade_contract sig".toUTF8.toList ++
    Codec.encodeLE 8 inp.contract.toNat ++ Codec.encodeLE 4 inp.grade.toNat ++
    (inp.feeAmounts.toList.map fun item =>
      Codec.encodeLE 8 item.1.toNat ++ Codec.encodeLE 8 item.2.toNat).flatten)

end Pebblecoin
