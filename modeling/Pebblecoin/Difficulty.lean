import Pebblecoin.Config
import Pebblecoin.IntUtil
import Pebblecoin.Wire.Codec
import Mathlib.Data.UInt

/-!
Medians, the difficulty of the next block, the proof-of-work test and the block
reward.
-/

namespace Pebblecoin

/-- The middle of the sorted list; the mean of the two middle elements is taken
with 64-bit wrap-around. -/
def median (l : List UInt64) : UInt64 :=
  let v := l.insertionSort (· ≤ ·)
  let n := v.length / 2
  if v.length = 0 then 0
  else if v.length % 2 = 1 then v.getD n 0
  else (v.getD (n - 1) 0 + v.getD n 0) / 2

/-- The full product of two words: the low and the high word. -/
def mulWords (a b : UInt64) : UInt64 × UInt64 :=
  (UInt64.ofNat (a.toNat * b.toNat), UInt64.ofNat (a.toNat * b.toNat / 2 ^ 64))

def cadd (a b : UInt64) : Bool :=
  a + b < a

def cadc (a b : UInt64) (c : Bool) : Bool :=
  a + b < a || (c && a + b = 0xffffffffffffffff)

/-- Word `i` of a hash, lowest byte first. -/
def hashWord (hash : Hash) (i : Nat) : UInt64 :=
  UInt64.ofNat (Wire.Codec.decodeLE ((hash.bytes.drop (8 * i)).take 8))

/-- The highest word is tested first, then the carry of the product is followed
through the words. -/
def checkHash (hash : Hash) (difficulty : UInt64) : Bool :=
  let (top, high) := mulWords (hashWord hash 3) difficulty
  if high ≠ 0 then false
  else
    let (_, cur) := mulWords (hashWord hash 0) difficulty
    let (low, high) := mulWords (hashWord hash 1) difficulty
    let carry := cadd cur low
    let cur := high
    let (low, high) := mulWords (hashWord hash 2) difficulty
    let carry := cadc cur low carry
    !cadc high top carry

/-- Position of a 64-bit word among the signed integers. -/
def signedRank (x : UInt64) : Nat :=
  (x + 0x8000000000000000).toNat

/-- Gaps between neighbouring timestamps with their positions.  A backward gap
counts as zero from the second hash version on and is a negative number before. -/
def timespansIndices (height : Nat) (timestamps : List UInt64) : List (UInt64 × Nat) :=
  ((timestamps.zip timestamps.tail).map fun p =>
    if boulderhash2SwitchBlock ≤ height ∧ p.2 < p.1 then 0 else p.2 - p.1).zipIdx

def timespanLe (a b : UInt64 × Nat) : Bool :=
  signedRank a.1 < signedRank b.1 || (signedRank a.1 = signedRank b.1 && a.2 ≤ b.2)

/-- The gaps that are left after the cut, in order. -/
def keptTimespans (height : Nat) (timestamps : List UInt64) : List (UInt64 × Nat) :=
  let length := timestamps.length
  let timespans := (timespansIndices height timestamps).insertionSort (timespanLe · ·)
  let kept := difficultyWindow - 2 * difficultyCut
  let cutBegin := if length - 1 ≤ kept then 0 else (length - 1 - kept + 1) / 2
  let cutEnd := if length - 1 ≤ kept then length - 1 else cutBegin + kept
  (timespans.take cutEnd).drop cutBegin

/-- The difficulty that follows from the time and the work of the gaps that are kept. -/
def retarget (targetSeconds height count : Nat) (timeSpan totalWork : UInt64) : UInt64 :=
  let timeSpan := if timeSpan = 0 then 1 else timeSpan
  let product := totalWork.toNat * targetSeconds
  let low := UInt64.ofNat product
  let rawRes :=
    if 2 ^ 64 ≤ product ∨ low + timeSpan - 1 < low then 0 else (low + timeSpan - 1) / timeSpan
  let count := UInt64.ofNat count
  let lo := totalWork / 4 / count
  let hi := totalWork * 4 / count
  let res := if rawRes < lo then lo else if hi < rawRes then hi else rawRes
  let res :=
    if boulderhash2SwitchBlock ≤ height ∧
        height < boulderhash2SwitchBlock + boulderhash2SwitchEasyWindow then
      res * UInt64.ofNat boulderhash2SwitchEasyWindow /
        UInt64.ofNat (boulderhash2SwitchEasyWindow +
          14 * (boulderhash2SwitchBlock + boulderhash2SwitchEasyWindow - height))
    else res
  if res < 1 then 1 else res

/-- The difficulty for a target that the caller gives. -/
def nextDifficultyFor (targetSeconds height : Nat) (timestamps cumulativeDifficulties : List UInt64) :
    UInt64 :=
  let timestamps := timestamps.take difficultyWindow
  let cumulativeDifficulties := cumulativeDifficulties.take difficultyWindow
  if timestamps.length ≤ 1 then 1
  else
    let difficulties := (cumulativeDifficulties.zip cumulativeDifficulties.tail).map fun p =>
      p.2 - p.1
    let window := keptTimespans height timestamps
    retarget targetSeconds height difficulties.length (window.map Prod.fst).sum
      (window.map fun p => difficulties.getD p.2 0).sum

def nextDifficulty (cfg : Config) (height : Nat) (timestamps cumulativeDifficulties : List UInt64) :
    UInt64 :=
  nextDifficultyFor cfg.difficultyTarget height timestamps cumulativeDifficulties

def standardReward : Nat := 300 * coin.toNat

def warmupPeriodRewards : List Nat :=
  [1, standardReward / 10000, standardReward / 1000, standardReward / 100, standardReward / 10,
    standardReward]

def numRewardEras : Nat := 4

def getBaseReward (cfg : Config) (height : Nat) : UInt64 :=
  if height = 0 then 0
  else if cfg.inPosEra height then 0
  else if cfg.noRewardRamp then UInt64.ofNat standardReward
  else
    let totalWarmupPeriod := cfg.weekHeight * 3
    let warmupPeriodLength := totalWarmupPeriod / (warmupPeriodRewards.length - 1)
    if height < totalWarmupPeriod then
      let subperiod := height / warmupPeriodLength
      let heightInPeriod := height % warmupPeriodLength
      let startReward := warmupPeriodRewards.getD subperiod 0
      let endReward := warmupPeriodRewards.getD (subperiod + 1) 0
      UInt64.ofNat (startReward + (endReward - startReward) * heightInPeriod / warmupPeriodLength)
    else
      let rewardEra := height / (3 * cfg.yearHeight)
      if numRewardEras ≤ rewardEra then 0
      else UInt64.ofNat (standardReward - standardReward / (numRewardEras - 1) * rewardEra)

/-- The base reward, reduced for a block above the median size; none if the
block is too big. -/
def getBlockReward (cfg : Config) (medianSize currentBlockSize : UInt64) (height : Nat) :
    Option UInt64 :=
  let baseReward := getBaseReward cfg height
  let medianSize :=
    if medianSize < cryptonoteBlockGrantedFullRewardZone then cryptonoteBlockGrantedFullRewardZone
    else medianSize
  if currentBlockSize ≤ medianSize then some baseReward
  else if 2 * medianSize < currentBlockSize then none
  else if 0xffffffff ≤ medianSize ∨ 0xffffffff ≤ currentBlockSize then none
  else
    let (productHi, productLo) :=
      mul128 baseReward (currentBlockSize * (2 * medianSize - currentBlockSize))
    let (rewardHi, rewardLo, _) := div128By32 productHi productLo medianSize.toUInt32
    let (rewardHi, rewardLo, _) := div128By32 rewardHi rewardLo medianSize.toUInt32
    if rewardHi ≠ 0 then none
    else if rewardLo < baseReward ∨ baseReward = 0 then some rewardLo
    else none

end Pebblecoin
