import Pebblecoin.TopDelegates
import Pebblecoin.ValidateTx

/-!
The checks of a block that do not depend on its transactions, and the check of
its reward.
-/

namespace Pebblecoin

/-- A signed or cached hash is taken over, whatever the height it was computed for. -/
def getBlockLonghash (crypto : Crypto) (hashCache : Hash → Option Hash) (b : Block) (height : Nat) :
    Except Thrown (Option Hash) :=
  if isPosBlock b then .ok none
  else
    match getBlockHashingBlob crypto b false with
    | none => .error .noHashingBlob
    | some bd =>
      .ok ((hashCache ((getBlockHash crypto b).getD nullHash)).or
        (crypto.boulderhash (if boulderhash2SwitchBlock ≤ height then 2 else 1) bd))

inductive ProofCheck where
  | passed
  | failed
  | missingLonghash
deriving DecidableEq, Repr

def ProofCheck.ofBool (passed : Bool) : ProofCheck := if passed then .passed else .failed

@[simp] theorem ProofCheck.ofBool_eq_passed_iff {passed : Bool} :
    ProofCheck.ofBool passed = .passed ↔ passed = true := by
  cases passed <;> simp [ofBool]

def prevalidateMinerTransaction (b : Block) (height : Nat) : Bool :=
  match b.minerTx.vin with
  | [.gen h] =>
    decide (h.toNat = height) &&
      decide (b.minerTx.unlockTime.toNat = height + cryptonoteMinedMoneyUnlockWindow) &&
      b.minerTx.checkOutputs.isSome
  | _ => false

namespace Storage

section Checks

variable (env : Env) (now : UInt64) (s : Storage)

/-- Delegate blocks keep a minimum distance from their predecessor; every block
is at least as late as the median of a full window. -/
def checkBlockTimestamp (timestamps : List UInt64) (b : Block) : Except Thrown Bool := do
  let spaced ←
    if env.config.inPosEra (getBlockHeight b).toNat then do
      let prevBl ← s.getBlockByHash b.prevId
      .ok (decide (prevBl.timestamp + cryptonoteDposBlockMinimumBlockSpacing ≤ b.timestamp))
    else .ok true
  if !spaced then .ok false
  else if timestamps.length < blockchainTimestampCheckWindow then .ok true
  else .ok (decide (median timestamps ≤ b.timestamp))

def futureTimeLimit (b : Block) : UInt64 :=
  if env.config.inPosEra (getBlockHeight b).toNat then cryptonoteDposBlockFutureTimeLimit
  else cryptonoteBlockFutureTimeLimit

def lastTimestamps : List UInt64 :=
  (s.entries.drop (s.entries.length - blockchainTimestampCheckWindow)).map (·.timestamp)

def checkBlockTimestampMain (b : Block) : Except Thrown Bool :=
  if now + futureTimeLimit env b < b.timestamp then .ok false
  else s.checkBlockTimestamp env s.lastTimestamps b

def checkBlockType (bl : Block) : Bool :=
  isPowBlock bl != env.config.inPosEra (getBlockHeight bl).toNat

/-- The last entries without the genesis block. -/
def difficultyEntries : List BlockchainEntry :=
  s.entries.drop (max 1 (s.entries.length - difficultyBlocksCount))

def getDifficultyForNextBlock : UInt64 :=
  if env.config.inPosEra s.entries.length then dposBlockDifficulty
  else
    nextDifficulty env.config s.entries.length (s.difficultyEntries.map (·.timestamp))
      (s.difficultyEntries.map (·.cumulativeDifficulty))

def checkPowPos (bl : Block) (currentDiffic : UInt64) : Except Thrown ProofCheck :=
  if isPowBlock bl then do
    match ← getBlockLonghash env.crypto s.hashCache bl s.entries.length with
    | none => .ok .missingLonghash
    | some proofOfWork => .ok (.ofBool (checkHash proofOfWork currentDiffic))
  else
    match s.blocksByHash bl.prevId with
    | none => .ok .failed
    | some prevBlock => do
      match ← s.getSigningDelegate env prevBlock bl.timestamp with
      | none => .ok .failed
      | some signingDelegate =>
        .ok (.ofBool (decide (signingDelegate = bl.signingDelegateId) &&
          checkDposBlockSig env.crypto bl
            (s.ledger.delegates.get signingDelegate).publicAddress))

def getLastNBlocksSizes (count : Nat) : List UInt64 :=
  (s.entries.drop (s.entries.length - count)).map (·.blockCumulativeSize)

/-- The base reward, if the coinbase pays out exactly the reward with the fee. -/
def validateMinerTransaction (b : Block) (cumulativeBlockSize fee : UInt64) : Option UInt64 :=
  let moneyInUse := (b.minerTx.vout.map (·.amount)).sum
  match getBlockReward env.config (median (s.getLastNBlocksSizes cryptonoteRewardBlocksWindow))
      cumulativeBlockSize (getBlockHeight b).toNat with
  | none => none
  | some baseReward => if baseReward + fee = moneyInUse then some baseReward else none

def updateNextComulativeSizeLimit : Storage :=
  { s with
    currentBlockCumulSzLimit :=
      2 * max (median (s.getLastNBlocksSizes cryptonoteRewardBlocksWindow))
        cryptonoteBlockGrantedFullRewardZone }

end Checks

end Storage

end Pebblecoin
