import Pebblecoin.BlockChecks
import Pebblecoin.TxPool

/-!
Connecting a block to the main chain and disconnecting the last one.
-/

namespace Pebblecoin

open Containers

namespace Storage

section MainChain

variable (env : Env) (now : UInt64)

def purgeTransactionFromBlockchain (txId : Hash) (s : Storage) :
    Except Interrupted (Bool × Storage) :=
  match s.ledger.transactions txId with
  | none => .ok (false, s)
  | some entry =>
    match s.ledger.purgeTransactionData entry.tx.toTransactionPrefix true with
    | (false, ledger) => .ok (false, { s with ledger := ledger })
    | (true, ledger) => do
      let s := { s with ledger := ledger }
      -- a transaction that the pool refuses is lost
      let s ←
        if isCoinbase entry.tx.toTransactionPrefix then .ok s
        else (·.2) <$> s.returnToPool env now entry.tx
      let (res, outputs) :=
        Ledger.popOutputs entry.tx.toTransactionPrefix txId entry.tx.vout.reverse
          s.ledger.outputs
      .ok (res, { s with
        ledger := { s.ledger with
          outputs := outputs
          transactions := Function.update s.ledger.transactions txId none } })

/-- Every id is tried, whatever happened to the others. -/
def purgeTransactions : List Hash → Storage → Except Interrupted (Bool × Storage)
  | [], s => .ok (true, s)
  | txId :: rest, s => do
    let (r, s) ← s.purgeTransactionFromBlockchain env now txId
    let (res, s) ← purgeTransactions rest s
    .ok (r && res, s)

def purgeBlockDataFromBlockchain (bl : Block) (processedTxCount : Nat) (s : Storage) :
    Except Interrupted (Bool × Storage) :=
  if bl.txHashes.length < processedTxCount then .ok (false, s)
  else
    s.purgeTransactions env now ((bl.txHashes.take processedTxCount).reverse ++
      [(getTransactionHash env.crypto bl.minerTx).getD nullHash])

def addBlockAsInvalid (bent : BlockchainEntry) (bl : Block) (h : Hash) (s : Storage) :
    Bool × Storage :=
  if (s.invalidBlockEntries h).isSome then (false, s)
  else
    (true, { s with
      invalidBlockEntries := Function.update s.invalidBlockEntries h (some bent)
      blocksByHash := Function.update s.blocksByHash bent.hash (some bl) })

/-- The entry of a block that was not connected carries no sums. -/
def invalidEntry (bl : Block) (h : Hash) : BlockchainEntry :=
  ⟨h, (getBlockHeight bl).toNat, bl.timestamp, 0, 0, 0⟩

/-- Visit the inputs and enter the transaction. -/
def enterTransaction (tx : Transaction) (txId : Hash) (s : Storage) : Bool × Storage :=
  match s.ledger.addTransactionFromBlock env.crypto s.poppingBlock tx txId s.entries.length with
  | (.added, ledger) => (true, { s with ledger := ledger })
  | (.inputsFailed true, ledger) =>
    (false, { s with ledger := ledger, log := .applyVoteOverflow :: s.log })
  | (_, ledger) => (false, { s with ledger := ledger })

/-- The visitor hashes the prefix before it visits the first input. -/
def addTransactionFromBlock (tx : Transaction) (txId : Hash) (s : Storage) :
    Except Interrupted (Bool × Storage) :=
  match getTransactionPrefixHash env.crypto tx.toTransactionPrefix with
  | none => .error ⟨.prefixNotSerializable, s⟩
  | some _ => .ok (s.enterTransaction env tx txId)

inductive HandleExit where
  | wrongPrevId
  | invalidTimestamp
  | invalidType
  | difficultyOverhead
  | failedPowPos
  | missingLonghash
  | checkpointValidationFailed
  | failedPrevalidation
  | failedMinerTransaction
  | unknownTransaction
  | wrongInputs
  | failedTransaction
  | wrongMinerTransaction
  | alreadyInBlockIndexes
  | invalidDelegateVotes
  | added
deriving DecidableEq, Repr

def HandleExit.ofProof : ProofCheck → Option HandleExit
  | .passed => none
  | .failed => some .failedPowPos
  | .missingLonghash => some .missingLonghash

theorem HandleExit.ofProof_eq_none_iff {proof : ProofCheck} :
    HandleExit.ofProof proof = none ↔ proof = .passed := by
  cases proof <;> simp [ofProof]

/-- Proof of work or the right to sign; inside the checkpoint zone only the
checkpoints count. -/
def checkProof (bl : Block) (id : Hash) (s : Storage) : Except Thrown (Option HandleExit) :=
  if env.checkpoints.isInCheckpointZone s.getCurrentBlockchainHeight then
    .ok (if (env.checkpoints.checkBlock s.getCurrentBlockchainHeight id).1 then none
      else some .checkpointValidationFailed)
  else
    HandleExit.ofProof <$> s.checkPowPos env bl (s.getDifficultyForNextBlock env)

/-- The checks before the first change; none if the block passes them. -/
def checkBlockHeader (bl : Block) (id : Hash) (s : Storage) :
    Except Thrown (Option HandleExit) :=
  if bl.prevId ≠ s.getTailId then .ok (some .wrongPrevId)
  else do
    if !(← s.checkBlockTimestampMain env now bl) then .ok (some .invalidTimestamp)
    else if !checkBlockType env bl then .ok (some .invalidType)
    else if s.getDifficultyForNextBlock env = 0 then .ok (some .difficultyOverhead)
    else do
      let proofExit ← s.checkProof env bl id
      .ok (match proofExit with
        | some exit => some exit
        | none =>
          if prevalidateMinerTransaction bl s.entries.length then none
          else some .failedPrevalidation)

structure BlockTotals where
  processed : Nat
  feeSummary : UInt64
  cumulativeBlockSize : UInt64
deriving DecidableEq

/-- Take the transactions of the block from the pool into the chain.  On failure
those of this block that were already connected are taken back. -/
def connectTransactions (bl : Block) (id : Hash) :
    List Hash → BlockTotals → Storage → Except Interrupted (Except HandleExit BlockTotals × Storage)
  | [], totals, s => .ok (.ok totals, s)
  | txId :: rest, totals, s =>
    match s.pool.takeTx env.crypto txId with
    | none => do
      let (_, s) ← s.purgeBlockDataFromBlockchain env now bl totals.processed
      .ok (.error .unknownTransaction, s)
    | some (details, pool) => do
      let s := { s with pool := pool }
      if !(← s.reading (s.validateTx env now details.tx false)) then do
        let (_, s) ← s.returnToPool env now details.tx
        let (_, s) ← s.purgeBlockDataFromBlockchain env now bl totals.processed
        .ok (.error .wrongInputs, (s.addBlockAsInvalid (invalidEntry bl id) bl id).2)
      else do
        match ← s.addTransactionFromBlock env details.tx txId with
        | (false, s) => do
          let (_, s) ← s.returnToPool env now details.tx
          let (_, s) ← s.purgeBlockDataFromBlockchain env now bl totals.processed
          .ok (.error .failedTransaction, s)
        | (true, s) =>
          connectTransactions bl id rest
            ⟨totals.processed + 1, totals.feeSummary + details.fee,
              totals.cumulativeBlockSize + UInt64.ofNat details.blobSize⟩ s

/-- The block before the last one, if statistics are due for the last one. -/
def statisticsPrev (bl : Block) (s : Storage) : Except Thrown (Option Block) :=
  if 2 < s.entries.length then
    match s.entries[s.entries.length - 2]? with
    | none => .ok none
    | some bent => do
      let blockPrev ← s.getBlockByHash bent.hash
      .ok (if isPosBlock bl && isPosBlock blockPrev then some blockPrev else none)
  else .ok none

def countStatistics (bl : Block) (feeReward : UInt64) (s : Storage) :
    Except Interrupted Storage := do
  match ← s.reading (s.statisticsPrev bl) with
  | none => .ok s
  | some blockPrev =>
    let missed ← s.reading (s.missedDelegates bl blockPrev)
    let ds := (s.ledger.delegates.countMissed missed).countProcessed bl.signingDelegateId feeReward
    .ok { s.setDelegates ds with
      log := .processedBlock bl.signingDelegateId
        (s.ledger.delegates.contains bl.signingDelegateId) :: s.log }

def newEntry (bl : Block) (id : Hash) (totals : BlockTotals) (currentDiffic baseReward : UInt64)
    (s : Storage) : BlockchainEntry where
  hash := id
  height := s.entries.length
  timestamp := bl.timestamp
  blockCumulativeSize := totals.cumulativeBlockSize
  cumulativeDifficulty :=
    currentDiffic + ((s.entries.getLast?.map (·.cumulativeDifficulty)).getD 0)
  alreadyGeneratedCoins :=
    (s.entries.getLast?.map (·.alreadyGeneratedCoins)).getD 0 + baseReward

/-- The fees paid to the miner or the signer of the block. -/
def blockFeeReward (bl : Block) (totals : BlockTotals) (s : Storage) : Except Thrown UInt64 :=
  if isPowBlock bl then .ok totals.feeSummary
  else s.averagePastBlockFees (getBlockHeight bl).toNat

/-- Append the block, whose transactions are connected, to the chain. -/
def appendBlock (bl : Block) (id : Hash) (totals : BlockTotals) (currentDiffic : UInt64)
    (s : Storage) : Except Interrupted (HandleExit × Storage) := do
  let feeReward ← s.reading (s.blockFeeReward bl totals)
  match s.validateMinerTransaction env bl totals.cumulativeBlockSize feeReward with
  | none => do
    let (_, s) ← s.purgeBlockDataFromBlockchain env now bl totals.processed
    .ok (.wrongMinerTransaction, s)
  | some baseReward => do
    let bent := s.newEntry bl id totals currentDiffic baseReward
    let s := { s with blocksByHash := Function.update s.blocksByHash id (some bl) }
    if (s.blocksIndex id).isSome then do
      let (_, s) ← s.purgeBlockDataFromBlockchain env now bl totals.processed
      .ok (.alreadyInBlockIndexes, s)
    else do
      let s := { s with
        blocksIndex := Function.update s.blocksIndex id (some bent.height)
        entries := s.entries ++ [bent] }
      let s ← s.countStatistics bl feeReward
      let (valid, s) ← s.recalculateTopDelegates env
      if !valid then do
        let (_, s) ←
          purgeBlockDataFromBlockchain env now bl totals.processed
            { s with entries := s.entries.dropLast }
        .ok (.invalidDelegateVotes, s)
      else .ok (.added, s.updateNextComulativeSizeLimit)

/-- The miner transaction, then the others, then the block itself. -/
def connectBlock (bl : Block) (id : Hash) (currentDiffic : UInt64) (s : Storage) :
    Except Interrupted (HandleExit × Storage) := do
  if !(← s.reading (s.validateTx env now bl.minerTx true)) then .ok (.failedMinerTransaction, s)
  else do
    match ← s.addTransactionFromBlock env bl.minerTx
        ((getTransactionHash env.crypto bl.minerTx).getD nullHash) with
    | (false, s) => .ok (.failedMinerTransaction, s)
    | (true, s) => do
      let coinbaseBlobSize := ((serializeTransaction bl.minerTx).map (·.length)).getD 0
      let (r, s) ← s.connectTransactions env now bl id bl.txHashes
        ⟨0, 0, UInt64.ofNat coinbaseBlobSize⟩
      match r with
      | .error exit => .ok (exit, s)
      | .ok totals => s.appendBlock env now bl id totals currentDiffic

def handleBlockToMainChain (bl : Block) (id : Hash) (s : Storage) :
    Except Interrupted (HandleExit × Storage) := do
  match ← s.reading (s.checkBlockHeader env now bl id) with
  | some exit => .ok (exit, s)
  | none => s.connectBlock env now bl id (s.getDifficultyForNextBlock env)

/-- The signer has its block taken back before the fees are known, and the fees before the
missed delegates are. -/
def uncountStatistics (bl : Block) (s : Storage) : Except Interrupted Storage := do
  match ← s.reading (s.statisticsPrev bl) with
  | none => .ok s
  | some blockPrev => do
    let uncounted (fees : UInt64) := s.ledger.delegates.uncountProcessed bl.signingDelegateId fees
    let fees ← (s.setDelegates (uncounted 0)).reading
      (s.averagePastBlockFees (getBlockHeight blockPrev).toNat)
    let log := .undidProcessedBlock bl.signingDelegateId
      (s.ledger.delegates.contains bl.signingDelegateId) :: s.log
    let missed ← reading { s.setDelegates (uncounted fees) with log := log }
      (s.missedDelegates bl blockPrev)
    .ok { s.setDelegates ((uncounted fees).uncountMissed missed) with log := log }

/-- Forget the last entry; false if its id is not indexed. -/
def removeLastEntry (bent : BlockchainEntry) (s : Storage) : Bool × Storage :=
  if (s.blocksIndex bent.hash).isNone then (false, { s with poppingBlock := false })
  else
    (true, { s with
      blocksIndex := Function.update s.blocksIndex bent.hash none
      entries := s.entries.dropLast
      poppingBlock := false })

def popBlockFromBlockchain (s : Storage) : Except Interrupted (Bool × Storage) :=
  match s.entries with
  | _ :: _ :: _ =>
    match s.entries.getLast? with
    | none => .ok (false, s)
    | some bent => do
      let bl ← s.reading (s.getBlockByHash bent.hash)
      let (purged, s) ←
        purgeBlockDataFromBlockchain env now bl bl.txHashes.length { s with poppingBlock := true }
      if !purged then .ok (false, { s with poppingBlock := false })
      else do
        let (valid, s) ← s.recalculateTopDelegates env
        if !valid then .ok (false, { s with poppingBlock := false })
        else do
          let s ← s.uncountStatistics bl
          .ok (s.removeLastEntry bent)
  | _ => .ok (false, s)

end MainChain

end Storage

end Pebblecoin
