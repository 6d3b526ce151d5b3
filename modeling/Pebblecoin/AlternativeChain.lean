import Pebblecoin.MainChain

/-!
Alternative branches, reorganizations, and the entry point for received blocks.
-/

namespace Pebblecoin

open Containers

namespace Storage

section AlternativeChain

variable (env : Env) (now : UInt64)

/-- Fill up the timestamps of a branch with those of the main chain below it.
The genesis block is left out unless the branch starts right on it. -/
def completeTimestampsVector (startTopHeight : Nat) (timestamps : List UInt64) (s : Storage) :
    List UInt64 :=
  if blockchainTimestampCheckWindow ≤ timestamps.length then timestamps
  else if s.entries.length ≤ startTopHeight then timestamps
  else if startTopHeight = 0 then timestamps ++ (s.entries.take 1).map (·.timestamp)
  else
    let needElements := blockchainTimestampCheckWindow - timestamps.length
    let stopOffset := startTopHeight - needElements
    timestamps ++
      (((s.entries.take (startTopHeight + 1)).drop (stopOffset + 1)).map (·.timestamp)).reverse

def getAlternativeEntry (s : Storage) (id : Hash) : Except Thrown BlockchainEntry :=
  match s.alternativeChainEntries id with
  | none => .error .entryNotFound
  | some bent => .ok bent

/-- Timestamp and cumulative difficulty of one block of a branch. -/
def alternativeWork (s : Storage) (id : Hash) : Except Thrown (UInt64 × UInt64) := do
  let bl ← s.getBlockByHash id
  let bent ← s.getAlternativeEntry id
  .ok (bl.timestamp, bent.cumulativeDifficulty)

/-- The entries of the main chain that count for a block on the branch, which
leaves the main chain below height `stop`. -/
def mainChainWindow (altLength stop : Nat) (s : Storage) : List BlockchainEntry :=
  let count := min (difficultyBlocksCount - altLength) stop
  (s.entries.take stop).drop (max 1 (stop - count))

def getNextDifficultyForAlternativeChain (altChain : List Hash) (height : Nat) (s : Storage) :
    Except Thrown UInt64 :=
  if env.config.inPosEra height then .ok dposBlockDifficulty
  else if altChain.length < difficultyBlocksCount then do
    let stop ← match altChain with
      | [] => .ok height
      | front :: _ => (·.height) <$> s.getAlternativeEntry front
    let main := s.mainChainWindow altChain.length stop
    let alt ← altChain.mapM s.alternativeWork
    .ok (nextDifficulty env.config height (main.map (·.timestamp) ++ alt.map (·.1))
      (main.map (·.cumulativeDifficulty) ++ alt.map (·.2)))
  else do
    let alt ← (altChain.drop (altChain.length - difficultyBlocksCount)).mapM s.alternativeWork
    .ok (nextDifficulty env.config height (alt.map (·.1)) (alt.map (·.2)))

/-- Pop `n` blocks; the bodies of those popped come back, lowest first. -/
def disconnectBlocks : (n : Nat) → List Block → Storage →
    Except Interrupted (Option (List Block) × Storage)
  | 0, popped, s => .ok (some popped, s)
  | n + 1, popped, s =>
    match s.entries.getLast? with
    | none => .error ⟨.entryNotFound, s⟩
    | some bent => do
      let b ← s.reading (s.getBlockByHash bent.hash)
      let (r, s) ← s.popBlockFromBlockchain env now
      if r then disconnectBlocks n (b :: popped) s else .ok (none, s)

def popBlocks : (n : Nat) → Storage → Except Interrupted (Bool × Storage)
  | 0, s => .ok (true, s)
  | n + 1, s => do
    let (r, s) ← s.popBlockFromBlockchain env now
    if r then popBlocks n s else .ok (false, s)

def connectBlocks : List Block → Storage → Except Interrupted (Bool × Storage)
  | [], s => .ok (true, s)
  | bl :: rest, s => do
    let (exit, s) ← s.handleBlockToMainChain env now bl ((getBlockHash env.crypto bl).getD nullHash)
    if exit = .added then connectBlocks rest s else .ok (false, s)

def rollbackBlockchainSwitching (originalChain : List Block) (rollbackHeight : Nat) (s : Storage) :
    Except Interrupted (Bool × Storage) := do
  let (r, s) ← s.popBlocks env now (s.entries.length - rollbackHeight)
  if r then s.connectBlocks env now originalChain else .ok (false, s)

/-- The failure loop of the source keeps the entry and the body of the first
failed block for every later block of the branch. -/
def markBranchInvalid (bent : BlockchainEntry) (bl : Block) (actualId : Hash) :
    List Hash → Storage → Storage
  | [], s => s
  | id :: rest, s =>
    let s := (s.addBlockAsInvalid bent bl actualId).2
    markBranchInvalid bent bl actualId rest
      { s with alternativeChainEntries := Function.update s.alternativeChainEntries id none }

/-- Connect the blocks of the branch; the first that fails undoes the switch. -/
def connectBranch (disconnected : List Block) (splitHeight : Nat) :
    List Hash → Storage → Except Interrupted (Bool × Storage)
  | [], s => .ok (true, s)
  | id :: rest, s => do
    let bent ← s.reading (s.getAlternativeEntry id)
    let bl ← s.reading (s.getBlockByHash id)
    let actualId := (getBlockHash env.crypto bl).getD nullHash
    let (exit, s) ← s.handleBlockToMainChain env now bl actualId
    if exit = .added then connectBranch disconnected splitHeight rest s
    else do
      let (rolledBack, s) ← s.rollbackBlockchainSwitching env now disconnected splitHeight
      let s := { s with log := .switchFailed id rolledBack :: s.log }
      .ok (false, s.markBranchInvalid bent bl actualId (id :: rest))

def eraseAlternatives (ids : List Hash) (s : Storage) : Storage :=
  { s with
    alternativeChainEntries := fun id => if id ∈ ids then none else s.alternativeChainEntries id }

inductive AltExit where
  | wrongMinerTransaction
  | notAllowed
  | wrongHeight
  | wrongConnection
  | invalidTimestamp
  | checkpointValidationFailed
  | invalidType
  | difficultyOverhead
  | failedPow
  | missingLonghash
  | failedPrevalidation
  | alreadyExists
  | switchFailed
  | switched
  | addedAsAlternative
  | orphaned
deriving DecidableEq, Repr

/-- The exits of the source that return true. -/
def AltExit.isSuccess : AltExit → Bool
  | .switched | .addedAsAlternative | .orphaned => true
  | _ => false

/-- The stored branch that ends in `id`, with the timestamps newest first. -/
def branchTo (s : Storage) : (fuel : Nat) → Hash → Except Thrown (List Hash × List UInt64)
  | 0, _ => .error .outOfFuel
  | fuel + 1, id =>
    match s.alternativeChainEntries id with
    | none => .ok ([], [])
    | some bent => do
      let bl ← s.getBlockByHash bent.hash
      let (ids, timestamps) ← branchTo s fuel bl.prevId
      .ok (ids ++ [id], bl.timestamp :: timestamps)

/-- The timestamps to judge the next block of the branch by. -/
def branchTimestamps (branch : List Hash) (timestamps : List UInt64) (mainPrev : Option Nat)
    (s : Storage) : Except Thrown (Except AltExit (List UInt64)) :=
  match branch, mainPrev with
  | front :: _, _ => do
    let frontEnt ← s.getAlternativeEntry front
    if s.entries.length ≤ frontEnt.height then .ok (.error .wrongHeight)
    else do
      let frontBl ← s.getBlockByHash frontEnt.hash
      if (s.entries[frontEnt.height - 1]?.map (·.hash)) ≠ some frontBl.prevId then
        .ok (.error .wrongConnection)
      else .ok (.ok (s.completeTimestampsVector (frontEnt.height - 1) timestamps))
  | [], some height => .ok (.ok (s.completeTimestampsVector height timestamps))
  | [], none => .ok (.error .wrongConnection)

structure AltPlacement where
  /-- The branch with the new block at its end. -/
  chain : List Hash
  bent : BlockchainEntry
  isACheckpoint : Bool

/-- The height and the cumulative difficulty of the block before the new one. -/
def previousWork (prevId : Hash) (s : Storage) : Except Thrown (Nat × UInt64) :=
  match s.alternativeChainEntries prevId with
  | some bent => .ok (bent.height, bent.cumulativeDifficulty)
  | none =>
    match s.blocksIndex prevId with
    | none => .error .entryNotFound
    | some height =>
      match s.entries[height]? with
      | none => .error .entryNotFound
      | some bent => .ok (height, bent.cumulativeDifficulty)

/-- The signature of a delegate block is not checked before it is connected. -/
def checkAlternativeProof (b : Block) (currentDiff : UInt64) (s : Storage) :
    Except Thrown ProofCheck :=
  if isPowBlock b then s.checkPowPos env b currentDiff else .ok .passed

/-- The checks of a stored alternative block, and its entry into the table. -/
def placeAlternativeBlock (b : Block) (id : Hash) (branch : List Hash) (s : Storage) :
    Except Interrupted (Except AltExit AltPlacement × Storage) := do
  let (prevHeight, prevDifficulty) ← s.reading (s.previousWork b.prevId)
  let height := prevHeight + 1
  let (passes, isACheckpoint) := env.checkpoints.checkBlock height id
  if !passes then .ok (.error .checkpointValidationFailed, s)
  else if !checkBlockType env b then .ok (.error .invalidType, s)
  else do
    let currentDiff ← s.reading (s.getNextDifficultyForAlternativeChain env branch height)
    if currentDiff = 0 then .ok (.error .difficultyOverhead, s)
    else do
      let proven ← s.reading (s.checkAlternativeProof env b currentDiff)
      if proven = .missingLonghash then .ok (.error .missingLonghash, s)
      else if proven = .failed then .ok (.error .failedPow, s)
      else if !prevalidateMinerTransaction b height then .ok (.error .failedPrevalidation, s)
      else if (s.alternativeChainEntries id).isSome then .ok (.error .alreadyExists, s)
      else
        let bent : BlockchainEntry :=
          ⟨id, height, b.timestamp, 0, prevDifficulty + currentDiff, 0⟩
        .ok (.ok ⟨branch ++ [id], bent, isACheckpoint⟩, { s with
          alternativeChainEntries := Function.update s.alternativeChainEntries id (some bent) })

/-- Everything of an alternative block up to the decision to reorganize.  The
body is stored once the timestamp is accepted. -/
def prepareAlternativeBlock (fuel : Nat) (b : Block) (id : Hash) (s : Storage) :
    Except Interrupted (Except AltExit AltPlacement × Storage) :=
  if getBlockHeight b = 0 then .ok (.error .wrongMinerTransaction, s)
  else if !env.checkpoints.isAlternativeBlockAllowed (s.getCurrentBlockchainHeight - 1)
      (getBlockHeight b).toNat then .ok (.error .notAllowed, s)
  else if (s.alternativeChainEntries b.prevId).isNone && (s.blocksIndex b.prevId).isNone then
    .ok (.error .orphaned, s)
  else do
    let (branch, timestamps) ← s.reading (s.branchTo fuel b.prevId)
    match ← s.reading (s.branchTimestamps branch timestamps (s.blocksIndex b.prevId)) with
    | .error exit => .ok (.error exit, s)
    | .ok timestamps => do
      if !(← s.reading (s.checkBlockTimestamp env timestamps b)) then .ok (.error .invalidTimestamp, s)
      else
        placeAlternativeBlock env b id branch
          { s with blocksByHash := Function.update s.blocksByHash id (some b) }

/-- Try the blocks one after the other until one is refused. -/
def pushAlternatives (handle : Block → Hash → Storage → Except Interrupted (AltExit × Storage)) :
    List Block → Storage → Except Interrupted (Bool × Storage)
  | [], s => .ok (true, s)
  | bl :: rest, s => do
    let (exit, s) ← handle bl ((getBlockHash env.crypto bl).getD nullHash) s
    if exit.isSuccess then pushAlternatives handle rest s else .ok (false, s)

/-- `handle` receives the blocks of the old branch. -/
def switchToAlternativeBlockchain
    (handle : Block → Hash → Storage → Except Interrupted (AltExit × Storage))
    (altChain : List Hash) (discardDisconnectedChain : Bool) (s : Storage) :
    Except Interrupted (Bool × Storage) :=
  match altChain with
  | [] => .ok (false, s)
  | front :: _ => do
    let splitHeight ← s.reading ((·.height) <$> s.getAlternativeEntry front)
    if s.entries.length ≤ splitHeight then .ok (false, s)
    else do
      let (disconnected, s) ← s.disconnectBlocks env now (s.entries.length - splitHeight) []
      match disconnected with
      | none => .ok (false, s)
      | some disconnected => do
        let (connected, s) ← s.connectBranch env now disconnected splitHeight altChain
        if !connected then .ok (false, s)
        else if discardDisconnectedChain then .ok (true, s.eraseAlternatives altChain)
        else do
          let (pushed, s) ← pushAlternatives env handle disconnected s
          if pushed then .ok (true, s.eraseAlternatives altChain)
          else do
            let s := { s with log := .pushExMainFailed :: s.log }
            let (_, s) ← s.rollbackBlockchainSwitching env now disconnected splitHeight
            .ok (false, s)

/-- The tip's work decides, unless the block is a checkpoint. -/
def handleAlternativeBlock : (fuel : Nat) → Block → Hash → Storage →
    Except Interrupted (AltExit × Storage)
  | 0, _, _, s => .error ⟨.outOfFuel, s⟩
  | fuel + 1, b, id, s => do
    let (r, s) ← s.prepareAlternativeBlock env fuel b id
    match r with
    | .error exit => .ok (exit, s)
    | .ok place =>
      let tipDifficulty := (s.entries.getLast?.map (·.cumulativeDifficulty)).getD 0
      if place.isACheckpoint || decide (tipDifficulty < place.bent.cumulativeDifficulty) then do
        let (switched, s) ← s.switchToAlternativeBlockchain env now
          (handleAlternativeBlock fuel) place.chain place.isACheckpoint
        .ok (if switched then .switched else .switchFailed, s)
      else .ok (.addedAsAlternative, s)

inductive AddExit where
  | couldNotHash
  | alreadyExists
  | mainChain (exit : HandleExit)
  | alternative (exit : AltExit)
deriving DecidableEq, Repr

def addNewBlock (fuel : Nat) (bl : Block) (s : Storage) : Except Interrupted (AddExit × Storage) :=
  match getBlockHash env.crypto bl with
  | none => .ok (.couldNotHash, s)
  | some id =>
    if s.haveBlock id then .ok (.alreadyExists, s)
    else if bl.prevId = s.getTailId then do
      let (exit, s) ← s.handleBlockToMainChain env now bl id
      .ok (.mainChain exit, s)
    else do
      let (exit, s) ← s.handleAlternativeBlock env now fuel bl id
      .ok (.alternative exit, s)

end AlternativeChain

end Storage

end Pebblecoin
