import Pebblecoin.BlockEncoding
import Pebblecoin.Control.Outcome
import Pebblecoin.Difficulty
import Pebblecoin.LedgerUndo

/-!
The state of the blockchain storage together with its transaction pool, and the
reads that most of the code shares.
-/

namespace Pebblecoin

open Containers

/-- What does not change while the program runs. -/
structure Env where
  crypto : Crypto
  config : Config
  checkpoints : Checkpoints

/-- The exceptions that modelled code throws. -/
inductive Thrown where
  | blockNotFound
  | entryNotFound
  | invalidForBlockHeight
  | unknownTransaction
  | topDelegatesEmpty
  | morePositiveThanTotalVotes
  | noHashingBlob
  | prefixNotSerializable
  /-- Not an exception: a loop ran longer than the bound given to the model. -/
  | outOfFuel
deriving DecidableEq, Repr

structure BlockchainEntry where
  hash : Hash
  height : Nat
  timestamp : UInt64
  blockCumulativeSize : UInt64
  cumulativeDifficulty : UInt64
  alreadyGeneratedCoins : UInt64
deriving DecidableEq

structure TxDetails where
  tx : Transaction
  blobSize : Nat
  fee : UInt64
  keptByBlock : Bool
deriving DecidableEq

/-- The heights and block ids that the details of a pool transaction remember
about earlier checks of its inputs. -/
structure CheckMemory where
  maxUsedBlockHeight : Nat
  maxUsedBlockId : Hash
  lastFailedHeight : Nat
  lastFailedId : Hash
deriving DecidableEq

/-- The transactions by id, for each key image the pool transactions that spend
it, and what is remembered about the transactions, which is read only at the ids
in the pool. -/
structure TxMemoryPool where
  transactions : Hash → Option TxDetails
  txinInfos : KeyImage → Option (Finset Hash)
  memory : Hash → CheckMemory

/-- The log lines that statements about whole runs refer to. -/
inductive Event where
  /-- "apply_votes: apply vote would overflow" -/
  | applyVoteOverflow
  /-- "Delegate .. processed a block", with whether the delegate was in the table -/
  | processedBlock (delegate : DelegateId) (known : Bool)
  /-- "Undoing delegate .. processed a block", with whether it was in the table -/
  | undidProcessedBlock (delegate : DelegateId) (known : Bool)
  /-- "Failed to switch to alternative blockchain" -/
  | switchFailed (id : Hash) (rolledBack : Bool)
  /-- "Failed to push ex-main chain blocks to alternative chain" -/
  | pushExMainFailed
deriving DecidableEq

structure Storage where
  entries : List BlockchainEntry
  blocksByHash : Hash → Option Block
  blocksIndex : Hash → Option Nat
  alternativeChainEntries : Hash → Option BlockchainEntry
  invalidBlockEntries : Hash → Option BlockchainEntry
  ledger : Ledger
  topDelegates : OrdSet DelegateId
  currentBlockCumulSzLimit : UInt64
  poppingBlock : Bool
  pool : TxMemoryPool
  /-- The long hashes that were signed or have been computed before. -/
  hashCache : Hash → Option Hash
  log : List Event

/-- An exception, with the storage as it is at that moment. -/
structure Interrupted where
  thrown : Thrown
  storage : Storage

namespace Storage

/-- A value that is read in the middle of an operation. -/
def reading {α : Type} (s : Storage) (x : Except Thrown α) : Except Interrupted α :=
  x.mapError (⟨·, s⟩)

@[simp] theorem reading_ok {α : Type} (s : Storage) (a : α) : s.reading (.ok a) = .ok a := rfl

@[simp] theorem reading_eq_ok_iff {α : Type} {s : Storage} {x : Except Thrown α} {a : α} :
    s.reading x = .ok a ↔ x = .ok a :=
  Control.mapError_eq_ok_iff

theorem reading_bind_eq_ok_iff {α β : Type} {s : Storage} {x : Except Thrown α}
    {f : α → Except Interrupted β} {b : β} :
    (s.reading x >>= f) = .ok b ↔ ∃ a, x = .ok a ∧ f a = .ok b := by
  simp only [Control.bind_eq_ok_iff, reading_eq_ok_iff]

theorem returns_reading {α : Type} {s : Storage} {x : Except Thrown α} {P : α → Prop}
    (h : Control.Returns x P) : Control.Returns (s.reading x) P :=
  ⟨fun a ha => h.out a (reading_eq_ok_iff.mp ha)⟩

/-- The state before the genesis block is added. -/
def empty : Storage where
  entries := []
  blocksByHash _ := none
  blocksIndex _ := none
  alternativeChainEntries _ := none
  invalidBlockEntries _ := none
  ledger := Ledger.empty
  topDelegates := OrdMap.empty
  currentBlockCumulSzLimit := 0
  poppingBlock := false
  pool := ⟨fun _ => none, fun _ => none, fun _ => ⟨0, nullHash, 0, nullHash⟩⟩
  hashCache _ := none
  log := []

def getCurrentBlockchainHeight (s : Storage) : Nat :=
  s.entries.length

def getBlockIdByHeight (s : Storage) (height : Nat) : Hash :=
  (s.entries[height]?.map (·.hash)).getD nullHash

def getTailId (s : Storage) : Hash :=
  (s.entries.getLast?.map (·.hash)).getD nullHash

def getBlockByHash (s : Storage) (id : Hash) : Except Thrown Block :=
  match s.blocksByHash id with
  | none => .error .blockNotFound
  | some b => .ok b

def haveBlock (s : Storage) (id : Hash) : Bool :=
  (s.blocksByHash id).isSome

def haveTx (s : Storage) (id : Hash) : Bool :=
  (s.ledger.transactions id).isSome

def sumTxFees (s : Storage) : List Hash → UInt64 → Except Thrown UInt64
  | [], sum => .ok sum
  | id :: ids, sum =>
    match s.ledger.transactions id with
    | none => .error .unknownTransaction
    | some entry => s.sumTxFees ids (sum + entry.tx.getTxFee)

/-- The cache of the source by block id is left out. -/
def getBlockFees (s : Storage) (bent : BlockchainEntry) : Except Thrown UInt64 := do
  let bl ← s.getBlockByHash bent.hash
  s.sumTxFees bl.txHashes 0

/-- Walk down from the newest of the entries to the first that is older than a
day; the entries are given newest first. -/
def feesOfPastDay (s : Storage) (endTimestamp : UInt64) :
    List BlockchainEntry → (used : Nat) → (sum : UInt64) → Except Thrown (Nat × UInt64)
  | [], used, sum => .ok (used, sum)
  | bent :: rest, used, sum =>
    if bent.timestamp < endTimestamp - 86400 then .ok (used, sum)
    else do
      let fees ← s.getBlockFees bent
      s.feesOfPastDay endTimestamp rest (used + 1) (sum + fees)

def averagePastBlockFees (s : Storage) (forBlockHeight : Nat) : Except Thrown UInt64 :=
  if forBlockHeight = 0 then .ok 0
  else
    match s.entries[forBlockHeight - 1]? with
    | none => .error .invalidForBlockHeight
    | some bent => do
      let (used, sum) ←
        s.feesOfPastDay bent.timestamp (s.entries.take forBlockHeight).reverse 0 0
      .ok (if used = 0 then 0 else sum / UInt64.ofNat used)

end Storage

end Pebblecoin
