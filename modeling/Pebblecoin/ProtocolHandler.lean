import Pebblecoin.BlobRoundTrip
import Pebblecoin.ChainSupplement

/-!
The handler of the messages on one connection, over any core.
-/

namespace Pebblecoin

open Wire

def blocksSynchronizingDefaultCount : Nat := 200
def signedHashesSynchronizingDefaultCount : Nat := 200

structure SignedHashEntry where
  blockId : Hash
  workHash : Hash
  sig : Signature
deriving DecidableEq

/-- A block with its transactions, as they are sent. -/
structure BlockCompleteBlobs where
  block : Bytes
  txs : List Bytes
deriving DecidableEq

/-- `NOTIFY_RESPONSE_GET_OBJECTS::request`, without the fields that are not read. -/
structure ResponseGetObjects where
  blocks : List BlockCompleteBlobs
  signedHashes : List SignedHashEntry
  blocksNotSent : List Hash
  currentBlockchainHeight : UInt64
deriving DecidableEq

structure CoreSyncData where
  currentHeight : UInt64
  topId : Hash
deriving DecidableEq

/-- What is sent back to the peer. -/
inductive Posted where
  | requestChain (blockIds : List Hash)
  | requestGetObjects (blocks signedHashes : List Hash) (requireSignedHashes : Bool)
  | responseChainEntry (entry : ResponseChainEntry)
deriving DecidableEq

/-- A message of the peer, the data of a handshake or a timed synchronization, or
the callback that was asked for. -/
inductive ConnectionEvent where
  | syncData (hshd : CoreSyncData) (isInital : Bool)
  | callback
  | notifyNewBlock (b : BlockCompleteBlobs)
  | notifyNewTransactions (txs : List Bytes)
  | notifyNewSignedHash (entry : SignedHashEntry)
  | requestGetObjects
  | responseGetObjects (arg : ResponseGetObjects)
  | requestChain (blockIds : List Hash)
  | responseChainEntry (arg : ResponseChainEntry)

inductive ConnectionState where
  | beforHandshake
  | synchronizing
  | idle
  | normal
deriving DecidableEq, Repr

/-- `cryptonote_connection_context` -/
structure ConnectionContext where
  state : ConnectionState
  neededObjects : List Hash
  neededSignedHashes : List Hash
  requestedObjects : Finset Hash
  remoteBlockchainHeight : UInt64
  lastResponseHeight : UInt64
  callbackRequestCount : Nat
deriving DecidableEq

namespace ConnectionContext

def initial : ConnectionContext := ⟨.beforHandshake, [], [], ∅, 0, 0, 0⟩

def enterIdleState (ctx : ConnectionContext) : ConnectionContext :=
  { ctx with state := .idle, neededObjects := [], neededSignedHashes := [], requestedObjects := ∅ }

end ConnectionContext

structure BlockVerificationContext where
  addedToMainChain : Bool
  verificationFailed : Bool
  markedAsOrphaned : Bool
  alreadyExists : Bool
  missingLonghash : Bool
deriving DecidableEq, Repr

/-- What the handler uses of its core and of the hash cache. -/
structure CoreInterface (σ : Type) where
  haveBlock : σ → Hash → Bool
  getBlockByHash : σ → Hash → Option Block
  getShortChainHistory : σ → List Hash
  findBlockchainSupplement : σ → List Hash → Option ResponseChainEntry
  getCurrentBlockchainHeight : σ → Nat
  getBlockIdByHeight : σ → Nat → Hash
  isInCheckpointZone : Nat → Bool
  handleIncomingTx : Bytes → (keptByBlock : Bool) → σ → Except Thrown (TxVerificationContext × σ)
  handleIncomingBlock : Bytes → σ → Except Thrown (BlockVerificationContext × σ)
  haveSignedLonghashFor : σ → Hash → Bool
  addSignedLonghash : SignedHashEntry → σ → Option σ

/-- The settings the handler reads. -/
structure HandlerConfig where
  testnet : Bool
  doBoulderhash : Bool
  dposSwitchBlock : Nat

/-- The connection and the core after an event. -/
structure Handled (σ : Type) where
  context : ConnectionContext
  core : σ
  posted : List Posted
  dropped : Bool

/-- A block before anything is read into it. -/
def Block.unread : Block :=
  ⟨⟨0, 0, 0, nullHash, 0⟩, ⟨⟨0, 0, [], [], [], [], []⟩, []⟩, [], 0, Blob.null 64⟩

def parseAndValidateBlockFromBlob (blob : Bytes) : Option Block := parseBlock .unread blob

namespace ProtocolHandler

open Wallet2 (blockId)

section Handler

variable {σ : Type} (crypto : Crypto) (cfg : HandlerConfig) (core : CoreInterface σ)

def needBlock (s : σ) (blId : Hash) : Bool := !core.haveBlock s blId

def needSignedHash (s : σ) (blId : Hash) : Bool :=
  if cfg.testnet then false
  else if core.haveSignedLonghashFor s blId then false
  else if !core.haveBlock s blId then false
  else
    match core.getBlockByHash s blId with
    | none => false
    | some bl =>
      decide ((getBlockHeight bl).toNat < cfg.dposSwitchBlock) &&
        !core.isInCheckpointZone (getBlockHeight bl).toNat

/-- Forget the objects that have arrived in the meantime. -/
def filterNeeded (s : σ) (ctx : ConnectionContext) : ConnectionContext :=
  { ctx with
    neededObjects := ctx.neededObjects.filter (needBlock core s)
    neededSignedHashes := ctx.neededSignedHashes.filter (needSignedHash cfg core s) }

/-- Ask for the first objects that are needed. -/
def requestNeeded (ctx : ConnectionContext) : List Posted × ConnectionContext :=
  if ctx.neededObjects.isEmpty && ctx.neededSignedHashes.isEmpty then ([], ctx)
  else
    let blocks := ctx.neededObjects.take blocksSynchronizingDefaultCount
    ([.requestGetObjects blocks
        (ctx.neededSignedHashes.take signedHashesSynchronizingDefaultCount) !cfg.doBoulderhash],
      { ctx with
        neededObjects := ctx.neededObjects.drop blocksSynchronizingDefaultCount
        neededSignedHashes := ctx.neededSignedHashes.drop signedHashesSynchronizingDefaultCount
        requestedObjects := ctx.requestedObjects ∪ blocks.toFinset })

/-- False if the final condition fails, which leaves the connection as it is. -/
def requestMissingObjects (checkHavingBlocks signedHashesOnly : Bool) (s : σ)
    (ctx : ConnectionContext) : Bool × List Posted × ConnectionContext :=
  let ctx := if checkHavingBlocks then filterNeeded cfg core s ctx else ctx
  let needObjects := !ctx.neededObjects.isEmpty
  let (posted, ctx) := requestNeeded cfg ctx
  if signedHashesOnly || needObjects then (true, posted, ctx)
  else if ctx.lastResponseHeight < ctx.remoteBlockchainHeight - 1 then
    (true, posted ++ [.requestChain (core.getShortChainHistory s)], ctx)
  else if ctx.lastResponseHeight = ctx.remoteBlockchainHeight - 1 ∧ ctx.neededObjects = [] ∧
      ctx.requestedObjects = ∅ then
    (true, posted, { ctx with state := .normal })
  else (false, posted, ctx)

/-- What the handler takes down of a chain entry. -/
def recordChainEntry (arg : ResponseChainEntry) (s : σ) (ctx : ConnectionContext) :
    ConnectionContext :=
  { ctx with
    remoteBlockchainHeight := arg.totalHeight
    lastResponseHeight := arg.startHeight + UInt64.ofNat arg.blockIds.length - 1
    neededObjects := ctx.neededObjects ++ arg.blockIds.filter fun blId => !core.haveBlock s blId
    neededSignedHashes := ctx.neededSignedHashes ++ arg.blockIds.filter fun blId =>
      core.haveBlock s blId && needSignedHash cfg core s blId }

/-- The entry is not empty and starts with a known block. -/
def acceptsChainEntry (arg : ResponseChainEntry) (s : σ) : Bool :=
  arg.blockIds.head?.any (core.haveBlock s)

/-- A last height above the total height drops the connection, but the entry is
taken down all the same. -/
def handleResponseChainEntry (arg : ResponseChainEntry) (s : σ) (ctx : ConnectionContext) :
    Handled σ :=
  if !acceptsChainEntry core arg s then ⟨ctx, s, [], true⟩
  else
    let ctx := recordChainEntry cfg core arg s ctx
    let (_, posted, ctx') := requestMissingObjects cfg core false false s ctx
    ⟨ctx', s, posted, decide (ctx.remoteBlockchainHeight < ctx.lastResponseHeight)⟩

/-- The entries are added until one is refused. -/
def addSignedHashes : List SignedHashEntry → σ → Bool × σ
  | [], s => (true, s)
  | entry :: rest, s =>
    match core.addSignedLonghash entry s with
    | none => (false, s)
    | some s => addSignedHashes rest s

/-- How far the check of the delivered blocks has come. -/
inductive Claimed where
  | all (requested : Finset Hash)
  | alreadyDelivered
  | wrong (requested : Finset Hash)

/-- Every delivered block has to be one that was requested. -/
def claimBlocks (s : σ) : (count : Nat) → List BlockCompleteBlobs → Finset Hash → Claimed
  | _, [], requested => .all requested
  | count, blockEntry :: rest, requested =>
    match parseAndValidateBlockFromBlob blockEntry.block with
    | none => .wrong requested
    | some b =>
      if count + 1 = 2 ∧ core.haveBlock s (blockId crypto b) = true then .alreadyDelivered
      else if blockId crypto b ∉ requested then .wrong requested
      else if b.txHashes.length ≠ blockEntry.txs.length then .wrong requested
      else claimBlocks s (count + 1) rest (requested.erase (blockId crypto b))

/-- The blocks that the peer has not sent count as answered. -/
def claimNotSent : List Hash → Finset Hash → Bool × Finset Hash
  | [], requested => (true, requested)
  | blockId :: rest, requested =>
    if blockId ∈ requested then claimNotSent rest (requested.erase blockId)
    else (false, requested)

/-- How the core has taken the delivered blocks. -/
inductive Processed where
  | all
  | missingLonghash
  | failed
deriving DecidableEq

/-- The transactions are given to the core until one fails. -/
def processTxs (keptByBlock : Bool) : List Bytes → σ → Except Thrown (Bool × σ)
  | [], s => .ok (true, s)
  | txBlob :: rest, s => do
    let (tvc, s) ← core.handleIncomingTx txBlob keptByBlock s
    if tvc.verificationFailed then .ok (false, s) else processTxs keptByBlock rest s

def processBlocks : List BlockCompleteBlobs → σ → Except Thrown (Processed × σ)
  | [], s => .ok (.all, s)
  | blockEntry :: rest, s => do
    let (added, s) ← processTxs core true blockEntry.txs s
    if !added then .ok (.failed, s)
    else do
      let (bvc, s) ← core.handleIncomingBlock blockEntry.block s
      if bvc.missingLonghash then .ok (.missingLonghash, s)
      else if bvc.verificationFailed then .ok (.failed, s)
      else if bvc.markedAsOrphaned then .ok (.failed, s)
      else processBlocks rest s

/-- The answer after the signed hashes have been added. -/
def takeObjects (arg : ResponseGetObjects) (s : σ) (ctx : ConnectionContext) :
    Except Thrown (Handled σ) :=
  let ctx := { ctx with remoteBlockchainHeight := arg.currentBlockchainHeight }
  match claimBlocks crypto core s 0 arg.blocks ctx.requestedObjects with
  | .wrong requested => .ok ⟨{ ctx with requestedObjects := requested }, s, [], true⟩
  | .alreadyDelivered => .ok ⟨ctx.enterIdleState, s, [], false⟩
  | .all requested =>
    if !arg.blocksNotSent.isEmpty && cfg.doBoulderhash then
      .ok ⟨{ ctx with requestedObjects := requested }, s, [], true⟩
    else
      let (known, requested) := claimNotSent arg.blocksNotSent requested
      let ctx := { ctx with requestedObjects := requested }
      if !known || decide (requested ≠ ∅) then .ok ⟨ctx, s, [], true⟩
      else do
        let (processed, s) ← processBlocks core arg.blocks s
        match processed with
        | .missingLonghash => .ok ⟨ctx.enterIdleState, s, [], false⟩
        | .failed => .ok ⟨ctx, s, [], true⟩
        | .all =>
          if !arg.blocksNotSent.isEmpty then .ok ⟨ctx.enterIdleState, s, [], false⟩
          else
            let (_, posted, ctx) := requestMissingObjects cfg core true false s ctx
            .ok ⟨ctx, s, posted, false⟩

def handleResponseGetObjects (arg : ResponseGetObjects) (s : σ) (ctx : ConnectionContext) :
    Except Thrown (Handled σ) :=
  if arg.currentBlockchainHeight < ctx.lastResponseHeight then .ok ⟨ctx, s, [], true⟩
  else
    let (added, s) := addSignedHashes core arg.signedHashes s
    if !added then .ok ⟨ctx, s, [], true⟩
    else takeObjects crypto cfg core arg s ctx

def handleNotifyNewBlock (b : BlockCompleteBlobs) (s : σ) (ctx : ConnectionContext) :
    Except Thrown (Handled σ) :=
  if ctx.state ≠ .normal then
    .ok ⟨if cfg.doBoulderhash then ctx
      else { ctx with callbackRequestCount := ctx.callbackRequestCount + 1 }, s, [], false⟩
  else do
    let (added, s) ← processTxs core true b.txs s
    if !added then .ok ⟨ctx, s, [], true⟩
    else do
      let (bvc, s) ← core.handleIncomingBlock b.block s
      if bvc.missingLonghash then .ok ⟨ctx.enterIdleState, s, [], false⟩
      else if bvc.verificationFailed then .ok ⟨ctx, s, [], true⟩
      else if bvc.addedToMainChain then .ok ⟨ctx, s, [], false⟩
      else if bvc.markedAsOrphaned then
        .ok ⟨{ ctx with state := .synchronizing }, s,
          [.requestChain (core.getShortChainHistory s)], false⟩
      else .ok ⟨ctx, s, [], false⟩

def handleNotifyNewTransactions (txs : List Bytes) (s : σ) (ctx : ConnectionContext) :
    Except Thrown (Handled σ) :=
  if ctx.state ≠ .normal then .ok ⟨ctx, s, [], false⟩
  else do
    let (handled, s) ← processTxs core false txs s
    .ok ⟨ctx, s, [], !handled⟩

def handleNotifyNewSignedHash (entry : SignedHashEntry) (s : σ) (ctx : ConnectionContext) :
    Handled σ :=
  match core.addSignedLonghash entry s with
  | none => ⟨ctx, s, [], true⟩
  | some s => ⟨ctx, s, [], false⟩

def handleRequestChain (blockIds : List Hash) (s : σ) (ctx : ConnectionContext) : Handled σ :=
  ⟨ctx, s, ((core.findBlockchainSupplement s blockIds).map .responseChainEntry).toList, false⟩

/-- The ids of the main chain that may lack a signed hash. -/
def signedHashIds (s : σ) : List Hash :=
  ((List.range (min (core.getCurrentBlockchainHeight s) cfg.dposSwitchBlock)).filter fun i =>
    !core.isInCheckpointZone i).map (core.getBlockIdByHeight s)

def processPayloadSyncData (hshd : CoreSyncData) (isInital : Bool) (s : σ)
    (ctx : ConnectionContext) : Handled σ :=
  if ctx.state = .beforHandshake ∧ isInital = false then ⟨ctx, s, [], false⟩
  else if ctx.state = .synchronizing then ⟨ctx, s, [], false⟩
  else if core.haveBlock s hshd.topId then
    let ctx := { ctx with
      state := .normal
      neededSignedHashes :=
        if ctx.neededSignedHashes.isEmpty then signedHashIds cfg core s
        else ctx.neededSignedHashes }
    let (_, posted, ctx) := requestMissingObjects cfg core true true s ctx
    ⟨ctx, s, posted, false⟩
  else
    ⟨{ ctx with
        state := .synchronizing
        remoteBlockchainHeight := hshd.currentHeight
        callbackRequestCount := ctx.callbackRequestCount + 1 }, s, [], false⟩

def onCallback (s : σ) (ctx : ConnectionContext) : Handled σ :=
  if ctx.callbackRequestCount = 0 then ⟨ctx, s, [], false⟩
  else
    ⟨{ ctx with callbackRequestCount := ctx.callbackRequestCount - 1 }, s,
      if ctx.state = .synchronizing then [.requestChain (core.getShortChainHistory s)] else [],
      false⟩

/-- Requests of the peer for objects are answered from the core, which they do not
change. -/
def handle (event : ConnectionEvent) (s : σ) (ctx : ConnectionContext) :
    Except Thrown (Handled σ) :=
  match event with
  | .syncData hshd isInital => .ok (processPayloadSyncData cfg core hshd isInital s ctx)
  | .callback => .ok (onCallback core s ctx)
  | .notifyNewBlock b => handleNotifyNewBlock cfg core b s ctx
  | .notifyNewTransactions txs => handleNotifyNewTransactions core txs s ctx
  | .notifyNewSignedHash entry => .ok (handleNotifyNewSignedHash core entry s ctx)
  | .requestGetObjects => .ok ⟨ctx, s, [], false⟩
  | .responseGetObjects arg => handleResponseGetObjects crypto cfg core arg s ctx
  | .requestChain blockIds => .ok (handleRequestChain core blockIds s ctx)
  | .responseChainEntry arg => .ok (handleResponseChainEntry cfg core arg s ctx)

end Handler

end ProtocolHandler

end Pebblecoin
