import Pebblecoin.ProtocolHandler

/-!
Synchronizing over one connection with a node that keeps its blocks in a storage.
-/

namespace Pebblecoin

open Wire Control

def cryptonoteMaxBlockSize : Nat := 500000000

/-- The answer of the core to a block, as the exits of `add_new_block` set it. -/
def Storage.AddExit.verification : Storage.AddExit → BlockVerificationContext
  | .couldNotHash => ⟨false, false, false, false, false⟩
  | .alreadyExists => ⟨false, false, false, true, false⟩
  | .mainChain .added => ⟨true, false, false, false, false⟩
  | .mainChain .wrongPrevId => ⟨false, false, false, false, false⟩
  | .mainChain .difficultyOverhead => ⟨false, false, false, false, false⟩
  | .mainChain .missingLonghash => ⟨false, true, false, false, true⟩
  | .mainChain _ => ⟨false, true, false, false, false⟩
  | .alternative .switched => ⟨true, false, false, false, false⟩
  | .alternative .addedAsAlternative => ⟨false, false, false, false, false⟩
  | .alternative .orphaned => ⟨false, false, true, false, false⟩
  | .alternative .wrongHeight => ⟨false, false, false, false, false⟩
  | .alternative .wrongConnection => ⟨false, false, false, false, false⟩
  | .alternative .difficultyOverhead => ⟨false, false, false, false, false⟩
  | .alternative .alreadyExists => ⟨false, false, false, false, false⟩
  | .alternative .missingLonghash => ⟨false, true, false, false, true⟩
  | .alternative _ => ⟨false, true, false, false, false⟩

/-- The storage of a node, and the signed hashes it can pass on. -/
structure Node where
  storage : Storage
  signedHashes : Hash → Option SignedHashEntry

namespace Node

section Core

variable (env : Env) (trustedPubKey : PublicKey) (now : UInt64) (fuel : Nat)

def handleIncomingTx (txBlob : Bytes) (keptByBlock : Bool) (node : Node) :
    Except Thrown (TxVerificationContext × Node) := do
  let (_, tvc, s) ← (node.storage.handleIncomingTx env now txBlob keptByBlock).mapError (·.thrown)
  .ok (tvc, { node with storage := s })

def handleIncomingBlock (blockBlob : Bytes) (node : Node) :
    Except Thrown (BlockVerificationContext × Node) :=
  if cryptonoteMaxBlockSize < blockBlob.length then
    .ok (⟨false, true, false, false, false⟩, node)
  else
    match parseAndValidateBlockFromBlob blockBlob with
    | none => .ok (⟨false, true, false, false, false⟩, node)
    | some b => do
      let (exit, s) ← (node.storage.addNewBlock env now fuel b).mapError (·.thrown)
      .ok (exit.verification, { node with storage := s })

def addSignedLonghash (entry : SignedHashEntry) (node : Node) : Option Node :=
  if env.crypto.checkSignature
      (env.crypto.cnFastHash (entry.blockId.bytes ++ entry.workHash.bytes)) trustedPubKey
      entry.sig then
    some {
      storage := node.storage.learnLonghash entry.blockId (some entry.workHash)
      signedHashes := Function.update node.signedHashes entry.blockId (some entry) }
  else none

def core : CoreInterface Node where
  haveBlock node id := node.storage.haveBlock id
  getBlockByHash node id := node.storage.blocksByHash id
  getShortChainHistory node := node.storage.getShortChainHistory
  findBlockchainSupplement node ids := node.storage.findBlockchainSupplementEntry ids
  getCurrentBlockchainHeight node := node.storage.getCurrentBlockchainHeight
  getBlockIdByHeight node height := (node.storage.entries[height]?.map (·.hash)).getD nullHash
  isInCheckpointZone height := env.checkpoints.isInCheckpointZone height
  handleIncomingTx := handleIncomingTx env now
  handleIncomingBlock := handleIncomingBlock env now fuel
  haveSignedLonghashFor node id := (node.signedHashes id).isSome
  addSignedLonghash := addSignedLonghash env trustedPubKey

end Core

end Node

namespace ProtocolHandler

section ChainEntry

variable {σ : Type} (cfg : HandlerConfig) (core : CoreInterface σ)

theorem toNat_lastResponseHeight (start : UInt64) {n : Nat} (hn : 0 < n) :
    (start + UInt64.ofNat n - 1).toNat = (start.toNat + n - 1) % 2 ^ 64 := by
  obtain ⟨m, rfl⟩ := Nat.exists_eq_succ_of_ne_zero hn.ne'
  have hlast : start + UInt64.ofNat (m + 1) - 1 = start + UInt64.ofNat m := by
    rw [UInt64.ofNat_add, ← add_assoc]
    exact add_sub_cancel_right _ _
  rw [Nat.succ_eq_add_one, hlast, UInt64.toNat_add, UInt64.toNat_ofNat', Nat.add_mod_mod]
  rfl

/-- The heights of an accepted entry are as the rest of the handler expects them:
the last listed block is below the height of the peer, so that one can be taken from
it, and the final condition does not fail. -/
def ConsistentChainEntry (arg : ResponseChainEntry) (s : σ) (ctx : ConnectionContext) : Prop :=
  let ctx := recordChainEntry cfg core arg s ctx
  ctx.lastResponseHeight.toNat < ctx.remoteBlockchainHeight.toNat ∧
    (ctx.remoteBlockchainHeight - 1).toNat + 1 = ctx.remoteBlockchainHeight.toNat ∧
    (requestMissingObjects cfg core false false s ctx).1 = true

variable {cfg core} {arg : ResponseChainEntry} {s : σ} {ctx : ConnectionContext}

theorem length_pos_of_acceptsChainEntry (h : acceptsChainEntry core arg s = true) :
    0 < arg.blockIds.length := by
  cases hids : arg.blockIds with
  | nil => simp [acceptsChainEntry, hids] at h
  | cons id rest => exact Nat.succ_pos _

theorem recordChainEntry_neededObjects_eq_nil :
    (recordChainEntry cfg core arg s ctx).neededObjects = [] ↔
      ctx.neededObjects = [] ∧ ∀ id ∈ arg.blockIds, core.haveBlock s id = true := by
  simp [recordChainEntry, List.filter_eq_nil_iff]

theorem requestNeeded_of_nil (h : ctx.neededObjects = []) :
    (requestNeeded cfg ctx).2 = { ctx with
      neededSignedHashes := (requestNeeded cfg ctx).2.neededSignedHashes } := by
  rw [requestNeeded]
  split_ifs
  · rfl
  · simp [h]

/-- The final condition fails if nothing is needed, the last listed block is not the
one before the height of the peer or something else is still requested. -/
theorem requestMissingObjects_eq_true_iff :
    (requestMissingObjects cfg core false false s ctx).1 = true ↔
      (ctx.neededObjects = [] → ctx.remoteBlockchainHeight - 1 ≤ ctx.lastResponseHeight →
        ctx.lastResponseHeight = ctx.remoteBlockchainHeight - 1 ∧ ctx.requestedObjects = ∅) := by
  simp only [requestMissingObjects, Bool.false_eq_true, if_false, Bool.false_or]
  by_cases hneeded : ctx.neededObjects = []
  · rw [requestNeeded_of_nil hneeded]
    simp only [hneeded, List.isEmpty_nil, Bool.not_true, Bool.false_eq_true, if_false, true_and]
    split_ifs with hmore hfinal
    · exact iff_of_true rfl fun _ hle => absurd hmore (not_lt.mpr hle)
    · exact iff_of_true rfl fun _ _ => hfinal
    · exact iff_of_false (by simp) fun h => hfinal (h trivial (not_lt.mp hmore))
  · rw [if_pos (by simpa using hneeded)]
    exact iff_of_true rfl fun h => absurd h hneeded

/-- An accepted entry is consistent exactly if the height that its last block gets
is below the total height, and if nothing is still requested when the entry ends at
the top with known blocks only. -/
theorem consistentChainEntry_iff (h : acceptsChainEntry core arg s = true) :
    ConsistentChainEntry cfg core arg s ctx ↔
      (arg.startHeight.toNat + arg.blockIds.length - 1) % 2 ^ 64 < arg.totalHeight.toNat ∧
      ((arg.startHeight.toNat + arg.blockIds.length - 1) % 2 ^ 64 + 1 = arg.totalHeight.toNat →
        ctx.neededObjects = [] → (∀ id ∈ arg.blockIds, core.haveBlock s id = true) →
        ctx.requestedObjects = ∅) := by
  have hlast := toNat_lastResponseHeight arg.startHeight (length_pos_of_acceptsChainEntry h)
  simp only [ConsistentChainEntry, requestMissingObjects_eq_true_iff,
    recordChainEntry_neededObjects_eq_nil]
  simp only [recordChainEntry, ← hlast]
  generalize arg.startHeight + UInt64.ofNat arg.blockIds.length - 1 = last
  have hone (hpos : 0 < arg.totalHeight.toNat) :
      (arg.totalHeight - 1).toNat = arg.totalHeight.toNat - 1 := by
    have hle : (1 : UInt64) ≤ arg.totalHeight := UInt64.le_iff_toNat_le.mpr hpos
    rw [UInt64.toNat_sub_of_le _ _ hle]
    rfl
  constructor
  · rintro ⟨hlt, -, hfinal⟩
    refine ⟨hlt, fun htop hnil hknown => (hfinal ⟨hnil, hknown⟩ ?_).2⟩
    rw [UInt64.le_iff_toNat_le, hone (by omega)]
    omega
  · rintro ⟨hlt, hrequested⟩
    refine ⟨hlt, by rw [hone (by omega)]; omega, fun hnil hle => ?_⟩
    rw [UInt64.le_iff_toNat_le, hone (by omega)] at hle
    have htop : last.toNat + 1 = arg.totalHeight.toNat := by omega
    refine ⟨UInt64.toNat_inj.mp ?_, hrequested htop hnil.1 hnil.2⟩
    rw [hone (by omega)]
    omega

end ChainEntry

open Storage

/-- A node with the given storage that has no signed hashes. -/
def sampleNode (s : Storage) : Node := ⟨s, fun _ => none⟩

@[simp] theorem sampleNode_storage (s : Storage) : (sampleNode s).storage = s := rfl

def sampleNodeCore : CoreInterface Node := Node.core sampleEnv nullHash 1000 2

def sampleHandlerConfig : HandlerConfig := ⟨false, true, 0⟩

def sampleSynchronizing : ConnectionContext := { ConnectionContext.initial with state := .synchronizing }

theorem consistentChainEntry_of_genesis :
    acceptsChainEntry sampleNodeCore ⟨0, 1, [sampleId sampleGenesis]⟩ (sampleNode sampleReached) =
      true ∧
    ConsistentChainEntry sampleHandlerConfig sampleNodeCore ⟨0, 1, [sampleId sampleGenesis]⟩
      (sampleNode sampleReached) sampleSynchronizing := by
  have haccepts : acceptsChainEntry sampleNodeCore ⟨0, 1, [sampleId sampleGenesis]⟩
      (sampleNode sampleReached) = true := by decide +kernel
  exact ⟨haccepts, (consistentChainEntry_iff haccepts).mpr ⟨by decide, fun _ _ _ => rfl⟩⟩

/-- The entry ends at the total height: it does not drop the connection, but the
final condition fails and the connection stays where it is. -/
theorem chain_entry_at_total_height :
    acceptsChainEntry sampleNodeCore ⟨1, 1, [sampleId sampleGenesis]⟩ (sampleNode sampleReached) =
      true ∧
    (handleResponseChainEntry sampleHandlerConfig sampleNodeCore ⟨1, 1, [sampleId sampleGenesis]⟩
      (sampleNode sampleReached) sampleSynchronizing).dropped = false ∧
    ¬ConsistentChainEntry sampleHandlerConfig sampleNodeCore ⟨1, 1, [sampleId sampleGenesis]⟩
      (sampleNode sampleReached) sampleSynchronizing := by
  refine ⟨by decide +kernel, by decide +kernel, fun h => ?_⟩
  exact absurd h.1 (by decide +kernel)

end ProtocolHandler

end Pebblecoin
