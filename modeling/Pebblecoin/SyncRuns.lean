import Pebblecoin.BlockAnswers

/-!
Whole runs of a connection over a node, beside whatever else the node does.
-/

namespace Pebblecoin

open Control Wire
open Wallet2 (blockId)

theorem getBlockHash_of_parse (crypto : Crypto) {blob : Bytes} {b : Block}
    (h : parseAndValidateBlockFromBlob blob = some b) : ∃ id, getBlockHash crypto b = some id := by
  unfold parseAndValidateBlockFromBlob parseBlock at h
  split at h
  · rename_i f hread
    obtain rfl := Option.some.inj h
    obtain ⟨⟨-, hversion⟩, -, -, -, -, hminer, -, -⟩ := blockCodec.valid_of_read hread
    have hheader : serializeBlockHeader (Block.ofFields .unread f).toBlockHeader = some _ :=
      if_pos (of_decide_eq_true hversion)
    obtain ⟨txHash, htx⟩ : ∃ txHash,
        getTransactionHash crypto (Block.ofFields .unread f).minerTx = some txHash :=
      ⟨_, congrArg (Option.map crypto.cnFastHash) (serializeTransaction_ofFields hminer)⟩
    simp only [getBlockHash, getBlockHashingBlob, getTxTreeHash, hheader, htx]
    exact ⟨_, rfl⟩
  · cases h

namespace Node

section Laws

variable {env : Env} {trustedPubKey : PublicKey} {now : UInt64} {fuel : Nat}

/-- The core has an answer for the block in the blob. -/
def Heard (env : Env) (node : Node) (blob : Bytes) : Prop :=
  ∀ b, parseAndValidateBlockFromBlob blob = some b → node.storage.Answering env b

theorem haveBlock_of_bodiesGrow {s s' : Storage} (h : Storage.BodiesGrow s s') {id : Hash}
    (hid : s.haveBlock id = true) : s'.haveBlock id = true := by
  obtain ⟨b, hb⟩ := Option.isSome_iff_exists.mp hid
  rw [Storage.haveBlock, h id b hb]
  rfl

variable (now) in
theorem call_keeps (op : Op) {s s' : Storage} (hs : s.Reachable env)
    (h : s.call env now op = .ok s') :
    s'.Reachable env ∧ ∀ id, s.haveBlock id = true → s'.haveBlock id = true := by
  obtain ⟨hcalm, hrun⟩ := Storage.uninterrupted_of_call h
  exact ⟨hs.call now op h,
    fun id => haveBlock_of_bodiesGrow (Storage.run_bodiesGrow hs.sound hcalm hrun)⟩

theorem core_laws : ProtocolHandler.CoreLaws env.crypto (core env trustedPubKey now fuel)
    (fun node => node.storage.Reachable env) (Heard env) where
  tx := by
    intro blob kept node tvc node' hs h
    obtain ⟨⟨added, tvc', s⟩, htx, h⟩ := bind_eq_ok_iff.mp h
    obtain ⟨-, rfl⟩ := Prod.mk.inj (Except.ok.inj h)
    exact call_keeps now (.handleIncomingTx blob kept) hs
      (map_eq_ok_iff.mpr ⟨_, mapError_eq_ok_iff.mp htx, rfl⟩)
  block := by
    intro blob node bvc node' hs h
    simp only [core, handleIncomingBlock] at h
    split at h
    · cases h
      exact ⟨hs, .refl _⟩
    split at h
    · cases h
      exact ⟨hs, .refl _⟩
    rename_i b hparse
    obtain ⟨⟨exit, s⟩, hadd, h⟩ := bind_eq_ok_iff.mp h
    obtain ⟨-, rfl⟩ := Prod.mk.inj (Except.ok.inj h)
    exact call_keeps now (.addNewBlock fuel b) hs
      (map_eq_ok_iff.mpr ⟨_, mapError_eq_ok_iff.mp hadd, rfl⟩)
  signed := by
    intro entry node node' hs h
    simp only [core, addSignedLonghash] at h
    split at h
    · obtain rfl := Option.some.inj h
      exact call_keeps now (.learnLonghash entry.blockId (some entry.workHash)) hs rfl
    · cases h
  heard := by
    intro blob node bvc node' b hs hheard h hmissing hfailed horphaned hparse
    simp only [core, handleIncomingBlock, hparse] at h
    split at h
    · cases h
      cases hfailed
    obtain ⟨⟨exit, s⟩, hadd, h⟩ := bind_eq_ok_iff.mp h
    obtain ⟨rfl, rfl⟩ := Prod.mk.inj (Except.ok.inj h)
    obtain ⟨id, hid⟩ := getBlockHash_of_parse env.crypto hparse
    rcases (hheard b hparse).addNewBlock hs.sound hid (mapError_eq_ok_iff.mp hadd) with h | h | h
    · rw [hfailed] at h
      cases h
    · rw [horphaned] at h
      cases h
    · rw [blockId, hid]
      exact h

end Laws

end Node

/-- A connection of a node, with the ids that have been listed since it started to
synchronize. -/
structure Connection where
  context : ConnectionContext
  node : Node
  dropped : Bool
  listed : List Hash

/-- An event on the connection, or something that the node does for another reason. -/
inductive Activity where
  | event (now : UInt64) (fuel : Nat) (event : ConnectionEvent)
  | elsewhere (now : UInt64) (op : Op)

namespace Connection

open ProtocolHandler

def fresh (node : Node) : Connection := ⟨.initial, node, false, []⟩

section Runs

variable (env : Env) (trustedPubKey : PublicKey) (cfg : HandlerConfig)

/-- Messages that arrive with the one that drops the connection are still handled.  An
exception in one of them ends the connection. -/
def step (activity : Activity) (c : Connection) : Except Thrown Connection :=
  match activity with
  | .event now fuel event => do
    let core := Node.core env trustedPubKey now fuel
    let r ← handle env.crypto cfg core event c.node c.context
    .ok {
      context := r.context
      node := r.core
      dropped := c.dropped || r.dropped
      listed :=
        if c.context.state = .synchronizing then c.listed ++ acceptedIds core c.node event
        else [] }
  | .elsewhere now op => do
    let s ← c.node.storage.step env now op
    .ok { c with node := { c.node with storage := s } }

def run : List Activity → Connection → Except Thrown Connection
  | [], c => .ok c
  | activity :: rest, c => do run rest (← c.step env trustedPubKey cfg activity)

/-- The connection has not been dropped before the event, and the core has an answer
for the blocks that the event delivers.  What the node does elsewhere is not interrupted by
an exception after it has changed something. -/
def Answered (c : Connection) : Activity → Prop
  | .event now fuel event => c.dropped = false ∧
      HeardEvent (Node.core env trustedPubKey now fuel) (Node.Heard env) c.node event
  | .elsewhere now op => ∀ e, c.node.storage.call env now op = .error e →
      e.storage = c.node.storage

def AnsweredRun : List Activity → Connection → Prop
  | [], _ => True
  | activity :: rest, c => c.Answered env trustedPubKey activity ∧
      ∀ c', c.step env trustedPubKey cfg activity = .ok c' → AnsweredRun rest c'

variable {env trustedPubKey cfg} {activity : Activity} {c c' : Connection}

/-- While the connection synchronizes, what was listed is there, needed or requested. -/
structure Kept (env : Env) (c : Connection) : Prop where
  reachable : c.node.storage.Reachable env
  tracked : c.context.state = .synchronizing → c.dropped = false →
    ∀ id ∈ c.listed, c.node.storage.haveBlock id = true ∨ id ∈ c.context.neededObjects ∨
      id ∈ c.context.requestedObjects

/-- The connection comes from synchronizing only if everything listed is there. -/
def SettledIfNormal (c c' : Connection) : Prop :=
  c.context.state = .synchronizing → c'.context.state = .normal →
    (∀ id ∈ c'.listed, c'.node.storage.haveBlock id = true) ∧ c'.context.requestedObjects = ∅

theorem Kept.step (h : c.Kept env) (hanswered : c.Answered env trustedPubKey activity)
    (hstep : c.step env trustedPubKey cfg activity = .ok c') : c'.Kept env ∧ c.SettledIfNormal c' := by
  cases activity with
  | event now fuel event =>
    obtain ⟨hdropped, hheard⟩ := hanswered
    obtain ⟨r, hr, hc'⟩ := bind_eq_ok_iff.mp hstep
    obtain rfl := Except.ok.inj hc'
    have hinv := handle_inv Node.core_laws h.reachable hheard hr
    by_cases hstate : c.context.state = .synchronizing
    · have hfollows := (handle_follows Node.core_laws h.reachable hheard hstate
        (h.tracked hstate hdropped) hr).2
      simp only [SettledIfNormal, hstate, if_true]
      rcases hfollows with ⟨hdrop, hsame⟩ | hidle | ⟨htracked, hsame | ⟨hnormal, hsettled⟩⟩
      · refine ⟨⟨hinv, fun _ hkept => ?_⟩, fun _ hnormal => ?_⟩
        · simp [hdrop] at hkept
        · rw [hsame, hstate] at hnormal
          cases hnormal
      · refine ⟨⟨hinv, fun hsync _ => ?_⟩, fun _ hnormal => ?_⟩
        · rw [hidle] at hsync
          cases hsync
        · rw [hidle] at hnormal
          cases hnormal
      · refine ⟨⟨hinv, fun _ _ => htracked⟩, fun _ hnormal => ?_⟩
        rw [hsame, hstate] at hnormal
        cases hnormal
      · exact ⟨⟨hinv, fun _ _ => htracked⟩, fun _ _ => hsettled⟩
    · refine ⟨⟨hinv, fun _ _ id hid => ?_⟩, fun hsync => absurd hsync hstate⟩
      rw [if_neg hstate] at hid
      cases hid
  | elsewhere now op =>
    obtain ⟨s, hs, hc'⟩ := bind_eq_ok_iff.mp hstep
    obtain rfl := Except.ok.inj hc'
    obtain ⟨hreachable, hkeeps⟩ : s.Reachable env ∧
        ∀ id, c.node.storage.haveBlock id = true → s.haveBlock id = true := by
      rcases Storage.step_cases hanswered hs with hcall | rfl
      · exact Node.call_keeps _ op h.reachable hcall
      · exact ⟨h.reachable, fun _ hid => hid⟩
    refine ⟨⟨hreachable, fun hstate hdropped id hid => ?_⟩, fun hsync hnormal => ?_⟩
    · exact (h.tracked hstate hdropped id hid).imp_left (hkeeps id)
    · rw [hsync] at hnormal
      cases hnormal

theorem Kept.run {activities rest : List Activity} (h : c.Kept env)
    (hanswered : c.AnsweredRun env trustedPubKey cfg (activities ++ rest))
    (hrun : c.run env trustedPubKey cfg activities = .ok c') :
    c'.Kept env ∧ c'.AnsweredRun env trustedPubKey cfg rest := by
  induction activities generalizing c with
  | nil =>
    cases hrun
    exact ⟨h, hanswered⟩
  | cons activity activities ih =>
    obtain ⟨c₁, hstep, hrun⟩ := bind_eq_ok_iff.mp hrun
    exact ih (h.step hanswered.1 hstep).1 (hanswered.2 c₁ hstep) hrun

theorem kept_fresh {node : Node} (h : node.storage.Reachable env) : (fresh node).Kept env :=
  ⟨h, fun _ _ _ hid => (nomatch hid)⟩

/-- In a run in which the core has an answer for every delivered block, and no event
follows one that drops the connection, the connection becomes synchronized only when
the node has every block that was listed and waits for none. -/
theorem synchronized_has_listed {node : Node} (hnode : node.storage.Reachable env)
    {activities : List Activity}
    (hanswered : (fresh node).AnsweredRun env trustedPubKey cfg (activities ++ [activity]))
    (hrun : (fresh node).run env trustedPubKey cfg activities = .ok c)
    (hstep : c.step env trustedPubKey cfg activity = .ok c')
    (hbefore : c.context.state = .synchronizing) (hafter : c'.context.state = .normal) :
    (∀ id ∈ c'.listed, c'.node.storage.haveBlock id = true) ∧ c'.context.requestedObjects = ∅ := by
  obtain ⟨hkept, hlast⟩ := (kept_fresh hnode).run hanswered hrun
  exact (hkept.step hlast.1 hstep).2 hbefore hafter

theorem AnsweredRun.cons {rest : List Activity} (h : c.Answered env trustedPubKey activity)
    (hstep : c.step env trustedPubKey cfg activity = .ok c')
    (hrest : c'.AnsweredRun env trustedPubKey cfg rest) :
    c.AnsweredRun env trustedPubKey cfg (activity :: rest) := by
  refine ⟨h, fun c₁ hstep' => ?_⟩
  rw [← Except.ok.inj (hstep.symm.trans hstep')]
  exact hrest

theorem not_dropped_of_step (hstep : c.step env trustedPubKey cfg activity = .ok c')
    (h : c'.dropped = false) : c.dropped = false := by
  cases activity with
  | event now fuel event =>
    obtain ⟨r, -, hc'⟩ := bind_eq_ok_iff.mp hstep
    rw [← Except.ok.inj hc'] at h
    exact (Bool.or_eq_false_iff.mp h).1
  | elsewhere now op =>
    obtain ⟨s, -, hc'⟩ := bind_eq_ok_iff.mp hstep
    rw [← Except.ok.inj hc'] at h
    exact h

theorem answered_of_tail {now : UInt64} {fuel : Nat} {blob : Bytes} {height : UInt64}
    (hdropped : c.dropped = false)
    (htail : (parseAndValidateBlockFromBlob blob).map (·.prevId) = some c.node.storage.getTailId) :
    c.Answered env trustedPubKey
      (.event now fuel (.responseGetObjects ⟨[⟨blob, []⟩], [], [], height⟩)) := by
  refine ⟨hdropped, fun node hnode node' hnode' => ⟨fun b hparse _ _ _ hne => absurd ?_ hne, ?_⟩⟩
  · obtain rfl : c.node = node := (Prod.mk.inj hnode).2
    obtain rfl : c.node = node' := (Prod.mk.inj (Except.ok.inj hnode')).2
    rw [hparse] at htail
    exact Option.some.inj htail
  · exact fun _ _ _ => trivial

end Runs

section Samples

open Storage

def sampleTimedBlock (height timestamp : UInt64) (prevId : Hash) : Block :=
  sampleBlock 1 height timestamp prevId [⟨sampleReward, .toKey (Blob.ofNat 32 1)⟩]

/-- The first chain has two blocks, the second of which there is in two versions. -/
def sampleOldBlock : Block := sampleTimedBlock 1 101 (sampleId sampleGenesis)
def sampleOldTop : Block := sampleTimedBlock 2 102 (sampleId sampleOldBlock)
def sampleStaleBlock : Block := sampleTimedBlock 2 103 (sampleId sampleOldBlock)

/-- The second chain has three blocks and ends in a checkpoint. -/
def sampleNewBlocks : List Block :=
  let b₁ := sampleTimedBlock 1 201 (sampleId sampleGenesis)
  let b₂ := sampleTimedBlock 2 202 (sampleId b₁)
  [b₁, b₂, sampleTimedBlock 3 203 (sampleId b₂)]

def sampleNewTop : Hash := (sampleNewBlocks.getLast?.map sampleId).getD nullHash

def sampleCheckpointEnv : Env :=
  { samplePowEnv with checkpoints := ⟨[(3, sampleNewTop)], by simp⟩ }

/-- The second chain takes over and the first is forgotten, but not the block on it. -/
def sampleStaleOps : List (UInt64 × Op) :=
  ([sampleOldBlock, sampleOldTop, sampleStaleBlock] ++ sampleNewBlocks).map fun b =>
    (1000, .addNewBlock 10 b)

def sampleStale : Storage :=
  (play sampleCheckpointEnv 1000 sampleGenesis sampleStaleOps).getD Storage.empty

theorem sampleStale_reachable : sampleStale.Reachable sampleCheckpointEnv :=
  (reachedBy_of_play (by decide +kernel) :
    sampleStale.ReachedBy sampleCheckpointEnv sampleGenesis sampleStaleOps).reachable

/-- A peer announces a block and lists it. -/
def sampleAnnouncement (b : Block) : List Activity :=
  [.event 1000 10 (.syncData ⟨2, sampleId b⟩ true),
    .event 1000 10 (.responseChainEntry ⟨0, 2, [sampleId sampleGenesis, sampleId b]⟩)]

/-- Then it sends the block. -/
def sampleDelivery (b : Block) : Activity :=
  .event 1000 10 (.responseGetObjects ⟨[⟨(serializeBlock b).getD [], []⟩], [], [], 2⟩)

def sampleRun (activities : List Activity) : Except Thrown Connection :=
  (fresh (sampleNode sampleStale)).run sampleCheckpointEnv nullHash sampleHandlerConfig activities

def sampleAnnounced (b : Block) : Connection :=
  resultD (sampleRun (sampleAnnouncement b)) (fresh (sampleNode sampleStale))

def sampleDelivered (b : Block) : Connection :=
  resultD ((sampleAnnounced b).step sampleCheckpointEnv nullHash sampleHandlerConfig
    (sampleDelivery b)) (fresh (sampleNode sampleStale))

def sampleNextBlock : Block := sampleTimedBlock 4 204 sampleNewTop

/-- The block extends the forgotten chain, under a height above the checkpoint. -/
def sampleUnansweredBlock : Block := sampleTimedBlock 100 300 (sampleId sampleStaleBlock)

/-- The branch of the delivered block is not connected any more, which the core does
not answer: the connection is synchronized without the block. -/
theorem synchronized_without_listed :
    sampleRun (sampleAnnouncement sampleUnansweredBlock) =
      .ok (sampleAnnounced sampleUnansweredBlock) ∧
    (sampleAnnounced sampleUnansweredBlock).step sampleCheckpointEnv nullHash sampleHandlerConfig
      (sampleDelivery sampleUnansweredBlock) = .ok (sampleDelivered sampleUnansweredBlock) ∧
    sampleStale.Reachable sampleCheckpointEnv ∧
    (sampleAnnounced sampleUnansweredBlock).context.state = .synchronizing ∧
    (sampleDelivered sampleUnansweredBlock).context.state = .normal ∧
    (sampleDelivered sampleUnansweredBlock).dropped = false ∧
    sampleId sampleUnansweredBlock ∈ (sampleDelivered sampleUnansweredBlock).listed ∧
    (sampleDelivered sampleUnansweredBlock).node.storage.haveBlock
      (sampleId sampleUnansweredBlock) = false :=
  ⟨eq_ok_of_isOk _ (by decide +kernel), eq_ok_of_isOk _ (by decide +kernel),
    sampleStale_reachable, by decide +kernel, by decide +kernel, by decide +kernel,
    by decide +kernel, by decide +kernel⟩

theorem synchronized_has_listed_of_sampleNextBlock :
    ∃ c c', sampleRun (sampleAnnouncement sampleNextBlock) = .ok c ∧
      c.step sampleCheckpointEnv nullHash sampleHandlerConfig (sampleDelivery sampleNextBlock) =
        .ok c' ∧
      c.context.state = .synchronizing ∧ c'.context.state = .normal ∧
      sampleId sampleNextBlock ∈ c'.listed ∧
      (∀ id ∈ c'.listed, c'.node.storage.haveBlock id = true) ∧
      c'.context.requestedObjects = ∅ := by
  have hrun : sampleRun (sampleAnnouncement sampleNextBlock) = .ok (sampleAnnounced sampleNextBlock) :=
    eq_ok_of_isOk _ (by decide +kernel)
  have hstep : (sampleAnnounced sampleNextBlock).step sampleCheckpointEnv nullHash
      sampleHandlerConfig (sampleDelivery sampleNextBlock) = .ok (sampleDelivered sampleNextBlock) :=
    eq_ok_of_isOk _ (by decide +kernel)
  have hbefore : (sampleAnnounced sampleNextBlock).context.state = .synchronizing := by
    decide +kernel
  have hafter : (sampleDelivered sampleNextBlock).context.state = .normal := by decide +kernel
  have hlast : (sampleAnnounced sampleNextBlock).Answered sampleCheckpointEnv nullHash
      (sampleDelivery sampleNextBlock) := answered_of_tail (by decide +kernel) (by decide +kernel)
  obtain ⟨c₁, hfirst, hrest⟩ := bind_eq_ok_iff.mp hrun
  obtain ⟨c₂, hsecond, hnil⟩ := bind_eq_ok_iff.mp hrest
  have hc₂ := Except.ok.inj hnil
  have hanswered : (fresh (sampleNode sampleStale)).AnsweredRun sampleCheckpointEnv nullHash
      sampleHandlerConfig (sampleAnnouncement sampleNextBlock ++ [sampleDelivery sampleNextBlock]) := by
    refine .cons ⟨rfl, trivial⟩ hfirst (.cons ⟨?_, trivial⟩ hsecond ⟨?_, fun _ _ => trivial⟩)
    · rw [← hc₂] at hlast
      exact not_dropped_of_step hsecond hlast.1
    · rw [hc₂]
      exact hlast
  have hnode : (sampleNode sampleStale).storage.Reachable sampleCheckpointEnv := by
    rw [sampleNode_storage]
    exact sampleStale_reachable
  exact ⟨_, _, hrun, hstep, hbefore, hafter, by decide +kernel,
    synchronized_has_listed hnode hanswered hrun hstep hbefore hafter⟩

end Samples

end Connection

end Pebblecoin
