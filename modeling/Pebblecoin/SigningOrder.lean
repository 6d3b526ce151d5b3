import Pebblecoin.MissedBlocks
import Pebblecoin.RunRecords
import Pebblecoin.Containers.Rotation

/-!
Whose turn it is: the top delegates sign in cyclic order of their ids, one slot each, and
the slots that pass unused are counted as missed.
-/

namespace Pebblecoin

open Containers Control

/-- The place of the first id above the given one, or the first place if there is none. -/
def firstAfter (ids : List DelegateId) (prev : DelegateId) : Nat :=
  let place := ids.findIdx fun id => decide (prev < id)
  if place = ids.length then 0 else place

theorem nthSortedItemAfter_succ {ids : List DelegateId} (hids : ids ≠ []) (prev : DelegateId)
    (n : Nat) :
    nthSortedItemAfter ids (prev + 1) n = .ok (cyclicGet ids 0 (firstAfter ids prev) n) := by
  have hempty : ids.isEmpty = false := by simpa using hids
  rw [nthSortedItemAfter, hempty, if_neg Bool.false_ne_true, cyclicGet]
  rw [firstAfter]
  rcases Nat.lt_or_ge (prev.toNat + 1) (2 ^ 16) with hlt | hge
  · have hsucc : ∀ id : DelegateId, (prev + 1 ≤ id) = (prev < id) := by
      intro id
      rw [UInt16.le_iff_toNat_le, UInt16.lt_iff_toNat_lt, UInt16.toNat_add, UInt16.toNat_one,
        Nat.mod_eq_of_lt hlt]
      exact propext Nat.succ_le_iff
    simp only [hsucc]
  · have hmax : prev.toNat = 2 ^ 16 - 1 := by
      have := prev.toNat_lt
      omega
    have hzero : prev + 1 = 0 := by
      rw [← UInt16.toNat_inj, UInt16.toNat_add, hmax]
      rfl
    have hnone : (ids.findIdx fun id => decide (prev < id)) = ids.length := by
      rw [List.findIdx_eq_length]
      intro id _
      rw [decide_eq_false_iff_not, UInt16.lt_iff_toNat_lt, hmax]
      have := id.toNat_lt
      omega
    rw [hnone, if_pos rfl, hzero]
    cases ids with
    | nil => exact absurd rfl hids
    | cons id ids => simp [List.findIdx_cons]

namespace Storage

variable {env : Env} {now : UInt64} {s s' : Storage} {bl prev : Block} {id : Hash}

theorem nthDelegateAfter_succ (hids : s.topDelegates.elems ≠ []) (signer : DelegateId) (n : Nat) :
    s.nthDelegateAfter (signer + 1) n =
      .ok (cyclicGet s.topDelegates.elems 0 (firstAfter s.topDelegates.elems signer) n) :=
  nthSortedItemAfter_succ hids signer n

theorem getSigningDelegate_eq_some {stamp : UInt64} {d : DelegateId} (hpos : isPosBlock prev = true)
    (h : s.getSigningDelegate env prev stamp = .ok (some d)) :
    s.ledger.delegates.toList ≠ [] ∧
      prev.timestamp + cryptonoteDposBlockMinimumBlockSpacing ≤ stamp ∧
      getBlockHeight prev ≠ UInt64.ofNat env.config.dposSwitchBlock - 1 ∧
      s.nthDelegateAfter (prev.signingDelegateId + 1)
        ((stamp - prev.timestamp) / dposDelegateSlotTime).toNat = .ok d := by
  have hpow : isPowBlock prev = false := by rw [isPowBlock_eq_not_isPosBlock, hpos]; rfl
  unfold getSigningDelegate at h
  split at h
  · cases h
  rename_i hsome
  split at h
  · cases h
  rename_i hspaced
  dsimp only at h
  rw [hpow] at h
  split at h
  · cases h
  rename_i hswitch
  obtain ⟨d', hd', h⟩ := bind_eq_ok_iff.mp h
  refine ⟨by simpa using hsome, UInt64.not_lt.mp hspaced, hswitch, ?_⟩
  have hd := Except.ok.inj h
  split at hd
  · exact hd'.trans (congrArg _ (Option.some.inj hd))
  · cases hd

theorem checkProof_eq_none (hbl : isPosBlock bl = true)
    (hzone : env.checkpoints.isInCheckpointZone s.getCurrentBlockchainHeight = false)
    (h : s.checkProof env bl id = .ok none) :
    ∃ prev, s.blocksByHash bl.prevId = some prev ∧
      s.getSigningDelegate env prev bl.timestamp = .ok (some bl.signingDelegateId) := by
  have hpow : isPowBlock bl = false := by rw [isPowBlock_eq_not_isPosBlock, hbl]; rfl
  rw [checkProof, hzone, if_neg Bool.false_ne_true] at h
  obtain ⟨proof, hproof, h⟩ := map_eq_ok_iff.mp h
  obtain rfl := HandleExit.ofProof_eq_none_iff.mp h
  rw [checkPowPos, hpow, if_neg Bool.false_ne_true] at hproof
  split at hproof
  · cases hproof
  rename_i prev hprev
  obtain ⟨d, hd, hproof⟩ := bind_eq_ok_iff.mp hproof
  refine ⟨prev, hprev, ?_⟩
  cases d with
  | none => cases hproof
  | some d =>
    have hsigned := ProofCheck.ofBool_eq_passed_iff.mp (Except.ok.inj hproof)
    simp only [Bool.and_eq_true, decide_eq_true_eq] at hsigned
    rw [← hsigned.1]
    exact hd

/-- The states in which a block may be handed to the main chain: those that the operations
lead to and those that they pass through. -/
inductive Visited (env : Env) : Storage → Prop
  | initial {s : Storage} : s.Initial env → Visited env s
  | receive {now : UInt64} {blob : Wire.Bytes} {kept : Bool} {s : Storage}
      {r : Bool × TxVerificationContext × Storage} : Visited env s →
      s.handleIncomingTx env now blob kept = .ok r → Visited env r.2.2
  | learn {id : Hash} {longhash : Option Hash} {s : Storage} : Visited env s →
      Visited env (s.learnLonghash id longhash)
  | act {now : UInt64} {s s' : Storage} : Visited env s → Action env (fun _ => True) now s s' →
      Visited env s'

theorem Visited.sound (h : Visited env s) : s.Sound env := by
  induction h with
  | initial hinit => exact hinit.sound
  | receive _ hrun ih => exact (handleIncomingTx_sound _ _ ih).out _ hrun
  | learn _ ih => exact ih.learnLonghash _ _
  | act _ haction ih => exact haction.sound ih

theorem Reachable.visited (h : s.Reachable env) : Visited env s := by
  obtain ⟨s₀, ops, hinit, hcalm, hrun⟩ := h
  refine (run_invariant (fun _ => True) (fun _ => True) (fun _ _ => True) (Visited env) ?_ ?_
    (fun _ hs => .learn hs) hinit.sound (.initial hinit) (fun op _ => ?_) hcalm hrun).2
  · exact fun _ _ hs hr => .receive hs hr
  · exact fun _ hs haction => .act hs haction
  · cases op.2 <;> trivial

/-- If delegates have to sign from the genesis block on and no checkpoint lets a second
block pass, the chain stays as it is: there is no delegate. -/
structure Alone (env : Env) (s : Storage) : Prop where
  length : s.entries.length = 1
  delegates : s.ledger.delegates.toList = []

theorem Initial.alone (h : s.Initial env) : Alone env s := by
  obtain ⟨now, genesis, id, taken, l, fee, base, prev, -, happ⟩ := h.appended
  have hlength : s.entries.length = 1 := by simp [happ.entries, Storage.empty]
  have htaken : taken = [] := by
    refine List.eq_nil_iff_forall_not_mem.mpr fun t ht => ?_
    have := happ.inPool t ht
    cases this
  obtain ⟨-, -, -, -, -, hpre⟩ := checkBlockHeader_eq_none happ.header
  obtain ⟨g, hvin, -⟩ := prevalidateMinerTransaction_vin hpre
  have hprev : prev = none := by
    have hprev := happ.prev_eq
    rw [statisticsPrev, hlength, if_neg (by omega)] at hprev
    exact (Except.ok.inj hprev).symm
  obtain ⟨l₀, t, hadd, htxs, rfl⟩ := happ.stages
  have hids : genesis.txHashes = [] := by rw [← happ.ids_eq, htaken, List.map_nil]
  rw [hids, connectTransactions] at htxs
  have ht : t.ledger = l₀ := by
    rw [← (Prod.mk.inj (Except.ok.inj htxs)).2]
  obtain ⟨tables, htables, -, hl₀⟩ := Ledger.addTransactionFromBlock_eq_added hadd
  have hsame : tables = Storage.empty.ledger.toInputTables := by
    rw [hvin] at htables
    exact (Prod.mk.inj htables).2.symm
  refine ⟨hlength, ?_⟩
  rw [(happ.statistics.notDue hprev).1, ht, hl₀, hsame]
  rfl

theorem Alone.congr (h : Alone env s) (hentries : s'.entries = s.entries)
    (hledger : s'.ledger = s.ledger) : Alone env s' :=
  ⟨hentries ▸ h.length, hledger ▸ h.delegates⟩

theorem Alone.handleBlockToMainChain (h : Alone env s) (hswitch : env.config.dposSwitchBlock = 0)
    (hzone : env.checkpoints.isInCheckpointZone 1 = false) {exit : HandleExit}
    (hrun : s.handleBlockToMainChain env now bl id = .ok (exit, s')) : s' = s := by
  obtain ⟨failed, hheader, hrun⟩ := reading_bind_eq_ok_iff.mp hrun
  cases failed with
  | some failed => exact (Prod.mk.inj (Except.ok.inj hrun)).2.symm
  | none =>
    obtain ⟨-, -, htype, -, hproof, -⟩ := checkBlockHeader_eq_none hheader
    have hpos : isPosBlock bl = true := by
      rw [checkBlockType, isPowBlock_eq_not_isPosBlock, Config.inPosEra, hswitch] at htype
      simpa using htype
    have hzone' : env.checkpoints.isInCheckpointZone s.getCurrentBlockchainHeight = false := by
      rw [getCurrentBlockchainHeight, h.length, hzone]
    obtain ⟨prev, -, hsigner⟩ := checkProof_eq_none hpos hzone' hproof
    rw [getSigningDelegate, h.delegates] at hsigner
    cases hsigner

theorem Visited.alone (hswitch : env.config.dposSwitchBlock = 0)
    (hzone : env.checkpoints.isInCheckpointZone 1 = false) (h : Visited env s) : Alone env s := by
  induction h with
  | initial hinit => exact hinit.alone
  | @receive _ blob kept s _ _ hrun ih =>
    have hsame := (handleIncomingTx_sameButPool blob kept s).out _ hrun
    exact ih.congr (by rw [hsame]) (by rw [hsame])
  | learn _ ih => exact ih.congr rfl rfl
  | @act _ s _ hs haction ih =>
    cases haction with
    | connect _ _ _ hrun =>
      rw [ih.handleBlockToMainChain hswitch hzone hrun]
      exact ih
    | disconnect hrun =>
      obtain ⟨bent, hbent⟩ := List.length_eq_one_iff.mp ih.length
      rw [popBlockFromBlockchain, hbent] at hrun
      cases hrun
      exact ih
    | storeBody _ _ _ => exact ih.congr rfl rfl
    | place _ _ _ hplace =>
      obtain ⟨-, rfl⟩ := placeAlternativeBlock_eq_ok hplace
      exact ih.congr rfl rfl
    | markInvalid ids hbody halt =>
      rw [markBranchInvalid_eq ids (hs.sound.alternatives _ _ halt).1 hbody]
      exact ih.congr rfl rfl
    | eraseAlternatives _ => exact ih.congr rfl rfl
    | logSwitchFailed _ _ => exact ih.congr rfl rfl
    | logPushFailed => exact ih.congr rfl rfl

theorem Sound.tail (hs : s.Sound env) (htail : bl.prevId = s.getTailId) :
    ∃ bent, s.entries[s.entries.length - 1]? = some bent ∧ bl.prevId = bent.hash := by
  rw [← List.getLast?_eq_getElem?]
  obtain ⟨bent, hbent⟩ := Option.isSome_iff_exists.mp (List.getLast?_isSome.mpr hs.nonempty)
  refine ⟨bent, hbent, ?_⟩
  rw [htail, getTailId, hbent]
  rfl

theorem Visited.two_le_length (h : Visited env s)
    (hzone : env.checkpoints.isInCheckpointZone s.getCurrentBlockchainHeight = false)
    (hbl : isPosBlock bl = true) (hpos : isPosBlock prev = true)
    (hprev : s.blocksByHash bl.prevId = some prev)
    (hheader : s.checkBlockHeader env now bl id = .ok none) : 2 ≤ s.entries.length := by
  have hs := h.sound
  have hnonempty := List.length_pos_of_ne_nil hs.nonempty
  refine Nat.lt_of_le_of_ne hnonempty fun hone => ?_
  obtain ⟨htail, -, htype, -, hproof, hpre⟩ := checkBlockHeader_eq_none hheader
  obtain ⟨prev', hprev', hsigner⟩ := checkProof_eq_none hbl hzone hproof
  obtain rfl : prev' = prev := Option.some.inj (hprev'.symm.trans hprev)
  obtain ⟨hsome, -, hnotLast, -⟩ := getSigningDelegate_eq_some hpos hsigner
  obtain ⟨bent, hbent, hhash⟩ := hs.tail htail
  obtain ⟨b, hb, hheight⟩ := hs.chain.bodies _ bent hbent
  obtain rfl : b = prev' := Option.some.inj (hb.symm.trans (hhash ▸ hprev'))
  obtain ⟨g, hvin, hg⟩ := prevalidateMinerTransaction_vin hpre
  have hera : env.config.dposSwitchBlock ≤ 1 := by
    rw [checkBlockType, isPowBlock_eq_not_isPosBlock, hbl, Config.inPosEra, getBlockHeight, hvin] at htype
    dsimp only at htype
    rw [hg, ← hone] at htype
    simpa using htype
  rcases Nat.le_one_iff_eq_zero_or_eq_one.mp hera with hswitch | hswitch
  · refine hsome (h.alone hswitch ?_).delegates
    rw [← hzone, getCurrentBlockchainHeight, ← hone]
  · refine hnotLast (UInt64.toNat_inj.mp ?_)
    rw [hheight, hswitch, ← hone]
    rfl

/-- The delegate whose slot is `i` slots after a block of the given signer. -/
def turn (s : Storage) (signer : DelegateId) (i : Nat) : DelegateId :=
  cyclicGet s.topDelegates.elems 0 (firstAfter s.topDelegates.elems signer) i

theorem missedDelegates_eq (hids : s.topDelegates.elems ≠ []) (bl prev : Block) :
    s.missedDelegates bl prev =
      .ok ((List.range ((bl.timestamp - prev.timestamp) / dposDelegateSlotTime).toNat).map
        (s.turn prev.signingDelegateId)) := by
  rw [missedDelegates]
  simp only [nthDelegateAfter_succ hids]
  exact List.mapM_pure

/-- A delegate block that follows another one, outside the checkpoint zone, is signed by the
delegate whose slot it is, and the slots before are counted as missed.  Slots are counted in
64 bits, which makes a difference only if the time of the last block is within seconds of
the end of time. -/
theorem handleBlockToMainChain_turns (hs : Visited env s)
    (hrun : s.handleBlockToMainChain env now bl id = .ok (.added, s'))
    (hzone : env.checkpoints.isInCheckpointZone s.getCurrentBlockchainHeight = false)
    (hprev : s.blocksByHash bl.prevId = some prev) (hpos : isPosBlock prev = true)
    (hbl : isPosBlock bl = true) :
    let n := ((bl.timestamp - prev.timestamp) / dposDelegateSlotTime).toNat
    (prev.timestamp.toNat + 5 < 2 ^ 64 →
      prev.timestamp.toNat + 5 ≤ bl.timestamp.toNat ∧
      n = (bl.timestamp.toNat - prev.timestamp.toNat) / 45) ∧
    (s.topDelegates.elems ≠ [] ∧ s.topDelegates.elems.Pairwise (· < ·) ∧
      bl.signingDelegateId = s.turn prev.signingDelegateId n) ∧
    (∀ d, s'.ledger.delegates.missedBlocks d = s.ledger.delegates.missedBlocks d +
      UInt64.ofNat ((List.range n).countP fun i => s.turn prev.signingDelegateId i = d)) ∧
    ∀ first, ((List.range s.topDelegates.elems.length).map fun i =>
      s.turn prev.signingDelegateId (first + i)).Perm s.topDelegates.elems := by
  intro n
  have hsound := hs.sound
  obtain ⟨taken, l, fee, base, prev?, happ⟩ := hsound.appended hrun
  obtain ⟨htail, -, -, -, hproof, -⟩ := checkBlockHeader_eq_none happ.header
  obtain ⟨prev', hprev', hsigner⟩ := checkProof_eq_none hbl hzone hproof
  obtain rfl : prev' = prev := Option.some.inj (hprev'.symm.trans hprev)
  obtain ⟨-, hspaced, -, hnth⟩ := getSigningDelegate_eq_some hpos hsigner
  have hids : s.topDelegates.elems ≠ [] := by
    intro hnil
    rw [nthDelegateAfter, nthSortedItemAfter, hnil] at hnth
    cases hnth
  have hdue : StatisticsDue bl s prev' := by
    obtain ⟨bent, hbent, hhash⟩ := hsound.tail htail
    rw [← List.getLast?_eq_getElem?] at hbent
    exact ⟨hs.two_le_length hzone hbl hpos hprev happ.header, hbl, hpos, bent, hbent, hhash ▸ hprev⟩
  obtain ⟨missed, hmissed, hledger, -⟩ :=
    happ.statistics.due prev' ((happ.due_iff hsound.toWellFormed prev').mpr hdue)
  rw [missedDelegates_eq hids] at hmissed
  refine ⟨fun hlate => ?_, ⟨hids, OrdSet.elems_sorted _, ?_⟩, fun d => ?_, fun first => ?_⟩
  · have hle : prev'.timestamp.toNat + 5 ≤ bl.timestamp.toNat := by
      rw [UInt64.le_iff_toNat_le, UInt64.toNat_add] at hspaced
      have hfive : cryptonoteDposBlockMinimumBlockSpacing.toNat = 5 := rfl
      omega
    refine ⟨hle, ?_⟩
    have hsub : (bl.timestamp - prev'.timestamp).toNat = bl.timestamp.toNat - prev'.timestamp.toNat :=
      UInt64.toNat_sub_of_le _ _ (UInt64.le_iff_toNat_le.mpr (by omega))
    rw [← hsub]
    exact UInt64.toNat_div _ _
  · rw [nthDelegateAfter_succ hids] at hnth
    exact (Except.ok.inj hnth).symm
  · rw [hledger, Delegates.missedBlocks_countProcessed, Delegates.missedBlocks_countMissed,
      happ.connected.missedBlocks, ← Except.ok.inj hmissed, List.count, List.countP_map]
    congr 3
  · exact map_cyclicGet_perm _ _ _ _

/-- Delegates sign from height 13 on; delegate 7 is registered at height 12. -/
def sampleTurnEnv : Env := { samplePowEnv with config := ⟨false, true, 0, 13, 100⟩ }

def sampleFirstTurn : Block := sampleBlock 2 13 120 (sampleId sampleRegistrationBlock) []

/-- Two slots after the block before. -/
def sampleLateTurn : Block := sampleBlock 2 14 220 (sampleId sampleFirstTurn) []

def sampleTurnOps : List (UInt64 × Op) := sampleSpendingOps ++ [(1000, .addNewBlock 0 sampleFirstTurn)]

def sampleTurn : Storage :=
  (play sampleTurnEnv 1000 sampleGenesis sampleTurnOps).getD Storage.empty

theorem handleBlockToMainChain_turns_of_sampleTurn :
    ∃ s', sampleTurn.handleBlockToMainChain sampleTurnEnv 1000 sampleLateTurn
        (sampleId sampleLateTurn) = .ok (.added, s') ∧
      sampleTurn.ledger.delegates.missedBlocks 7 = 0 ∧
      s'.ledger.delegates.missedBlocks 7 = 0 + 2 := by
  have hreached : sampleTurn.ReachedBy sampleTurnEnv sampleGenesis sampleTurnOps :=
    reachedBy_of_play (by decide +kernel)
  have hrun := eq_ok_of_isOk (x := sampleTurn.handleBlockToMainChain sampleTurnEnv 1000
    sampleLateTurn (sampleId sampleLateTurn)) (.added, Storage.empty) (by decide +kernel)
  have hadded := eq_ok_of_fst hrun (b := .added) (by decide +kernel)
  have hprev : sampleTurn.blocksByHash sampleLateTurn.prevId = some sampleFirstTurn := by
    decide +kernel
  have hmissed := (handleBlockToMainChain_turns hreached.reachable.visited hadded (by decide +kernel)
    hprev rfl rfl).2.2.1 7
  refine ⟨_, hadded, by decide +kernel, hmissed.trans ?_⟩
  decide +kernel

end Storage

end Pebblecoin
