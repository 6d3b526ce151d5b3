import Mathlib.Data.Nat.Count
import Pebblecoin.VotingBatches
import Pebblecoin.Wire.Words

/-!
The transfers that the inputs of one transaction use, for calls in any order.
-/

namespace Pebblecoin

open Containers

namespace WalletTxBuilder

variable {env : WalletEnv} {w w' : Wallet2} {b b' : WalletTxBuilder} {picks : List Nat × List Nat}

/-- Transfers that are used one by one. -/
def singles (b : WalletTxBuilder) : List Nat := b.spendTransferIs ++ b.newMembers

/-- Batches that are used as a whole. -/
def wholes (b : WalletTxBuilder) : List Nat := b.spendBatchIs ++ b.changedBatches

/-- The inputs are those of the recorded choices, and all of them can be used. -/
structure Collected (env : WalletEnv) (w : Wallet2) (b : WalletTxBuilder) : Prop where
  kImages : b.txb.tx.vin.map TxIn.kImage = b.inputs.map (imageOf env.keys w)
  inputs_perm : b.inputs.Perm (b.singles ++ b.wholes.flatMap (unspentMembersOf w))
  singles_unspent : ∀ i ∈ b.singles, unspentIn w i = true ∧ w.batchIndex i = 0
  wholes_open : ∀ j ∈ b.wholes, j ≠ 0 ∧ ∃ i ∈ membersOf w j, unspentIn w i = true

theorem unspentIn_of_unused {i : Nat} (h : Unused w b i) : unspentIn w i = true := by
  obtain ⟨td, htd, hspent⟩ := h.unspent
  rw [unspentIn, htd, Option.any_some, hspent]
  rfl

theorem unspentIn_iff {i : Nat} :
    unspentIn w i = true ↔ ∃ td, w.transfers[i]? = some td ∧ td.spent = false := by
  rw [unspentIn]
  cases w.transfers[i]? <;> simp

theorem Spends.singles_perm (h : Spends env w picks b b') :
    b'.singles.Perm (b.singles ++ picks.1) := by
  have hnew : b'.newMembers = b.newMembers := by rw [newMembers, h.newBatchVotes, newMembers]
  rw [singles, h.spendTransferIs, hnew, singles, List.append_assoc, List.append_assoc]
  exact List.perm_append_comm.append_left _

theorem Spends.wholes_perm (h : Spends env w picks b b') :
    b'.wholes.Perm (b.wholes ++ picks.2) := by
  have hchanged : b'.changedBatches = b.changedBatches := by
    rw [changedBatches, h.changeBatchVotes, changedBatches]
  rw [wholes, h.spendBatchIs, hchanged, wholes, List.append_assoc, List.append_assoc]
  exact List.perm_append_comm.append_left _

theorem Votes.newMembers_eq (h : Votes env w picks b b') :
    b'.newMembers = b.newMembers ++ picks.1 := by
  obtain ⟨more, hmore, hpicks, -⟩ := h.newBatchVotes
  rw [newMembers, hmore, List.flatMap_append, hpicks, newMembers]

theorem Votes.singles_eq (h : Votes env w picks b b') : b'.singles = b.singles ++ picks.1 := by
  rw [singles, h.spendTransferIs, h.newMembers_eq, singles, List.append_assoc]

theorem Votes.wholes_eq (h : Votes env w picks b b') : b'.wholes = b.wholes ++ picks.2 := by
  rw [wholes, h.spendBatchIs, h.changedBatches, wholes, List.append_assoc]

/-- Sending or voting, the choices of a call are recorded. -/
structure Records (picks : List Nat × List Nat) (b b' : WalletTxBuilder) : Prop where
  singles_perm : b'.singles.Perm (b.singles ++ picks.1)
  wholes_perm : b'.wholes.Perm (b.wholes ++ picks.2)

theorem picks_of_perform {c : BuilderCall} (h : (perform env w b c).1 = .ok b') :
    Picks env w (picksOf env w b c) b b' ∧ Records (picksOf env w b c) b b' := by
  rcases perform_eq_ok h with hspends | hvotes
  · exact ⟨hspends.toPicks, hspends.singles_perm, hspends.wholes_perm⟩
  · exact ⟨hvotes.toPicks, List.Perm.of_eq hvotes.singles_eq, List.Perm.of_eq hvotes.wholes_eq⟩

theorem Collected.perform {c : BuilderCall} (hb : Collected env w b)
    (h : (perform env w b c).1 = .ok b') : Collected env w b' := by
  obtain ⟨hpicks, hrecords⟩ := picks_of_perform h
  generalize picksOf env w b c = picks at hpicks hrecords
  refine ⟨?_, ?_, fun i hi => ?_, fun j hj => ?_⟩
  · rw [hpicks.kImages_eq, hpicks.inputs_eq, hb.kImages, ← List.map_append]
  · rw [hpicks.inputs_eq]
    calc (b.inputs ++ (picks.1 ++ picks.2.flatMap (unspentMembersOf w))).Perm
          (b.singles ++ b.wholes.flatMap (unspentMembersOf w) ++
            (picks.1 ++ picks.2.flatMap (unspentMembersOf w))) := hb.inputs_perm.append_right _
      _ |>.Perm (b.singles ++ picks.1 ++
            (b.wholes.flatMap (unspentMembersOf w) ++ picks.2.flatMap (unspentMembersOf w))) := by
          rw [List.append_assoc, List.append_assoc]
          refine List.Perm.append_left _ ?_
          rw [← List.append_assoc, ← List.append_assoc]
          exact List.perm_append_comm.append_right _
      _ |>.Perm (b'.singles ++ b'.wholes.flatMap (unspentMembersOf w)) := by
          rw [← List.flatMap_append]
          exact (hrecords.singles_perm.append (hrecords.wholes_perm.flatMap_right _)).symm
  · rcases List.mem_append.mp (hrecords.singles_perm.mem_iff.mp hi) with hi | hi
    · exact hb.singles_unspent i hi
    · have hunused := hpicks.unused i hi
      exact ⟨unspentIn_of_unused hunused, hunused.unbatched⟩
  · rcases List.mem_append.mp (hrecords.wholes_perm.mem_iff.mp hj) with hj | hj
    · exact hb.wholes_open j hj
    · have hopen := hpicks.batches_open j hj
      exact ⟨hopen.ne_zero, hopen.member⟩

theorem Collected.lookUp (h : Collected env w b) (hw : Wallet2.LooksUp w w') : Collected env w' b where
  kImages := by
    rw [imageOf_lookUp hw]
    exact h.kImages
  inputs_perm := by
    rw [unspentMembersOf_lookUp hw]
    exact h.inputs_perm
  singles_unspent i hi := by
    rw [unspentIn_lookUp hw, hw.batchIndex_eq]
    exact h.singles_unspent i hi
  wholes_open j hj := by
    obtain ⟨hne, i, hi, hunspent⟩ := h.wholes_open j hj
    refine ⟨hne, i, ?_, ?_⟩
    · rwa [membersOf_lookUp hw]
    · rwa [unspentIn_lookUp hw]

/-- No transfer and no batch was chosen twice. -/
def Distinct (b : WalletTxBuilder) : Prop := b.singles.Nodup ∧ b.wholes.Nodup

theorem nodup_flatMap_unspentMembersOf (hw : w.BatchesConsistent) {js : List Nat}
    (hopen : ∀ j ∈ js, j ≠ 0 ∧ ∃ i ∈ membersOf w j, unspentIn w i = true) :
    (js.flatMap (unspentMembersOf w)).Nodup ↔ js.Nodup := by
  rw [List.nodup_flatMap]
  constructor
  · rintro ⟨-, hpairwise⟩
    refine hpairwise.imp_of_mem fun {j j'} hj _ hdisjoint heq => ?_
    obtain ⟨-, i, hi, hunspent⟩ := hopen j hj
    have hmem : i ∈ unspentMembersOf w j := List.mem_filter.mpr ⟨hi, hunspent⟩
    exact hdisjoint hmem (heq ▸ hmem)
  · intro hnodup
    refine ⟨fun j _ => (hw.once j).filter _, hnodup.imp fun {j j'} hne i hi hi' => hne ?_⟩
    exact hw.noOther i j j' (List.mem_filter.mp hi).1 (List.mem_filter.mp hi').1

theorem Collected.nodup_iff (hb : Collected env w b) (hw : w.BatchesConsistent) :
    b.inputs.Nodup ↔ b.Distinct := by
  rw [hb.inputs_perm.nodup_iff, List.nodup_append', nodup_flatMap_unspentMembersOf hw hb.wholes_open]
  refine ⟨fun ⟨hsingles, hwholes, _⟩ => ⟨hsingles, hwholes⟩, fun ⟨hsingles, hwholes⟩ => ?_⟩
  refine ⟨hsingles, hwholes, fun i hi hmem => ?_⟩
  -- A transfer that is used on its own is in no batch.
  obtain ⟨j, hj, hi'⟩ := List.mem_flatMap.mp hmem
  have hne := (hb.wholes_open j hj).1
  have hbatch := (hb.singles_unspent i hi).2
  rw [Wallet2.batchIndex, (hw.mapped_iff i j hne).mpr (List.mem_filter.mp hi').1] at hbatch
  exact hne hbatch

theorem Collected.unspent (hb : Collected env w b) : ∀ i ∈ b.inputs, unspentIn w i = true := by
  intro i hi
  rcases List.mem_append.mp (hb.inputs_perm.mem_iff.mp hi) with hi | hi
  · exact (hb.singles_unspent i hi).1
  · obtain ⟨j, -, hi⟩ := List.mem_flatMap.mp hi
    exact (List.mem_filter.mp hi).2

/-- The choices are not among those that the builder votes with. -/
def Avoids (picks : List Nat × List Nat) (b : WalletTxBuilder) : Prop :=
  (∀ i ∈ picks.1, i ∉ b.newMembers) ∧ ∀ j ∈ picks.2, j ∉ b.changedBatches

theorem distinct_iff {c : BuilderCall} (h : (perform env w b c).1 = .ok b') :
    b'.Distinct ↔ b.Distinct ∧ Avoids (picksOf env w b c) b := by
  obtain ⟨hpicks, hrecords⟩ := picks_of_perform h
  generalize picksOf env w b c = picks at hpicks hrecords
  have hsingles : List.Disjoint b.singles picks.1 ↔ ∀ i ∈ picks.1, i ∉ b.newMembers := by
    refine ⟨fun hdisjoint i hi hmem => hdisjoint (List.mem_append_right _ hmem) hi,
      fun havoids i hi hpick => ?_⟩
    rcases List.mem_append.mp hi with hi | hi
    · exact (hpicks.unused i hpick).notBeingSpent hi
    · exact havoids i hpick hi
  have hwholes : List.Disjoint b.wholes picks.2 ↔ ∀ j ∈ picks.2, j ∉ b.changedBatches := by
    refine ⟨fun hdisjoint j hj hmem => hdisjoint (List.mem_append_right _ hmem) hj,
      fun havoids j hj hpick => ?_⟩
    rcases List.mem_append.mp hj with hj | hj
    · exact (hpicks.batches_open j hpick).notBeingSpent hj
    · exact havoids j hpick hj
  rw [Distinct, hrecords.singles_perm.nodup_iff, hrecords.wholes_perm.nodup_iff, List.nodup_append',
    List.nodup_append', hsingles, hwholes, Distinct, Avoids]
  have hnodup := hpicks.nodup
  have hnodup' := hpicks.batches_nodup
  tauto

/-- No call chooses a transfer or a batch that an earlier call of the row votes with. -/
def AvoidsVotes (env : WalletEnv) : List BuilderCall → Wallet2 → WalletTxBuilder → Prop
  | [], _, _ => True
  | c :: cs, w, b =>
    Avoids (picksOf env w b c) b ∧
      match perform env w b c with
      | (.ok b, w) => AvoidsVotes env cs w b
      | (.error _, _) => True

theorem performAll_eq_ok {cs : List BuilderCall} (hb : Collected env w b)
    (h : performAll env cs w b = (.ok b', w')) :
    Collected env w' b' ∧ (b'.Distinct ↔ b.Distinct ∧ AvoidsVotes env cs w b) := by
  induction cs generalizing w b with
  | nil =>
    obtain ⟨hb', rfl⟩ := Prod.mk.inj h
    obtain rfl := Except.ok.inj hb'
    exact ⟨hb, by simp [AvoidsVotes]⟩
  | cons c cs ih =>
    have hlook := perform_looksUp env w b c
    rw [performAll] at h
    rw [AvoidsVotes]
    split at h
    · cases h
    · rename_i next wnext hc
      have hok : (perform env w b c).1 = .ok next := congrArg Prod.fst hc
      rw [hc] at hlook
      obtain ⟨hlast, hdistinct⟩ := ih ((hb.perform hok).lookUp hlook) h
      refine ⟨hlast, ?_⟩
      rw [hdistinct, distinct_iff hok, and_assoc, hc]

theorem collected_initTx (txkey : TxKey) (unlockTime : UInt64) (extra : Wire.Bytes) :
    Collected env w (initTx txkey unlockTime extra) := by
  refine ⟨rfl, List.Perm.refl _, fun i hi => ?_, fun j hj => ?_⟩
  · cases hi
  · cases hj

def sampleWalletEnv : WalletEnv :=
  ⟨sampleCrypto, Wallet2.sampleKeys, ⟨nullPkey, nullPkey⟩, 120,
    fun _ _ src => src.outputs.map fun _ => Blob.null 64⟩

def sampleTxKey : TxKey := ⟨nullPkey, fun _ _ => some nullPkey⟩

def sampleTransfer (number : Nat) : TransferDetails where
  blockHeight := 0
  fromMinerTx := false
  tx := Wallet2.samplePayment 0 (Blob.ofNat 32 number)
  internalOutputIndex := 0
  globalOutputIndex := 0
  spent := false
  spentByTx := none
  keyImage := Blob.ofNat 32 number

/-- A wallet that has never voted. -/
def sampleVoter (count : Nat) : Wallet2 :=
  { Wallet2.bareWallet (List.replicate 10 nullHash) with
    transfers := (List.range count).map sampleTransfer }

/-- Nothing is mixed, so that the daemon is not asked. -/
def sampleCall : CallSession :=
  ⟨0, fun _ => 0, fun _ _ _ => .error .noConnectionToDaemon, fun _ is => is⟩

def samplePolicy : TxDustPolicy := ⟨0, true, ⟨nullPkey, nullPkey⟩⟩

def sampleVote : BuilderCall := .vote sampleCall ⟨0, 0, samplePolicy, 1, OrdSet.ofElems [1], 1⟩

def sampleSend : BuilderCall :=
  .send sampleCall
    ⟨[⟨cpXpb, 40, ⟨nullPkey, nullPkey⟩⟩], 0, 0, 0, fun dsts change _ => (dsts ++ [change], 0),
      samplePolicy⟩

def sampleSeqs (_ : List KeyImage) : Except BuilderError (KeyImage → UInt64) := .ok fun _ => 0

def sampleCalls (calls : List BuilderCall) (count : Nat) :
    Except BuilderError WalletTxBuilder × Wallet2 :=
  performAll sampleWalletEnv calls (sampleVoter count) (initTx sampleTxKey 0 [])

def sampleBuild (calls : List BuilderCall) (count : Nat) : Except BuilderError WalletTxBuilder :=
  match sampleCalls calls count with
  | (.error e, _) => .error e
  | (.ok b, w) => (finalize sampleWalletEnv w sampleSeqs b).1

theorem sampleVoter_consistent (count : Nat) : (sampleVoter count).BatchesConsistent := by
  have hsound : (sampleVoter count).BatchesSound := VotesInfo.sound_nil
  exact hsound.consistent

theorem exists_of_sampleBuild {calls : List BuilderCall} {count : Nat} {is : List Nat}
    (h : ((sampleBuild calls count).map inputs).toOption = some is) :
    ∃ bcalls w' b, sampleCalls calls count = (.ok bcalls, w') ∧
      (finalize sampleWalletEnv w' sampleSeqs bcalls).1 = .ok b ∧ b.inputs = is := by
  rw [sampleBuild] at h
  rcases hcalls : sampleCalls calls count with ⟨e | bcalls, w'⟩
  · rw [hcalls] at h
    cases h
  · rw [hcalls] at h
    dsimp only at h
    cases hfinal : (finalize sampleWalletEnv w' sampleSeqs bcalls).1 with
    | error e =>
      rw [hfinal] at h
      cases h
    | ok b =>
      rw [hfinal] at h
      exact ⟨bcalls, w', b, rfl, hfinal, Option.some.inj h⟩

/-- The transaction that is built uses different transfers, none of them spent, exactly if no
call chooses what an earlier one votes with. -/
theorem finalized_inputs_iff {calls : List BuilderCall} {txkey : TxKey} {unlockTime : UInt64}
    {extra : Wire.Bytes} {seqs : List KeyImage → Except BuilderError (KeyImage → UInt64)}
    {bcalls : WalletTxBuilder} (hw : w.BatchesConsistent)
    (hcalls : performAll env calls w (initTx txkey unlockTime extra) = (.ok bcalls, w'))
    (hfinal : (finalize env w' seqs bcalls).1 = .ok b) :
    b.txb.tx.vin.map TxIn.kImage = b.inputs.map (imageOf env.keys w) ∧
      ((b.inputs.Nodup ∧ ∀ i ∈ b.inputs, ∃ td, w.transfers[i]? = some td ∧ td.spent = false) ↔
        AvoidsVotes env calls w (initTx txkey unlockTime extra)) := by
  have hlook := performAll_looksUp env calls w (initTx txkey unlockTime extra)
  rw [hcalls] at hlook
  obtain ⟨hinputs, -, hvin⟩ := finalize_eq_ok hfinal
  obtain ⟨hcollected, hdistinct⟩ := performAll_eq_ok (collected_initTx txkey unlockTime extra) hcalls
  have hstart : (initTx txkey unlockTime extra).Distinct := ⟨List.nodup_nil, List.nodup_nil⟩
  refine ⟨?_, ?_⟩
  · rw [hvin, hinputs, hcollected.kImages, imageOf_lookUp hlook]
  · have hunspent : ∀ i ∈ bcalls.inputs, ∃ td, w.transfers[i]? = some td ∧ td.spent = false := by
      intro i hi
      have hopen := hcollected.unspent i hi
      rwa [unspentIn_lookUp hlook, unspentIn_iff] at hopen
    rw [hinputs, and_iff_left hunspent, hcollected.nodup_iff (hlook.batchesConsistent hw), hdistinct,
      and_iff_right hstart]

theorem finalized_inputs_of_send_then_vote :
    (sampleVoter 2).BatchesConsistent ∧
      ∃ bcalls w' b, sampleCalls [sampleSend, sampleVote] 2 = (.ok bcalls, w') ∧
        (finalize sampleWalletEnv w' sampleSeqs bcalls).1 = .ok b ∧ b.inputs = [0, 1] ∧
        AvoidsVotes sampleWalletEnv [sampleSend, sampleVote] (sampleVoter 2)
          (initTx sampleTxKey 0 []) := by
  have hw := sampleVoter_consistent 2
  obtain ⟨bcalls, w', b, hcalls, hfinal, hinputs⟩ :=
    exists_of_sampleBuild (show ((sampleBuild [sampleSend, sampleVote] 2).map inputs).toOption =
      some [0, 1] by decide +kernel)
  refine ⟨hw, bcalls, w', b, hcalls, hfinal, hinputs, ?_⟩
  refine (finalized_inputs_iff hw hcalls hfinal).2.mp ?_
  rw [hinputs]
  refine ⟨by decide, fun i hi => ?_⟩
  rcases List.mem_pair.mp hi with rfl | rfl
  · exact ⟨sampleTransfer 0, rfl, rfl⟩
  · exact ⟨sampleTransfer 1, rfl, rfl⟩

/-- The only transfer is voted with and then spent by the same transaction. -/
theorem vote_then_send_uses_transfer_twice :
    (sampleVoter 1).BatchesConsistent ∧
      ∃ bcalls w' b, sampleCalls [sampleVote, sampleSend] 1 = (.ok bcalls, w') ∧
        (finalize sampleWalletEnv w' sampleSeqs bcalls).1 = .ok b ∧ b.inputs = [0, 0] ∧
        ¬ b.inputs.Nodup := by
  obtain ⟨bcalls, w', b, hcalls, hfinal, hinputs⟩ :=
    exists_of_sampleBuild (show ((sampleBuild [sampleVote, sampleSend] 1).map inputs).toOption =
      some [0, 0] by decide +kernel)
  refine ⟨sampleVoter_consistent 1, bcalls, w', b, hcalls, hfinal, hinputs, ?_⟩
  rw [hinputs]
  decide

theorem avoids_of_no_votes (hnew : b.newMembers = []) (hchanged : b.changedBatches = []) :
    Avoids picks b := by
  rw [Avoids, hnew, hchanged]
  exact ⟨fun _ _ => List.not_mem_nil, fun _ _ => List.not_mem_nil⟩

theorem avoidsVotes_sends {sends : List (CallSession × SendCall)} {votes : Option (CallSession × VoteCall)}
    (hnew : b.newMembers = []) (hchanged : b.changedBatches = []) :
    AvoidsVotes env ((sends.map fun c => .send c.1 c.2) ++ (votes.map fun c => .vote c.1 c.2).toList)
      w b := by
  induction sends generalizing w b with
  | nil =>
    cases votes with
    | none => exact trivial
    | some c =>
      refine ⟨avoids_of_no_votes hnew hchanged, ?_⟩
      split <;> exact trivial
  | cons c sends ih =>
    refine ⟨avoids_of_no_votes hnew hchanged, ?_⟩
    split
    · rename_i next wnext hc
      have hspends := addSend_eq_ok (congrArg Prod.fst hc)
      refine ih ?_ ?_
      · rw [newMembers, hspends.newBatchVotes]
        exact hnew
      · rw [changedBatches, hspends.changeBatchVotes]
        exact hchanged
    · exact trivial

theorem avoidsVotes_calls (t : SentTx) :
    AvoidsVotes env t.calls w (initTx t.txkey t.unlockTime t.extra) :=
  avoidsVotes_sends rfl rfl

/-- The random number reduced by the whole amount. -/
def weightedChoice (w : Wallet2) (random : UInt64) (indices : List Nat) : UInt64 :=
  random % (indices.map w.transferAmount).sum

/-- How many of the reduced numbers draw from the position. -/
def drawShare (w : Wallet2) (indices : List Nat) (i : Nat) : Nat :=
  Nat.count (fun choice => weightedPosition w.transferAmount (UInt64.ofNat choice) indices = some i)
    (indices.map w.transferAmount).sum.toNat

/-- Each position is drawn as often as its amount says, and it alone is taken out. -/
structure DrawsByAmount (w : Wallet2) (indices : List Nat) : Prop where
  share : ∀ i (hi : i < indices.length),
    drawShare w indices i = (w.transferAmount indices[i]).toNat
  removes : ∀ random, ∃ i, ∃ hi : i < indices.length,
    weightedPosition w.transferAmount (weightedChoice w random indices) indices = some i ∧
      popRandomWeightedTransfer w random indices = .ok (indices[i], indices.eraseIdx i)

section

variable {indices : List Nat} (hne : indices ≠ [])
  (hpos : ∀ idx ∈ indices, 0 < (w.transferAmount idx).toNat)
  (hsum : (indices.map fun idx => (w.transferAmount idx).toNat).sum < 2 ^ 64)

include hsum in
theorem toNat_sum_transferAmount :
    (indices.map w.transferAmount).sum.toNat =
      (indices.map fun idx => (w.transferAmount idx).toNat).sum := by
  rw [Wire.toNat_sum_of_lt, List.map_map]
  · rfl
  · rw [List.map_map]
    exact hsum

include hne hpos hsum

theorem sum_transferAmount_pos : 0 < (indices.map w.transferAmount).sum.toNat := by
  rw [toNat_sum_transferAmount hsum]
  obtain ⟨idx, rest, rfl⟩ := List.exists_cons_of_ne_nil hne
  rw [List.map_cons, List.sum_cons]
  have := hpos idx List.mem_cons_self
  omega

theorem popRandomWeightedTransfer_removes (random : UInt64) : ∃ i, ∃ hi : i < indices.length,
    weightedPosition w.transferAmount (weightedChoice w random indices) indices = some i ∧
      popRandomWeightedTransfer w random indices = .ok (indices[i], indices.eraseIdx i) := by
  have hsumPos := sum_transferAmount_pos hne hpos hsum
  have hless : (weightedChoice w random indices).toNat < (indices.map w.transferAmount).sum.toNat := by
    rw [weightedChoice, UInt64.toNat_mod]
    exact Nat.mod_lt _ hsumPos
  rw [toNat_sum_transferAmount hsum] at hless
  obtain ⟨i, hi⟩ := exists_weightedPosition hne (Nat.le_of_lt hless)
  have hlt := weightedPosition_lt hi
  refine ⟨i, hlt, hi, ?_⟩
  have hsumNe : (indices.map w.transferAmount).sum ≠ 0 := by
    intro hzero
    rw [hzero] at hsumPos
    exact Nat.lt_irrefl 0 hsumPos
  have hpop := popWeighted_eq w.transferAmount (weightedChoice w random indices) indices
  rw [hi, Option.bind_some, List.getElem?_eq_getElem hlt, Option.map_some] at hpop
  rw [popRandomWeightedTransfer, if_neg (by simpa using hne)]
  dsimp only
  rw [if_neg hsumNe, ← weightedChoice, hpop]

/-- The comparison lets the first position have one number more than its amount, so the draw
is right only if there is no other position. -/
theorem drawsByAmount_iff : DrawsByAmount w indices ↔ indices.length = 1 := by
  have htotal := toNat_sum_transferAmount hsum
  constructor
  · rintro ⟨hshare, -⟩
    by_contra hlength
    obtain ⟨first, second, rest, rfl⟩ : ∃ first second rest, indices = first :: second :: rest := by
      rcases indices with _ | ⟨first, _ | ⟨second, rest⟩⟩
      · exact absurd rfl hne
      · exact absurd rfl hlength
      · exact ⟨first, second, rest, rfl⟩
    have hsecond := hpos second (List.mem_cons_of_mem _ List.mem_cons_self)
    have hbelow : (w.transferAmount first).toNat + 1 ≤
        ((first :: second :: rest).map w.transferAmount).sum.toNat := by
      rw [htotal, List.map_cons, List.map_cons, List.sum_cons, List.sum_cons]
      omega
    -- all numbers up to the first amount, which is itself among them
    have hall : Nat.count (fun choice => weightedPosition w.transferAmount (UInt64.ofNat choice)
        (first :: second :: rest) = some 0) ((w.transferAmount first).toNat + 1) =
        (w.transferAmount first).toNat + 1 := by
      refine Nat.count_iff_forall.mpr fun choice hchoice => ?_
      have hfits := (w.transferAmount first).toNat_lt
      rw [weightedPosition, if_pos]
      rw [UInt64.le_iff_toNat_le, UInt64.toNat_ofNat', Nat.mod_eq_of_lt (by omega)]
      omega
    have hmore : (w.transferAmount first).toNat + 1 ≤ drawShare w (first :: second :: rest) 0 :=
      hall ▸ Nat.count_monotone _ hbelow
    have hexact : drawShare w (first :: second :: rest) 0 = (w.transferAmount first).toNat :=
      hshare 0 (Nat.zero_lt_succ _)
    omega
  · intro hlength
    obtain ⟨only, rfl⟩ := List.length_eq_one_iff.mp hlength
    refine ⟨fun i hi => ?_, popRandomWeightedTransfer_removes hne hpos hsum⟩
    obtain rfl : i = 0 := Nat.lt_one_iff.mp hi
    have honly : ([only].map w.transferAmount).sum = w.transferAmount only := by simp
    rw [drawShare, honly]
    refine Nat.count_iff_forall.mpr fun choice hchoice => ?_
    have hfits := (w.transferAmount only).toNat_lt
    rw [weightedPosition, if_pos]
    rw [UInt64.le_iff_toNat_le, UInt64.toNat_ofNat', Nat.mod_eq_of_lt (by omega)]
    omega

end

theorem drawsByAmount_of_one : DrawsByAmount (sampleVoter 1) [0] :=
  (drawsByAmount_iff (by decide) (by decide) (by decide)).mpr rfl

/-- Of two transfers of the same amount, one is drawn by two numbers more than the other. -/
theorem uneven_draw_of_two :
    drawShare (sampleVoter 2) [0, 1] 0 = ((sampleVoter 2).transferAmount 0).toNat + 1 ∧
      drawShare (sampleVoter 2) [0, 1] 1 + 1 = ((sampleVoter 2).transferAmount 1).toNat ∧
      ¬ DrawsByAmount (sampleVoter 2) [0, 1] := by
  have hfirst : drawShare (sampleVoter 2) [0, 1] 0 =
      ((sampleVoter 2).transferAmount 0).toNat + 1 := by
    decide +kernel
  refine ⟨hfirst, by decide +kernel, fun hdraws => ?_⟩
  have hexact : drawShare (sampleVoter 2) [0, 1] 0 = ((sampleVoter 2).transferAmount 0).toNat :=
    hdraws.share 0 (by decide)
  omega

end WalletTxBuilder

end Pebblecoin
