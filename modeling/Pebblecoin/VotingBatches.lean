import Pebblecoin.BuilderCalls
import Pebblecoin.Containers.Filing

/-!
The voting batches of a wallet over whole runs: sent transactions, scanned blocks and
blocks that are given up.
-/

namespace Pebblecoin

open Containers

namespace VotesInfo

/-- The list of a batch; a batch that is not there has no members. -/
def members (v : VotesInfo) (j : Nat) : List Nat := (v.batches[j]?.map (·.transferIndices)).getD []

/-- The map and the lists of the batches agree, for a wallet with `n` transfers. -/
structure Sound (n : Nat) (v : VotesInfo) : Prop where
  filed : Filed v.transferBatchMap v.members
  bounded : ∀ j, ∀ i ∈ v.members j, i < n
  mixed : ∀ batch ∈ v.batches, batch.fakeOuts.length = batch.transferIndices.length

variable {n : Nat} {v : VotesInfo}

theorem Sound.mono {m : Nat} (h : Sound n v) (hle : n ≤ m) : Sound m v :=
  ⟨h.filed, fun j i hi => Nat.lt_of_lt_of_le (h.bounded j i hi) hle, h.mixed⟩

theorem sound_nil : Sound n ⟨[], fun _ => none⟩ := by
  refine ⟨⟨fun i j hj => ?_, fun j => ?_, ?_⟩, fun j i hi => ?_, by simp⟩
  · simp [members]
  · simp [members]
  · simp [members]
  · simp [members] at hi

theorem members_pushVotes (v : VotesInfo) (cbvi : ChangeBatchVoteInfo) :
    (WalletTxBuilder.pushVotes v cbvi).members = v.members := by
  funext j
  rw [members, members, WalletTxBuilder.pushVotes, List.getElem?_modify]
  cases v.batches[j]? with
  | none => rfl
  | some batch => by_cases hj : cbvi.batchI = j <;> simp [hj]

theorem Sound.pushVotes (h : Sound n v) (cbvi : ChangeBatchVoteInfo) :
    Sound n (WalletTxBuilder.pushVotes v cbvi) where
  filed := by
    rw [members_pushVotes]
    exact h.filed
  bounded := by
    rw [members_pushVotes]
    exact h.bounded
  mixed batch hbatch := by
    obtain ⟨j, hj⟩ := List.getElem?_of_mem hbatch
    rw [WalletTxBuilder.pushVotes, List.getElem?_modify] at hj
    obtain ⟨old, hold, rfl⟩ := Option.map_eq_some_iff.mp hj
    have hmixed := h.mixed old (List.mem_of_getElem? hold)
    by_cases hi : cbvi.batchI = j <;> simpa [hi] using hmixed

theorem Sound.foldl_pushVotes (h : Sound n v) (changes : List ChangeBatchVoteInfo) :
    Sound n (changes.foldl WalletTxBuilder.pushVotes v) := by
  induction changes generalizing v with
  | nil => exact h
  | cons cbvi changes ih => exact ih (h.pushVotes cbvi)

theorem foldl_pushVotes_map (changes : List ChangeBatchVoteInfo) (v : VotesInfo) :
    (changes.foldl WalletTxBuilder.pushVotes v).transferBatchMap = v.transferBatchMap := by
  induction changes generalizing v with
  | nil => rfl
  | cons cbvi changes ih => exact ih (WalletTxBuilder.pushVotes v cbvi)

theorem members_pushBatch (v : VotesInfo) (nbvi : NewBatchVoteInfo) (j : Nat) :
    (WalletTxBuilder.pushBatch v nbvi).members j =
      if j = max 1 v.batches.length then nbvi.transferIs else v.members j := by
  rw [members, members, WalletTxBuilder.pushBatch]
  cases hbatches : v.batches with
  | nil =>
    rcases j with _ | _ | j <;> simp
  | cons batch batches =>
    have hmax : max 1 (batch :: batches).length = (batch :: batches).length := by simp
    rw [hmax]
    dsimp only [List.isEmpty_cons]
    rw [if_neg Bool.false_ne_true]
    by_cases hj : j < (batch :: batches).length
    · rw [List.getElem?_append_left hj, if_neg (Nat.ne_of_lt hj)]
    · rw [List.getElem?_append_right (Nat.not_lt.mp hj)]
      by_cases heq : j = (batch :: batches).length
      · simp [heq]
      · have hnone : (batch :: batches)[j]? = none := List.getElem?_eq_none (Nat.not_lt.mp hj)
        rw [if_neg heq, hnone, List.getElem?_eq_none (by simp at hj heq ⊢; omega)]

/-- The members of a new batch are there, in no batch and taken once. -/
structure Fresh (n : Nat) (v : VotesInfo) (nbvi : NewBatchVoteInfo) : Prop where
  nodup : nbvi.transferIs.Nodup
  bounded : ∀ i ∈ nbvi.transferIs, i < n
  unbatched : ∀ i ∈ nbvi.transferIs, (v.transferBatchMap i).getD 0 = 0
  mixed : nbvi.fakeOuts.length = nbvi.transferIs.length

theorem Sound.pushBatch {nbvi : NewBatchVoteInfo} (h : Sound n v) (hnew : Fresh n v nbvi) :
    Sound n (WalletTxBuilder.pushBatch v nbvi) := by
  have hmembers : (WalletTxBuilder.pushBatch v nbvi).members =
      fun j => if j = max 1 v.batches.length then nbvi.transferIs else v.members j :=
    funext (members_pushBatch v nbvi)
  have hmap : (WalletTxBuilder.pushBatch v nbvi).transferBatchMap = fun i =>
      if nbvi.transferIs.contains i then some (max 1 v.batches.length) else v.transferBatchMap i := by
    rw [WalletTxBuilder.pushBatch]
    cases v.batches with
    | nil => rfl
    | cons batch batches => simp
  refine ⟨?_, fun j i hi => ?_, fun batch hbatch => ?_⟩
  · rw [hmembers, hmap]
    refine h.filed.push (by omega) ?_ hnew.nodup hnew.unbatched
    rw [members, List.getElem?_eq_none (by omega)]
    rfl
  · rw [members_pushBatch] at hi
    split at hi
    · exact hnew.bounded i hi
    · exact h.bounded j i hi
  · rcases List.mem_append.mp hbatch with hold | hlast
    · split at hold
      · rw [List.mem_singleton.mp hold]
        rfl
      · exact h.mixed batch hold
    · rw [List.mem_singleton.mp hlast]
      exact hnew.mixed

theorem Sound.foldl_pushBatch {news : List NewBatchVoteInfo} (h : Sound n v)
    (hnodup : (news.flatMap (·.transferIs)).Nodup) (hnew : ∀ nbvi ∈ news, Fresh n v nbvi) :
    Sound n (news.foldl WalletTxBuilder.pushBatch v) := by
  induction news generalizing v with
  | nil => exact h
  | cons nbvi news ih =>
    rw [List.flatMap_cons, List.nodup_append'] at hnodup
    obtain ⟨-, hrest, hdisjoint⟩ := hnodup
    refine ih (h.pushBatch (hnew nbvi List.mem_cons_self)) hrest fun next hnext => ?_
    obtain ⟨hnodup, hbounded, hunbatched, hmixed⟩ := hnew next (List.mem_cons_of_mem nbvi hnext)
    refine ⟨hnodup, hbounded, fun i hi => ?_, hmixed⟩
    -- The batch that was just made has other members.
    have hout : i ∉ nbvi.transferIs := fun hmem =>
      hdisjoint hmem (List.mem_flatMap.mpr ⟨next, hnext, hi⟩)
    rw [WalletTxBuilder.pushBatch]
    simpa [hout] using hunbatched i hi

theorem eraseFromBatch_fst (i : Nat) (is : List Nat) (fakeOuts : List FakeOuts) :
    (Wallet2.eraseFromBatch i is fakeOuts).1 = is.filter (· ≠ i) := by
  induction is generalizing fakeOuts with
  | nil => rfl
  | cons j is ih =>
    rw [Wallet2.eraseFromBatch]
    dsimp only
    split
    · rename_i hj
      rw [ih, List.filter_cons_of_neg (by simp [hj])]
    · rename_i hj
      rw [ih, List.filter_cons_of_pos (by simp [hj])]

theorem eraseFromBatch_length {i : Nat} {is : List Nat} {fakeOuts : List FakeOuts}
    (h : fakeOuts.length = is.length) :
    (Wallet2.eraseFromBatch i is fakeOuts).2.length = (Wallet2.eraseFromBatch i is fakeOuts).1.length := by
  induction is generalizing fakeOuts with
  | nil => exact h
  | cons j is ih =>
    rcases fakeOuts with _ | ⟨fakes, fakeOuts⟩
    · cases h
    have hrest := ih (Nat.succ.inj h)
    rw [Wallet2.eraseFromBatch]
    dsimp only [List.tail_cons]
    split
    · exact hrest
    · simp [hrest]

theorem members_eraseTransfer (i : Nat) (v : VotesInfo) :
    (Wallet2.eraseTransfer i v).members = fun j => (v.members j).filter (· ≠ i) := by
  funext j
  rw [members, members, Wallet2.eraseTransfer, List.getElem?_map]
  cases v.batches[j]? with
  | none => rfl
  | some batch => exact eraseFromBatch_fst i batch.transferIndices batch.fakeOuts

theorem Sound.eraseTransfer (h : Sound n v) (i : Nat) : Sound n (Wallet2.eraseTransfer i v) where
  filed := by
    rw [members_eraseTransfer]
    exact h.filed.erase i
  bounded j k hk := by
    rw [members_eraseTransfer] at hk
    exact h.bounded j k (List.mem_filter.mp hk).1
  mixed batch hbatch := by
    obtain ⟨old, hold, rfl⟩ := List.mem_map.mp hbatch
    exact eraseFromBatch_length (h.mixed old hold)

end VotesInfo

namespace Wallet2

variable {w w' : Wallet2}

/-- The batches agree with the map and with the transfers. -/
def BatchesSound (w : Wallet2) : Prop := w.votesInfo.Sound w.transfers.length

theorem BatchesSound.detachTransfers {i : Nat} {tds : List TransferDetails} {n : Nat}
    (h : w.votesInfo.Sound n) (hn : n ≤ i + tds.length) :
    (w.detachTransfers i tds).2.votesInfo.Sound n ∧
      (w.detachTransfers i tds).2.transfers = w.transfers ∧
      ((w.detachTransfers i tds).1 = none →
        ∀ j, ∀ k ∈ (w.detachTransfers i tds).2.votesInfo.members j, k ∈ w.votesInfo.members j ∧ k < i) := by
  induction tds generalizing i w with
  | nil =>
    refine ⟨h, rfl, fun _ j k hk => ⟨hk, ?_⟩⟩
    exact Nat.lt_of_lt_of_le (h.bounded j k hk) hn
  | cons td tds ih =>
    rw [detachTransfers]
    split
    · exact ⟨h, rfl, fun hnone => by cases hnone⟩
    · rw [List.length_cons] at hn
      obtain ⟨hsound, htransfers, hlow⟩ := ih
        (w := { w with
          keyImages := Function.update w.keyImages td.keyImage none
          votesInfo := eraseTransfer i w.votesInfo }) (i := i + 1) (h.eraseTransfer i) (by omega)
      refine ⟨hsound, htransfers, fun hnone j k hk => ?_⟩
      obtain ⟨hmem, hlt⟩ := hlow hnone j k hk
      dsimp only at hmem
      rw [VotesInfo.members_eraseTransfer] at hmem
      obtain ⟨hmem, hne⟩ := List.mem_filter.mp hmem
      have hne : k ≠ i := of_decide_eq_true hne
      exact ⟨hmem, by omega⟩

theorem BatchesSound.detachBlockchain (h : w.BatchesSound) (height : Nat) :
    (w.detachBlockchain height).2.BatchesSound := by
  rw [Wallet2.detachBlockchain]
  generalize hstart : w.transfers.findIdx (fun td => decide (height ≤ td.blockHeight)) = iStart
  have hle : iStart ≤ w.transfers.length := hstart ▸ List.findIdx_le_length
  have hn : w.transfers.length ≤ iStart + (w.transfers.drop iStart).length := by
    rw [List.length_drop]
    omega
  obtain ⟨hsound, htransfers, hlow⟩ := BatchesSound.detachTransfers h hn
  cases hdetach : w.detachTransfers iStart (w.transfers.drop iStart) with
  | mk e next =>
    rw [hdetach] at hsound htransfers hlow
    dsimp only at hsound htransfers hlow
    cases e with
    | some e =>
      change next.votesInfo.Sound next.transfers.length
      rwa [htransfers]
    | none =>
      refine ⟨hsound.filed, fun j k hk => ?_, hsound.mixed⟩
      change k < (next.transfers.take iStart).length
      rw [htransfers, List.length_take_of_le hle]
      exact (hlow rfl j k hk).2

theorem Grows.batchesSound (h : Grows w w') (hw : w.BatchesSound) : w'.BatchesSound := by
  rw [BatchesSound, h.votesInfo]
  have hle := h.holdings.length_le
  rw [Wallet2.holdings, Wallet2.holdings, List.length_map, List.length_map] at hle
  exact VotesInfo.Sound.mono hw hle

section Scanning

variable (crypto : Crypto) (keys : AccountKeys) (session : Session)

theorem processNewBlockchainEntry_grows (entry : BlockCompleteEntry) (blId : Hash) (height : Nat)
    (w : Wallet2) :
    Grows w (w.processNewBlockchainEntry crypto keys session entry blId height).2 := by
  have hscan : Grows w (w.scanBlock crypto keys session entry height).2 :=
    (scanBlock_scanned entry height w).toGrows
  rw [processNewBlockchainEntry]
  split
  · exact Grows.refl w
  split
  · rename_i e next hnext
    rwa [hnext] at hscan
  · rename_i next hnext
    rw [hnext] at hscan
    refine hscan.trans ?_
    dsimp only
    split
    · exact ⟨rfl, List.prefix_rfl⟩
    · exact ⟨rfl, List.prefix_rfl⟩

end Scanning

theorem LooksUp.map_eq_some_iff (h : LooksUp w w') {i j : Nat} (hj : j ≠ 0) :
    w'.votesInfo.transferBatchMap i = some j ↔ w.votesInfo.transferBatchMap i = some j := by
  obtain ⟨is, rfl⟩ := h
  change (if is.contains i then some (w.batchIndex i) else w.votesInfo.transferBatchMap i) = some j ↔ _
  split
  · rw [batchIndex]
    cases w.votesInfo.transferBatchMap i with
    | none => simp [Ne.symm hj]
    | some k => simp
  · rfl

theorem LooksUp.batchesSound (h : LooksUp w w') (hw : w.BatchesSound) : w'.BatchesSound := by
  have hmembers : w'.votesInfo.members = w.votesInfo.members := by
    funext j
    rw [VotesInfo.members, h.batches, VotesInfo.members]
  refine ⟨?_, ?_, ?_⟩
  · rw [hmembers]
    exact hw.filed.congr_index fun i j hj => h.map_eq_some_iff hj
  · rw [hmembers, h.transfers]
    exact hw.bounded
  · rw [h.batches]
    exact hw.mixed

end Wallet2

namespace WalletTxBuilder

variable {env : WalletEnv} {w w' : Wallet2} {b b' : WalletTxBuilder}

/-- The batches that the builder has made can be written down. -/
structure NewFresh (w : Wallet2) (b : WalletTxBuilder) : Prop where
  nodup : b.newMembers.Nodup
  fresh : ∀ nbvi ∈ b.newBatchVotes, VotesInfo.Fresh w.transfers.length w.votesInfo nbvi

theorem lt_length_of_unused {i : Nat} (h : Unused w b i) : i < w.transfers.length := by
  obtain ⟨td, htd, -⟩ := h.unspent
  exact (List.getElem?_eq_some_iff.mp htd).1

theorem Votes.newFresh {picks : List Nat × List Nat} (h : Votes env w picks b b')
    (hb : b.newBatchVotes = []) : NewFresh w b' := by
  obtain ⟨more, hmore, hpicks, hmixed⟩ := h.newBatchVotes
  rw [hb, List.nil_append] at hmore
  have hmembers : b'.newMembers = picks.1 := by rw [newMembers, hmore, hpicks]
  refine ⟨hmembers ▸ h.nodup, fun nbvi hnbvi => ?_⟩
  have hmem : ∀ i ∈ nbvi.transferIs, i ∈ picks.1 := fun i hi =>
    hmembers ▸ List.mem_flatMap.mpr ⟨nbvi, hnbvi, hi⟩
  rw [hmore] at hnbvi
  refine ⟨?_, fun i hi => lt_length_of_unused (h.unused i (hmem i hi)),
    fun i hi => (h.unused i (hmem i hi)).unbatched, hmixed nbvi hnbvi⟩
  have hflat : (more.flatMap (·.transferIs)).Nodup := hpicks ▸ h.nodup
  exact (List.nodup_flatMap.mp hflat).1 nbvi hnbvi

theorem NewFresh.of_nil (hb : b.newBatchVotes = []) : NewFresh w b := by
  refine ⟨?_, ?_⟩
  · rw [newMembers, hb]
    exact List.nodup_nil
  · rw [hb]
    simp

theorem NewFresh.lookUp (h : NewFresh w b) (hw : Wallet2.LooksUp w w') : NewFresh w' b := by
  refine ⟨h.nodup, fun nbvi hnbvi => ?_⟩
  obtain ⟨hnodup, hbounded, hunbatched, hmixed⟩ := h.fresh nbvi hnbvi
  rw [← hw.transfers] at hbounded
  exact ⟨hnodup, hbounded, fun i hi => (hw.batchIndex_eq i).trans (hunbatched i hi), hmixed⟩

theorem performAll_sends {calls : List (CallSession × SendCall)}
    (h : performAll env (calls.map fun c => .send c.1 c.2) w b = (.ok b', w')) :
    b'.newBatchVotes = b.newBatchVotes := by
  induction calls generalizing w b with
  | nil =>
    obtain ⟨hb, -⟩ := Prod.mk.inj h
    rw [Except.ok.inj hb]
  | cons c calls ih =>
    rw [List.map_cons, performAll] at h
    split at h
    · cases h
    · rename_i next wnext hc
      have hsends : (addSend env c.1 w c.2 b).1 = .ok next := congrArg Prod.fst hc
      rw [ih h, (addSend_eq_ok hsends).newBatchVotes]

theorem finalize_inv {seqs : List KeyImage → Except BuilderError (KeyImage → UInt64)}
    (h : (finalize env w seqs b).1 = .ok b') :
    ∃ imSeqs txb, { b.txb with tx := replaceVoteSeqs imSeqs b.txb.tx }.finalize env.crypto env.sign =
      some txb ∧ b' = { b with state := .finalized, txb := txb } := by
  rw [finalize] at h
  split at h
  · cases h
  obtain ⟨-, -, h⟩ := Control.bind_eq_ok_iff.mp h
  obtain ⟨-, -, h⟩ := Control.bind_eq_ok_iff.mp h
  obtain ⟨-, -, h⟩ := Control.bind_eq_ok_iff.mp h
  obtain ⟨imSeqs, -, h⟩ := Control.bind_eq_ok_iff.mp h
  dsimp only at h
  split at h
  · cases h
  rename_i txb htxb
  exact ⟨imSeqs, txb, htxb, (Except.ok.inj h).symm⟩

theorem finalize_eq_ok {seqs : List KeyImage → Except BuilderError (KeyImage → UInt64)}
    (h : (finalize env w seqs b).1 = .ok b') :
    b'.inputs = b.inputs ∧ b'.newBatchVotes = b.newBatchVotes ∧
      b'.txb.tx.vin.map TxIn.kImage = b.txb.tx.vin.map TxIn.kImage := by
  obtain ⟨imSeqs, txb, htxb, rfl⟩ := finalize_inv h
  obtain ⟨hsources, hvin⟩ := TxBuilder.finalize_eq_some htxb
  refine ⟨?_, rfl, ?_⟩
  · rw [inputs, hsources]
    rfl
  · -- Only the sequence numbers of the votes were replaced.
    rw [hvin, replaceVoteSeqs, List.map_map]
    refine List.map_congr_left fun inp _ => ?_
    cases inp <;> rfl

theorem finalize_looksUp (env : WalletEnv) (w : Wallet2) (b : WalletTxBuilder)
    (seqs : List KeyImage → Except BuilderError (KeyImage → UInt64)) :
    Wallet2.LooksUp w (finalize env w seqs b).2 := by
  rw [finalize]
  split
  · exact Wallet2.LooksUp.refl w
  · exact ⟨_, rfl⟩

theorem NewFresh.processTransactionSent (h : NewFresh w b) (hw : w.BatchesSound) (now : UInt64) :
    (processTransactionSent env w now b).2.BatchesSound := by
  rw [WalletTxBuilder.processTransactionSent]
  split
  · exact hw
  have hlength : ∀ (is : List Nat) (w : Wallet2),
      (markSpent is w).transfers.length = w.transfers.length := fun is w => List.length_mapIdx
  dsimp only
  change VotesInfo.Sound (markSpent _ (markSpent _ w)).transfers.length _
  rw [hlength, hlength]
  refine (hw.foldl_pushVotes b.changeBatchVotes).foldl_pushBatch h.nodup fun nbvi hnbvi => ?_
  obtain ⟨hnodup, hbounded, hunbatched, hmixed⟩ := h.fresh nbvi hnbvi
  refine ⟨hnodup, hbounded, fun i hi => ?_, hmixed⟩
  rw [VotesInfo.foldl_pushVotes_map]
  exact hunbatched i hi

end WalletTxBuilder

/-- A transaction that a wallet builds and, if the daemon takes it, has sent. -/
structure SentTx where
  txkey : TxKey
  unlockTime : UInt64
  extra : Wire.Bytes
  sends : List (CallSession × SendCall)
  vote : Option (CallSession × VoteCall)
  keyImageSeqs : List KeyImage → Except BuilderError (KeyImage → UInt64)
  accepted : Bool
  now : UInt64

namespace SentTx

/-- The votes come after everything that is spent. -/
def calls (t : SentTx) : List WalletTxBuilder.BuilderCall :=
  (t.sends.map fun c => .send c.1 c.2) ++ (t.vote.map fun c => .vote c.1 c.2).toList

def build (env : WalletEnv) (t : SentTx) (w : Wallet2) : Except BuilderError WalletTxBuilder × Wallet2 :=
  match WalletTxBuilder.performAll env t.calls w (.initTx t.txkey t.unlockTime t.extra) with
  | (.error e, w) => (.error e, w)
  | (.ok b, w) => b.finalize env w t.keyImageSeqs

def send (env : WalletEnv) (t : SentTx) (w : Wallet2) : Wallet2 :=
  match t.build env w with
  | (.error _, w) => w
  | (.ok b, w) => if t.accepted then (b.processTransactionSent env w t.now).2 else w

end SentTx

inductive WalletOp where
  | send (t : SentTx)
  | scan (session : Session) (entry : BlockCompleteEntry) (blId : Hash) (height : Nat)
  | detach (height : Nat)

namespace Wallet2

/-- An exception leaves the wallet as far as it has got. -/
def applyOp (env : WalletEnv) (w : Wallet2) : WalletOp → Wallet2
  | .send t => t.send env w
  | .scan session entry blId height =>
    (w.processNewBlockchainEntry env.crypto env.keys session entry blId height).2
  | .detach height => (w.detachBlockchain height).2

def runOps (env : WalletEnv) (ops : List WalletOp) (w : Wallet2) : Wallet2 := ops.foldl (applyOp env) w

end Wallet2

namespace WalletTxBuilder

variable {env : WalletEnv} {w w' : Wallet2} {b b' : WalletTxBuilder}

theorem performAll_append {cs cs' : List BuilderCall}
    (h : performAll env (cs ++ cs') w b = (.ok b', w')) :
    ∃ next wnext, performAll env cs w b = (.ok next, wnext) ∧
      performAll env cs' wnext next = (.ok b', w') := by
  induction cs generalizing w b with
  | nil => exact ⟨b, w, rfl, h⟩
  | cons c cs ih =>
    rw [List.cons_append, performAll] at h
    rw [performAll]
    split at h
    · cases h
    · exact ih h

theorem newFresh_of_calls {t : SentTx} (hb : b.newBatchVotes = [])
    (h : performAll env t.calls w b = (.ok b', w')) : NewFresh w' b' := by
  obtain ⟨next, wnext, hsends, hvote⟩ := performAll_append h
  have hnext : next.newBatchVotes = [] := (performAll_sends hsends).trans hb
  cases hcall : t.vote with
  | none =>
    rw [hcall] at hvote
    obtain ⟨hb', -⟩ := Prod.mk.inj hvote
    exact NewFresh.of_nil (Except.ok.inj hb' ▸ hnext)
  | some c =>
    rw [hcall] at hvote
    have hvotes : performAll env [.vote c.1 c.2] wnext next = (.ok b', w') := hvote
    have hlook := perform_looksUp env wnext next (.vote c.1 c.2)
    rw [performAll] at hvotes
    split at hvotes
    · cases hvotes
    · rename_i last wlast hc
      obtain ⟨hlast, hwlast⟩ := Prod.mk.inj hvotes
      obtain rfl := Except.ok.inj hlast
      obtain rfl := hwlast
      rw [hc] at hlook
      have hok : (perform env wnext next (.vote c.1 c.2)).1 = .ok last := congrArg Prod.fst hc
      obtain ⟨⟨result, found⟩, hr, rfl⟩ := Control.map_eq_ok_iff.mp hok
      exact ((addVotes_eq_ok hr).newFresh hnext).lookUp hlook

end WalletTxBuilder

namespace Wallet2

variable {env : WalletEnv} {w : Wallet2}

theorem BatchesSound.send (h : w.BatchesSound) (t : SentTx) : (t.send env w).BatchesSound := by
  have hcalls := WalletTxBuilder.performAll_looksUp env t.calls w
    (.initTx t.txkey t.unlockTime t.extra)
  rw [SentTx.send, SentTx.build]
  cases hrun : WalletTxBuilder.performAll env t.calls w (.initTx t.txkey t.unlockTime t.extra) with
  | mk r wcalls =>
    rw [hrun] at hcalls
    have hsound := hcalls.batchesSound h
    cases r with
    | error e => exact hsound
    | ok b =>
      have hfresh := WalletTxBuilder.newFresh_of_calls rfl hrun
      have hlook := WalletTxBuilder.finalize_looksUp env wcalls b t.keyImageSeqs
      dsimp only
      cases hfin : b.finalize env wcalls t.keyImageSeqs with
      | mk r wfin =>
        rw [hfin] at hlook
        cases r with
        | error e => exact hlook.batchesSound hsound
        | ok bfin =>
          obtain ⟨-, hnew, -⟩ := WalletTxBuilder.finalize_eq_ok (congrArg Prod.fst hfin)
          have hfresh : WalletTxBuilder.NewFresh wfin bfin := by
            refine WalletTxBuilder.NewFresh.lookUp ?_ hlook
            exact ⟨by rw [WalletTxBuilder.newMembers, hnew]; exact hfresh.nodup,
              by rw [hnew]; exact hfresh.fresh⟩
          dsimp only
          split
          · exact hfresh.processTransactionSent (hlook.batchesSound hsound) t.now
          · exact hlook.batchesSound hsound

theorem BatchesSound.applyOp (h : w.BatchesSound) (op : WalletOp) : (w.applyOp env op).BatchesSound := by
  cases op with
  | send t => exact h.send t
  | scan session entry blId height =>
    exact (processNewBlockchainEntry_grows env.crypto env.keys session entry blId height w).batchesSound h
  | detach height => exact h.detachBlockchain height

theorem BatchesSound.runOps (h : w.BatchesSound) (ops : List WalletOp) :
    (w.runOps env ops).BatchesSound := by
  induction ops generalizing w with
  | nil => exact h
  | cons op ops ih => exact ih (h.applyOp op)

/-- The batches and the map of a wallet tell the same. -/
structure BatchesConsistent (w : Wallet2) : Prop where
  mapped_iff : ∀ i j, j ≠ 0 →
    (w.votesInfo.transferBatchMap i = some j ↔ i ∈ WalletTxBuilder.membersOf w j)
  once : ∀ j, (WalletTxBuilder.membersOf w j).Nodup
  noOther : ∀ i j j', i ∈ WalletTxBuilder.membersOf w j → i ∈ WalletTxBuilder.membersOf w j' → j = j'
  bounded : ∀ j, ∀ i ∈ WalletTxBuilder.membersOf w j, i < w.transfers.length
  mixed : ∀ batch ∈ w.votesInfo.batches, batch.fakeOuts.length = batch.transferIndices.length

theorem BatchesSound.consistent (h : w.BatchesSound) : w.BatchesConsistent :=
  ⟨h.filed.filed_iff, h.filed.nodup, fun _ _ _ hj hj' => h.filed.eq_of_mem hj hj', h.bounded, h.mixed⟩

theorem LooksUp.batchesConsistent {w' : Wallet2} (h : LooksUp w w') (hw : w.BatchesConsistent) :
    w'.BatchesConsistent := by
  have hmembers : WalletTxBuilder.membersOf w' = WalletTxBuilder.membersOf w :=
    funext (WalletTxBuilder.membersOf_lookUp h)
  refine ⟨fun i j hj => ?_, ?_, ?_, ?_, ?_⟩
  · rw [hmembers, h.map_eq_some_iff hj]
    exact hw.mapped_iff i j hj
  · rw [hmembers]
    exact hw.once
  · rw [hmembers]
    exact hw.noOther
  · rw [hmembers, h.transfers]
    exact hw.bounded
  · rw [h.batches]
    exact hw.mixed

/-- Whatever a new wallet does, its voting batches stay consistent. -/
theorem runOps_batchesConsistent (env : WalletEnv) (chain : List Hash) (ops : List WalletOp) :
    ((bareWallet chain).runOps env ops).BatchesConsistent := by
  have hstart : (bareWallet chain).BatchesSound := VotesInfo.sound_nil
  exact (hstart.runOps ops).consistent

end Wallet2

end Pebblecoin
