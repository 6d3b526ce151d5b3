import Pebblecoin.RingSizes

/-!
The rings of a voting batch: the first ones and those that are made when the batch is used
again.
-/

namespace Pebblecoin

open Containers Control

variable {t : SentTx} {b : WalletTxBuilder} {nbvi : NewBatchVoteInfo}

theorem WalletTxBuilder.holdings_markSpent (is : List Nat) (w : Wallet2) :
    (markSpent is w).holdings = w.holdings := by
  rw [Wallet2.holdings, Wallet2.holdings, markSpent]
  refine List.ext_getElem? fun i => ?_
  rw [List.getElem?_map, List.getElem?_map, List.getElem?_mapIdx]
  cases w.transfers[i]? with
  | none => rfl
  | some td =>
    simp only [Option.map_some]
    split_ifs <;> rfl

namespace VotesInfo

def pairs (v : VotesInfo) (j : Nat) : List (Nat × FakeOuts) :=
  (v.batches[j]?.map fun batch => batch.transferIndices.zip batch.fakeOuts).getD []

theorem mem_members_of_mem_pairs {v : VotesInfo} {j : Nat} {p : Nat × FakeOuts} (h : p ∈ v.pairs j) :
    p.1 ∈ v.members j := by
  rw [pairs] at h
  rw [members]
  cases hbatch : v.batches[j]? with
  | none => simp [hbatch] at h
  | some batch =>
    rw [hbatch] at h
    exact (List.of_mem_zip h).1

theorem pairs_pushVotes (v : VotesInfo) (cbvi : ChangeBatchVoteInfo) :
    (WalletTxBuilder.pushVotes v cbvi).pairs = v.pairs := by
  funext j
  rw [pairs, pairs, WalletTxBuilder.pushVotes, List.getElem?_modify]
  cases v.batches[j]? with
  | none => rfl
  | some batch => by_cases hj : cbvi.batchI = j <;> simp [hj]

theorem foldl_pushVotes_pairs (changes : List ChangeBatchVoteInfo) (v : VotesInfo) :
    (changes.foldl WalletTxBuilder.pushVotes v).pairs = v.pairs ∧
      (changes.foldl WalletTxBuilder.pushVotes v).batches.length = v.batches.length := by
  induction changes generalizing v with
  | nil => exact ⟨rfl, rfl⟩
  | cons cbvi changes ih =>
    obtain ⟨hpairs, hlength⟩ := ih (WalletTxBuilder.pushVotes v cbvi)
    rw [List.foldl_cons, hpairs, hlength, pairs_pushVotes]
    exact ⟨rfl, List.length_modify ..⟩

theorem pairs_pushBatch (v : VotesInfo) (nbvi : NewBatchVoteInfo) :
    (∀ j < v.batches.length, (WalletTxBuilder.pushBatch v nbvi).pairs j = v.pairs j) ∧
      (WalletTxBuilder.pushBatch v nbvi).pairs (max 1 v.batches.length) =
        nbvi.transferIs.zip nbvi.fakeOuts ∧
      (WalletTxBuilder.pushBatch v nbvi).batches.length = max 1 v.batches.length + 1 := by
  cases hbatches : v.batches with
  | nil => simp [pairs, WalletTxBuilder.pushBatch, hbatches]
  | cons batch batches =>
    have hmax : max 1 (batch :: batches).length = (batch :: batches).length := by simp
    rw [hmax]
    refine ⟨fun j hj => ?_, ?_, ?_⟩
    · simp only [pairs, WalletTxBuilder.pushBatch, hbatches, List.isEmpty_cons, Bool.false_eq_true,
        if_false, List.getElem?_append_left hj]
    · simp [pairs, WalletTxBuilder.pushBatch, hbatches]
    · simp [WalletTxBuilder.pushBatch, hbatches]

theorem eraseFromBatch_nil (i : Nat) (is : List Nat) : (Wallet2.eraseFromBatch i is []).2 = [] := by
  induction is with
  | nil => rfl
  | cons j is ih =>
    rw [Wallet2.eraseFromBatch]
    dsimp only [List.tail_nil]
    split
    · exact ih
    · rw [ih]
      rfl

theorem zip_eraseFromBatch_sublist (i : Nat) (is : List Nat) (fakeOuts : List FakeOuts) :
    ((Wallet2.eraseFromBatch i is fakeOuts).1.zip (Wallet2.eraseFromBatch i is fakeOuts).2).Sublist
      (is.zip fakeOuts) := by
  induction is generalizing fakeOuts with
  | nil => exact List.Sublist.refl _
  | cons j is ih =>
    cases fakeOuts with
    | nil =>
      rw [eraseFromBatch_nil, List.zip_nil_right]
      exact List.nil_sublist _
    | cons fakes fakeOuts =>
      rw [Wallet2.eraseFromBatch]
      dsimp only [List.tail_cons]
      split
      · exact (ih fakeOuts).cons _
      · exact (ih fakeOuts).cons_cons _

theorem pairs_eraseTransfer (i : Nat) (v : VotesInfo) (j : Nat) :
    ((Wallet2.eraseTransfer i v).pairs j).Sublist (v.pairs j) := by
  rw [pairs, pairs, Wallet2.eraseTransfer, List.getElem?_map]
  cases v.batches[j]? with
  | none => exact List.Sublist.refl _
  | some batch => exact zip_eraseFromBatch_sublist i batch.transferIndices batch.fakeOuts

end VotesInfo

namespace Wallet2

variable {env : WalletEnv} {j : Nat} {w w' w'' : Wallet2}

/-- Batch `j` keeps its members or loses some, and what is left of it keeps its outputs. -/
structure Carries (j : Nat) (w w' : Wallet2) : Prop where
  stays : j < w'.votesInfo.batches.length
  pairs : ∀ p ∈ w'.votesInfo.pairs j, p ∈ w.votesInfo.pairs j
  held : ∀ p ∈ w'.votesInfo.pairs j, w'.holdings[p.1]? = w.holdings[p.1]?

theorem Carries.refl (h : j < w.votesInfo.batches.length) : Carries j w w :=
  ⟨h, fun _ hp => hp, fun _ _ => rfl⟩

theorem Carries.trans (h : Carries j w w') (h' : Carries j w' w'') : Carries j w w'' where
  stays := h'.stays
  pairs p hp := h.pairs p (h'.pairs p hp)
  held p hp := (h'.held p hp).trans (h.held p (h'.pairs p hp))

theorem LooksUp.carries (h : LooksUp w w') (hj : j < w.votesInfo.batches.length) : Carries j w w' := by
  refine ⟨h.batches ▸ hj, fun p hp => ?_, fun p _ => ?_⟩
  · rwa [VotesInfo.pairs, h.batches] at hp
  · rw [holdings, holdings, h.transfers]

theorem carries_processNewBlockchainEntry (hw : w.BatchesSound) (hj : j < w.votesInfo.batches.length)
    (session : Session) (entry : BlockCompleteEntry) (blId : Hash) (height : Nat) :
    Carries j w (w.processNewBlockchainEntry env.crypto env.keys session entry blId height).2 := by
  have hgrows := processNewBlockchainEntry_grows env.crypto env.keys session entry blId height w
  obtain ⟨rest, hrest⟩ := hgrows.holdings
  refine ⟨?_, ?_, fun p hp => ?_⟩
  · rwa [hgrows.votesInfo]
  · rw [hgrows.votesInfo]
    exact fun p hp => hp
  · rw [hgrows.votesInfo] at hp
    have hlt := hw.bounded j p.1 (VotesInfo.mem_members_of_mem_pairs hp)
    have hlt' : p.1 < w.holdings.length := by rwa [holdings, List.length_map]
    rw [← hrest, List.getElem?_append_left hlt']

theorem carries_detachTransfers (j i : Nat) (tds : List TransferDetails) (w : Wallet2) :
    (w.detachTransfers i tds).2.votesInfo.batches.length = w.votesInfo.batches.length ∧
      ∀ p ∈ (w.detachTransfers i tds).2.votesInfo.pairs j, p ∈ w.votesInfo.pairs j := by
  induction tds generalizing i w with
  | nil => exact ⟨rfl, fun p hp => hp⟩
  | cons td tds ih =>
    rw [detachTransfers]
    split
    · exact ⟨rfl, fun p hp => hp⟩
    · obtain ⟨hlength, hpairs⟩ := ih (i + 1) { w with
        keyImages := Function.update w.keyImages td.keyImage none
        votesInfo := eraseTransfer i w.votesInfo }
      refine ⟨hlength.trans (List.length_map _), fun p hp => ?_⟩
      exact (VotesInfo.pairs_eraseTransfer i w.votesInfo j).subset (hpairs p hp)

theorem carries_detachBlockchain (hw : w.BatchesSound) (hj : j < w.votesInfo.batches.length)
    (height : Nat) : Carries j w (w.detachBlockchain height).2 := by
  rw [detachBlockchain]
  generalize hstart : w.transfers.findIdx (fun td => decide (height ≤ td.blockHeight)) = iStart
  have hle : iStart ≤ w.transfers.length := hstart ▸ List.findIdx_le_length
  have hn : w.transfers.length ≤ iStart + (w.transfers.drop iStart).length := by
    rw [List.length_drop]
    omega
  obtain ⟨-, htransfers, hlow⟩ := BatchesSound.detachTransfers hw hn
  obtain ⟨hlength, hpairs⟩ := carries_detachTransfers j iStart (w.transfers.drop iStart) w
  cases hdetach : w.detachTransfers iStart (w.transfers.drop iStart) with
  | mk e next =>
    rw [hdetach] at htransfers hlow hlength hpairs
    cases e with
    | some e =>
      refine ⟨hlength.symm ▸ hj, hpairs, fun p _ => ?_⟩
      rw [holdings, holdings]
      exact congrArg (fun ts => (ts.map TransferDetails.unspent)[p.1]?) htransfers
    | none =>
      refine ⟨hlength.symm ▸ hj, hpairs, fun p hp => ?_⟩
      obtain ⟨-, hlt⟩ := hlow rfl j p.1 (VotesInfo.mem_members_of_mem_pairs hp)
      change ((next.transfers.take iStart).map TransferDetails.unspent)[p.1]? = _
      rw [show next.transfers = w.transfers from htransfers, List.map_take,
        List.getElem?_take_of_lt hlt]
      rfl

theorem carries_processTransactionSent (hj : j < w.votesInfo.batches.length) (now : UInt64)
    (b : WalletTxBuilder) : Carries j w (b.processTransactionSent env w now).2 := by
  rw [WalletTxBuilder.processTransactionSent]
  split
  · exact Carries.refl hj
  obtain ⟨hpairs, hlength⟩ := VotesInfo.foldl_pushVotes_pairs b.changeBatchVotes w.votesInfo
  have hnews : ∀ (news : List NewBatchVoteInfo) (v : VotesInfo), j < v.batches.length →
      j < (news.foldl WalletTxBuilder.pushBatch v).batches.length ∧
        (news.foldl WalletTxBuilder.pushBatch v).pairs j = v.pairs j := by
    intro news
    induction news with
    | nil => exact fun v hv => ⟨hv, rfl⟩
    | cons nbvi news ih =>
      intro v hv
      obtain ⟨hold, -, hcount⟩ := VotesInfo.pairs_pushBatch v nbvi
      obtain ⟨hstays, hkept⟩ := ih (WalletTxBuilder.pushBatch v nbvi) (by omega)
      exact ⟨hstays, hkept.trans (hold j hv)⟩
  obtain ⟨hstays, hkept⟩ := hnews b.newBatchVotes
    (b.changeBatchVotes.foldl WalletTxBuilder.pushVotes w.votesInfo) (hlength.symm ▸ hj)
  refine ⟨hstays, fun p hp => ?_, fun p _ => ?_⟩
  · have hp : p ∈ VotesInfo.pairs _ j := hp
    rw [← hpairs, ← hkept]
    exact hp
  · have hheld : ∀ is is', (WalletTxBuilder.markSpent is' (WalletTxBuilder.markSpent is w)).holdings =
        w.holdings := fun is is' => by
      rw [WalletTxBuilder.holdings_markSpent, WalletTxBuilder.holdings_markSpent]
    exact congrArg (·[p.1]?) (hheld b.spendTransferIs _)

theorem looksUp_build (env : WalletEnv) (t : SentTx) (w : Wallet2) : LooksUp w (t.build env w).2 := by
  have hcalls := WalletTxBuilder.performAll_looksUp env t.calls w
    (.initTx t.txkey t.unlockTime t.extra)
  rw [SentTx.build]
  split
  · rename_i e next hrun
    rwa [hrun] at hcalls
  · rename_i b next hrun
    rw [hrun] at hcalls
    exact hcalls.trans (WalletTxBuilder.finalize_looksUp env next b t.keyImageSeqs)

theorem carries_send (hj : j < w.votesInfo.batches.length) (t : SentTx) :
    Carries j w (t.send env w) := by
  have hbuild := (looksUp_build env t w).carries hj
  rw [SentTx.send]
  split
  · rename_i e next hrun
    rwa [hrun] at hbuild
  · rename_i b next hrun
    rw [hrun] at hbuild
    split
    · exact hbuild.trans (carries_processTransactionSent hbuild.stays t.now b)
    · exact hbuild

variable (env) in
theorem carries_runOps (ops : List WalletOp) (hw : w.BatchesSound)
    (hj : j < w.votesInfo.batches.length) : Carries j w (w.runOps env ops) := by
  induction ops generalizing w with
  | nil => exact Carries.refl hj
  | cons op ops ih =>
    have hstep : Carries j w (w.applyOp env op) := by
      cases op with
      | send t => exact carries_send hj t
      | scan session entry blId height =>
        exact carries_processNewBlockchainEntry hw hj session entry blId height
      | detach height => exact carries_detachBlockchain hw hj height
    exact hstep.trans (ih (hw.applyOp op) hstep.stays)

end Wallet2

namespace WalletTxBuilder

variable {env : WalletEnv} {w w' : Wallet2} {count idx : Nat} {fakes : FakeOuts}
  {td : TransferDetails} {key : PublicKey} {before after : FakeOuts} {src : TxSourceEntry}

theorem unspentMembers_zip {idxs : List Nat} {fakeOuts : List FakeOuts}
    {r : List Nat × List FakeOuts} (h : unspentMembers w idxs fakeOuts = .ok r) :
    r.2.length = r.1.length ∧ (r.1.zip r.2).Sublist (idxs.zip fakeOuts) := by
  induction idxs generalizing fakeOuts r with
  | nil =>
    rw [← Except.ok.inj h]
    exact ⟨rfl, List.Sublist.refl _⟩
  | cons idx idxs ih =>
    unfold unspentMembers at h
    split at h
    · cases h
    split at h
    · obtain ⟨hlength, hsublist⟩ := ih h
      refine ⟨hlength, hsublist.trans ?_⟩
      cases fakeOuts with
      | nil =>
        rw [List.tail_nil, List.zip_nil_right]
        exact List.nil_sublist _
      | cons fakes fakeOuts => exact List.sublist_cons_self _ _
    · split at h
      · cases h
      · obtain ⟨rest, hrest, rfl⟩ := map_eq_ok_iff.mp h
        obtain ⟨hlength, hsublist⟩ := ih hrest
        exact ⟨congrArg (· + 1) hlength, hsublist.cons_cons _⟩

theorem prepareBatch_rings {j : Nat} {sources : List TxSourceEntry}
    (h : prepareBatch w j = .ok sources) : ∀ src ∈ sources, ∃ p ∈ w.votesInfo.pairs j,
      ∃ td key before after, RingOf w 999999 p.1 p.2 td key before after src := by
  rw [prepareBatch] at h
  split at h
  · cases h
  rename_i batch hbatch
  obtain ⟨⟨selected, fakeOutputs⟩, hmembers, h⟩ := bind_eq_ok_iff.mp h
  obtain ⟨hlength, hsublist⟩ := unspentMembers_zip hmembers
  have hpairs : w.votesInfo.pairs j = batch.transferIndices.zip batch.fakeOuts := by
    rw [VotesInfo.pairs, hbatch]
    rfl
  intro src hsrc
  obtain ⟨p, hp, hring⟩ := exists_of_mem_right (prepareInputs_rings h hlength) hsrc
  exact ⟨p, hpairs ▸ hsublist.subset hp, hring⟩

def ringIndexes (src : TxSourceEntry) : List UInt64 := src.outputs.map Prod.fst

/-- The two rings name the same outputs. -/
def SameRing (src src' : TxSourceEntry) : Prop := ∀ i, i ∈ ringIndexes src ↔ i ∈ ringIndexes src'

theorem RingOf.mem_ringIndexes_iff (h : RingOf w count idx fakes td key before after src)
    (i : UInt64) : i ∈ ringIndexes src ↔
      i = td.globalOutputIndex ∨
        i ∈ ((otherOuts fakes td.globalOutputIndex).take (max count 1)).map Prod.fst := by
  rw [ringIndexes, h.outputs, ← mixedOuts_eq, h.mixed, List.map_append, List.map_append,
    List.map_cons, List.mem_append, List.mem_append, List.mem_cons]
  tauto

/-- Between the smaller and the greater of two numbers of outputs nothing new is named. -/
def CutAlike (count count' : Nat) (others : FakeOuts) : Prop :=
  ∀ oe ∈ (others.take (max count count')).drop (min count count'),
    oe.1 ∈ (others.take (min count count')).map Prod.fst

theorem mem_take_iff_of_le {n m : Nat} (h : n ≤ m) (others : FakeOuts) :
    (∀ oe ∈ (others.take m).drop n, oe.1 ∈ (others.take n).map Prod.fst) ↔
      ∀ i, i ∈ (others.take n).map Prod.fst ↔ i ∈ (others.take m).map Prod.fst := by
  have hsplit : others.take m = others.take n ++ (others.take m).drop n := by
    nth_rewrite 1 [← List.take_append_drop n (others.take m)]
    rw [List.take_take, Nat.min_eq_left h]
  rw [hsplit]
  constructor
  · intro hall i
    rw [List.map_append, List.mem_append]
    refine ⟨Or.inl, fun hi => hi.elim id fun hi => ?_⟩
    obtain ⟨oe, hoe, rfl⟩ := List.mem_map.mp hi
    exact hall oe (by rwa [← hsplit])
  · intro hall oe hoe
    rw [← hsplit] at hoe
    refine (hall oe.1).mpr ?_
    rw [List.map_append]
    exact List.mem_append_right _ (List.mem_map_of_mem hoe)

theorem cutAlike_iff (count count' : Nat) (others : FakeOuts) :
    CutAlike count count' others ↔
      ∀ i, i ∈ (others.take count).map Prod.fst ↔ i ∈ (others.take count').map Prod.fst := by
  rw [CutAlike]
  rcases Nat.le_total count count' with hle | hle
  · rw [Nat.max_eq_right hle, Nat.min_eq_left hle]
    exact mem_take_iff_of_le hle others
  · rw [Nat.max_eq_left hle, Nat.min_eq_right hle, mem_take_iff_of_le hle others]
    exact forall_congr' fun i => iff_comm

theorem sameRing_iff {count' idx' : Nat} {td' : TransferDetails} {key' : PublicKey}
    {before' after' : FakeOuts} {src' : TxSourceEntry}
    (h : RingOf w count idx fakes td key before after src)
    (h' : RingOf w' count' idx' fakes td' key' before' after' src')
    (hindex : td'.globalOutputIndex = td.globalOutputIndex) :
    SameRing src src' ↔
      CutAlike (max count 1) (max count' 1) (otherOuts fakes td.globalOutputIndex) := by
  rw [cutAlike_iff, SameRing]
  refine forall_congr' fun i => ?_
  rw [h.mem_ringIndexes_iff, h'.mem_ringIndexes_iff, hindex]
  have hother : ∀ n, i ∈ ((otherOuts fakes td.globalOutputIndex).take n).map Prod.fst →
      i ≠ td.globalOutputIndex := by
    intro n hi
    obtain ⟨oe, hoe, rfl⟩ := List.mem_map.mp hi
    exact (ne_of_mem_otherOuts (List.mem_of_mem_take hoe)).symm
  have hfirst := hother (max count 1)
  have hsecond := hother (max count' 1)
  tauto

theorem RingOf.lookUp (h : RingOf w count idx fakes td key before after src)
    (hw : w.transfers = w'.transfers) : RingOf w' count idx fakes td key before after src :=
  { h with transfer := hw ▸ h.transfer }

theorem build_eq_ok (h : t.build env w = (.ok b, w')) :
    ∃ bcalls wcalls, performAll env t.calls w (initTx t.txkey t.unlockTime t.extra) =
      (.ok bcalls, wcalls) ∧ finalize env wcalls t.keyImageSeqs bcalls = (.ok b, w') := by
  rw [SentTx.build] at h
  split at h
  · cases h
  · rename_i bcalls wcalls hcalls
    exact ⟨bcalls, wcalls, hcalls, h⟩

theorem addVotes_rings {session : CallSession} {call : VoteCall} {b' : WalletTxBuilder}
    {result : UInt64} (h : (addVotes env session w call b).1 = .ok (result, b'))
    (hb : b.newBatchVotes = []) (hnew : b'.newBatchVotes = [nbvi]) :
    ∀ p ∈ nbvi.transferIs.zip nbvi.fakeOuts, ∃ src ∈ b'.txb.sourcesUsed,
      ∃ td key before after, RingOf w call.fakeOutsCount p.1 p.2 td key before after src := by
  rcases addVotes_inv h with ⟨transferIs, next, scanty, -, -, hbatch, rfl⟩ |
    ⟨result', last, scanty, -, hcall, rfl⟩
  · obtain ⟨answer, news, votes, txb, -, hlength, hnews, htxb, rfl⟩ := addNewBatch_inv hbatch
    dsimp only at hnew
    rw [hb, List.nil_append] at hnew
    obtain ⟨rfl, -⟩ := List.cons.inj hnew
    intro p hp
    have hrings := (prepareInputs_rings hnews hlength).flip (R := flip _)
    obtain ⟨src, hsrc, hring⟩ := exists_of_mem_right hrings hp
    refine ⟨src, ?_, hring⟩
    dsimp only
    rw [(TxBuilder.appends_addVote htxb).sourcesUsed]
    exact List.mem_append_right _ hsrc
  · -- Voting with old batches makes no batch with members.
    obtain ⟨more, hmore, hflat, -⟩ := (changeBatches_eq_ok hcall).newBatchVotes
    have hempty : nbvi.transferIs = [] := by
      dsimp only at hnew
      rw [hmore, hb, List.nil_append] at hnew
      rw [hnew] at hflat
      simpa using hflat
    rw [hempty, List.zip_nil_left]
    simp

theorem build_rings {session : CallSession} {call : VoteCall}
    (hvote : t.vote = some (session, call)) (h : t.build env w = (.ok b, w'))
    (hnew : b.newBatchVotes = [nbvi]) :
    ∀ p ∈ nbvi.transferIs.zip nbvi.fakeOuts, ∃ src ∈ b.txb.sourcesUsed,
      ∃ td key before after, RingOf w call.fakeOutsCount p.1 p.2 td key before after src := by
  obtain ⟨bcalls, wcalls, hcalls, hfinal⟩ := build_eq_ok h
  obtain ⟨imSeqs, txb, htxb, rfl⟩ := finalize_inv (congrArg Prod.fst hfinal)
  obtain ⟨hsources, -⟩ := TxBuilder.finalize_eq_some htxb
  obtain ⟨next, wnext, hsends, hvotes⟩ := performAll_append hcalls
  have hnext : next.newBatchVotes = [] := performAll_sends hsends
  have hlook := performAll_looksUp env (t.sends.map fun c => .send c.1 c.2) w
    (initTx t.txkey t.unlockTime t.extra)
  rw [hsends] at hlook
  rw [hvote] at hvotes
  change performAll env [.vote session call] wnext next = (.ok bcalls, wcalls) at hvotes
  rw [performAll] at hvotes
  split at hvotes
  · cases hvotes
  rename_i last wlast hc
  obtain ⟨hlast, -⟩ := Prod.mk.inj hvotes
  obtain rfl := Except.ok.inj hlast
  obtain ⟨⟨result, found⟩, hr, rfl⟩ := map_eq_ok_iff.mp (congrArg Prod.fst hc)
  intro p hp
  obtain ⟨src, hsrc, td, key, before, after, hring⟩ := addVotes_rings hr hnext hnew p hp
  refine ⟨src, ?_, td, key, before, after, hring.lookUp hlook.transfers⟩
  dsimp only
  rw [hsources]
  exact hsrc

theorem build_inputs_nodup (hw : w.BatchesSound) (h : t.build env w = (.ok b, w')) :
    (b.txb.sourcesUsed.map (·.transfer)).Nodup := by
  obtain ⟨bcalls, wcalls, hcalls, hfinal⟩ := build_eq_ok h
  obtain ⟨hinputs, -, -⟩ := finalize_eq_ok (congrArg Prod.fst hfinal)
  have hlook := performAll_looksUp env t.calls w (initTx t.txkey t.unlockTime t.extra)
  rw [hcalls] at hlook
  obtain ⟨hcollected, hdistinct⟩ :=
    performAll_eq_ok (collected_initTx t.txkey t.unlockTime t.extra) hcalls
  have hstart : (initTx t.txkey t.unlockTime t.extra).Distinct := ⟨List.nodup_nil, List.nodup_nil⟩
  change b.inputs.Nodup
  rw [hinputs, hcollected.nodup_iff (hlook.batchesSound hw).consistent, hdistinct]
  exact ⟨hstart, avoidsVotes_calls t⟩

theorem send_pairs (h : t.build env w = (.ok b, w')) (haccepted : t.accepted = true)
    (hnew : b.newBatchVotes = [nbvi]) :
    (t.send env w).votesInfo.pairs (max 1 w.votesInfo.batches.length) =
        nbvi.transferIs.zip nbvi.fakeOuts ∧
      max 1 w.votesInfo.batches.length < (t.send env w).votesInfo.batches.length ∧
      (t.send env w).holdings = w.holdings := by
  have hlook := Wallet2.looksUp_build env t w
  rw [h] at hlook
  obtain ⟨bcalls, wcalls, -, hfinal⟩ := build_eq_ok h
  obtain ⟨imSeqs, txb, -, rfl⟩ := finalize_inv (congrArg Prod.fst hfinal)
  rw [SentTx.send, h]
  dsimp only
  rw [if_pos haccepted, processTransactionSent, if_neg (not_not.mpr rfl)]
  dsimp only at hnew ⊢
  obtain ⟨-, hlength⟩ := VotesInfo.foldl_pushVotes_pairs bcalls.changeBatchVotes w'.votesInfo
  obtain ⟨-, hpairs, hcount⟩ := VotesInfo.pairs_pushBatch
    (bcalls.changeBatchVotes.foldl pushVotes w'.votesInfo) nbvi
  rw [hlength, hlook.batches] at hpairs hcount
  rw [hnew]
  refine ⟨hpairs, ?_, ?_⟩
  · change _ < (pushBatch (bcalls.changeBatchVotes.foldl pushVotes w'.votesInfo) nbvi).batches.length
    omega
  · have hheld : ∀ is is', (markSpent is' (markSpent is w')).holdings = w'.holdings := fun is is' => by
      rw [holdings_markSpent, holdings_markSpent]
    refine (hheld bcalls.spendTransferIs _).trans ?_
    rw [Wallet2.holdings, Wallet2.holdings, hlook.transfers]

/-- Whatever a wallet has done before a batch is first voted with, and does after it: a later
ring of a member names the outputs of its published ring exactly if the two numbers of outputs
cut the stored list alike. -/
theorem later_ring_same_iff (env : WalletEnv) (ids : List Hash) (earlier : List WalletOp)
    (t : SentTx) (session : CallSession) (call : VoteCall) (hvote : t.vote = some (session, call))
    (haccepted : t.accepted = true) (w wb : Wallet2) (b : WalletTxBuilder)
    (hw : (Wallet2.bareWallet ids).runOps env earlier = w) (hbuild : t.build env w = (.ok b, wb))
    (nbvi : NewBatchVoteInfo) (hnew : b.newBatchVotes = [nbvi]) (ops : List WalletOp)
    (sources : List TxSourceEntry)
    (hbatch : prepareBatch ((t.send env w).runOps env ops) (max 1 w.votesInfo.batches.length) =
      .ok sources) :
    ∀ later ∈ sources, ∃ td fakes published,
      w.transfers[later.transfer]? = some td ∧
      (later.transfer, fakes) ∈ nbvi.transferIs.zip nbvi.fakeOuts ∧
      (∀ src ∈ b.txb.sourcesUsed, src.transfer = later.transfer ↔ src = published) ∧
      published ∈ b.txb.sourcesUsed ∧
      (SameRing published later ↔
        CutAlike (max call.fakeOutsCount 1) 999999 (otherOuts fakes td.globalOutputIndex)) := by
  have hsound : w.BatchesSound := by
    have hstart : (Wallet2.bareWallet ids).BatchesSound := VotesInfo.sound_nil
    exact hw ▸ hstart.runOps earlier
  obtain ⟨hpairs, hstays, hheld⟩ := send_pairs hbuild haccepted hnew
  have hcarries := Wallet2.carries_runOps env ops (hsound.send t) hstays
  intro later hlater
  obtain ⟨p, hp, td', key', before', after', hring'⟩ := prepareBatch_rings hbatch later hlater
  have hp' := hcarries.pairs p hp
  rw [hpairs] at hp'
  obtain ⟨published, hpublished, td, key, before, after, hring⟩ :=
    build_rings hvote hbuild hnew p hp'
  have hsame : td'.unspent = td.unspent := by
    have hkept := hcarries.held p hp
    rw [hheld, Wallet2.holdings, Wallet2.holdings, List.getElem?_map, List.getElem?_map,
      hring'.transfer, hring.transfer] at hkept
    exact Option.some.inj hkept
  have hindex : td'.globalOutputIndex = td.globalOutputIndex :=
    by simpa [TransferDetails.unspent] using congrArg TransferDetails.globalOutputIndex hsame
  rw [hring'.source]
  refine ⟨td, p.2, published, hring.transfer, hp', fun src hsrc => ?_, hpublished,
    sameRing_iff hring hring' hindex⟩
  refine ⟨fun heq => ?_, fun heq => heq ▸ hring.source⟩
  exact List.inj_on_of_nodup_map (build_inputs_nodup hsound hbuild) hsrc hpublished
    (heq.trans hring.source.symm)

/-- The payment has output five; ten blocks later it may be used. -/
def sampleHistory : List WalletOp :=
  .scan ⟨true, fun _ => some [5], true⟩ (Wallet2.samplePaid 1).2 nullHash 1 ::
    (List.range 10).map fun k =>
      .scan Wallet2.sampleSession Wallet2.sampleUnpaid.2 nullHash (k + 2)

def samplePayee : Wallet2 := (Wallet2.bareWallet [nullHash]).runOps sampleWalletEnv sampleHistory

/-- One other output is asked for, and the daemon names these. -/
def sampleVoteTx (indexes : List UInt64) : SentTx where
  txkey := sampleTxKey
  unlockTime := 0
  extra := []
  sends := []
  vote := some (⟨0, fun _ => 0, fun _ _ _ => .ok [sampleOuts indexes], fun _ is => is⟩,
    ⟨1, 1, samplePolicy, 1, OrdSet.ofElems [1], 1⟩)
  keyImageSeqs := sampleSeqs
  accepted := true
  now := 0

/-- The number of new batches, the published rings and the rings that are made again. -/
def sampleBatchRings (indexes : List UInt64) :
    Option (Nat × List (Nat × List UInt64) × List (Nat × List UInt64)) :=
  match (sampleVoteTx indexes).build sampleWalletEnv samplePayee,
      prepareBatch ((sampleVoteTx indexes).send sampleWalletEnv samplePayee) 1 with
  | (.ok b, _), .ok sources =>
    some (b.newBatchVotes.length, b.txb.sourcesUsed.map fun src => (src.transfer, ringIndexes src),
      sources.map fun src => (src.transfer, ringIndexes src))
  | _, _ => none

theorem exists_of_sampleBatchRings {indexes ring ring' : List UInt64}
    (h : sampleBatchRings indexes = some (1, [(0, ring)], [(0, ring')])) :
    ∃ b wb nbvi published later,
      (sampleVoteTx indexes).build sampleWalletEnv samplePayee = (.ok b, wb) ∧
      b.newBatchVotes = [nbvi] ∧ b.txb.sourcesUsed = [published] ∧
      prepareBatch ((sampleVoteTx indexes).send sampleWalletEnv samplePayee) 1 = .ok [later] ∧
      published.transfer = 0 ∧ ringIndexes published = ring ∧
      later.transfer = 0 ∧ ringIndexes later = ring' := by
  rw [sampleBatchRings] at h
  split at h
  · rename_i b wb sources hbuild hbatch
    obtain ⟨hcount, hlists⟩ := Prod.mk.inj (Option.some.inj h)
    obtain ⟨hused, hmade⟩ := Prod.mk.inj hlists
    obtain ⟨nbvi, hnbvi⟩ := List.length_eq_one_iff.mp hcount
    obtain ⟨published, hpublished, heq⟩ := List.map_eq_singleton_iff.mp hused
    obtain ⟨later, hlater, heq'⟩ := List.map_eq_singleton_iff.mp hmade
    obtain ⟨htransfer, hring⟩ := Prod.mk.inj heq
    obtain ⟨htransfer', hring'⟩ := Prod.mk.inj heq'
    exact ⟨b, wb, nbvi, published, later, hbuild, hnbvi, hpublished, hlater ▸ hbatch, htransfer,
      hring, htransfer', hring'⟩
  · cases h

/-- The daemon has named the output of the member itself, so that nothing was left over. -/
theorem later_ring_same_of_own_output :
    ∃ b wb published later,
      (sampleVoteTx [5, 7]).build sampleWalletEnv samplePayee = (.ok b, wb) ∧
      prepareBatch ((sampleVoteTx [5, 7]).send sampleWalletEnv samplePayee) 1 = .ok [later] ∧
      b.txb.sourcesUsed = [published] ∧ SameRing published later ∧
      ∃ td fakes, samplePayee.transfers[0]? = some td ∧
        CutAlike 1 999999 (otherOuts fakes td.globalOutputIndex) := by
  obtain ⟨b, wb, nbvi, published, later, hbuild, hnew, hused, hbatch, -, hring, htransfer, hring'⟩ :=
    exists_of_sampleBatchRings (show sampleBatchRings [5, 7] =
      some (1, [(0, [5, 7])], [(0, [5, 7])]) by decide +kernel)
  have hsame : SameRing published later := by
    intro i
    rw [hring, hring']
  obtain ⟨td, fakes, first, htd, -, -, hfirst, hiff⟩ := later_ring_same_iff sampleWalletEnv [nullHash]
    sampleHistory (sampleVoteTx [5, 7]) _ _ rfl rfl samplePayee wb b rfl hbuild nbvi hnew [] [later]
    (by exact hbatch) later List.mem_cons_self
  rw [hused, List.mem_singleton] at hfirst
  rw [htransfer] at htd
  exact ⟨b, wb, published, later, hbuild, hbatch, hused, hsame, td, fakes, htd,
    hiff.mp (hfirst ▸ hsame)⟩

/-- Two outputs were named and one of them taken; the ring that is made again has both. -/
theorem later_ring_names_one_more :
    ∃ b wb published later,
      (sampleVoteTx [3, 7]).build sampleWalletEnv samplePayee = (.ok b, wb) ∧
      prepareBatch ((sampleVoteTx [3, 7]).send sampleWalletEnv samplePayee) 1 = .ok [later] ∧
      b.txb.sourcesUsed = [published] ∧ published.transfer = later.transfer ∧
      ringIndexes published = [3, 5] ∧ ringIndexes later = [3, 5, 7] ∧
      ¬ SameRing published later := by
  obtain ⟨b, wb, nbvi, published, later, hbuild, -, hused, hbatch, htransfer, hring, htransfer',
    hring'⟩ := exists_of_sampleBatchRings (show sampleBatchRings [3, 7] =
      some (1, [(0, [3, 5])], [(0, [3, 5, 7])]) by decide +kernel)
  refine ⟨b, wb, published, later, hbuild, hbatch, hused, htransfer.trans htransfer'.symm, hring,
    hring', fun hsame => ?_⟩
  have hmem := (hsame 7).mpr
  rw [hring, hring'] at hmem
  exact absurd (hmem (by decide)) (by decide)

end WalletTxBuilder

end Pebblecoin
