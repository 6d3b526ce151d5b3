import Pebblecoin.BuilderSelection

/-!
What a successful call of the transaction builder selects, and what it adds to the builder.
-/

namespace Pebblecoin

open Containers Control

variable {picks : List Nat × List Nat} {call : VoteCall} {result : UInt64}

namespace WalletTxBuilder

variable {env : WalletEnv} {session : CallSession} {w : Wallet2} {b b' : WalletTxBuilder}

/-- The key image of a transfer, computed anew. -/
def imageOf (keys : AccountKeys) (w : Wallet2) (i : Nat) : Option KeyImage :=
  w.transfers[i]?.map fun td =>
    keys.generateKeyImage (getTxPubKeyFromExtra td.tx) td.internalOutputIndex

/-- The sources stand for these transfers. -/
structure MadeFrom (keys : AccountKeys) (w : Wallet2) (transferIs : List Nat)
    (sources : List TxSourceEntry) : Prop where
  transfers : sources.map (·.transfer) = transferIs
  images : transferIs.map (imageOf keys w) =
    sources.map fun src => some (keys.generateKeyImage src.realOutTxKey src.realOutputInTxIndex)

section Inputs

variable {keys : AccountKeys} {is js : List Nat} {sources more : List TxSourceEntry}

theorem MadeFrom.nil : MadeFrom keys w [] [] := ⟨rfl, rfl⟩

theorem MadeFrom.append (h : MadeFrom keys w is sources) (h' : MadeFrom keys w js more) :
    MadeFrom keys w (is ++ js) (sources ++ more) where
  transfers := by rw [List.map_append, h.transfers, h'.transfers]
  images := by rw [List.map_append, h.images, h'.images, List.map_append]

variable (keys) in
theorem prepareInput_eq_ok {count idx : Nat} {fakes : FakeOuts} {src : TxSourceEntry}
    (h : prepareInput w count idx fakes = .ok src) : MadeFrom keys w [idx] [src] := by
  rw [prepareInput] at h
  split at h
  · cases h
  rename_i td htd
  split at h
  · rw [← Except.ok.inj h]
    refine ⟨rfl, ?_⟩
    rw [List.map_singleton, imageOf, htd]
    rfl
  · cases h

variable (keys) in
theorem prepareInputs_eq_ok {count : Nat} {fakeOutputs : List FakeOuts}
    (h : prepareInputs w count is fakeOutputs = .ok sources) : MadeFrom keys w is sources := by
  induction is generalizing fakeOutputs sources with
  | nil =>
    rw [← Except.ok.inj h]
    exact MadeFrom.nil
  | cons idx idxs ih =>
    obtain ⟨src, hsrc, h⟩ := bind_eq_ok_iff.mp h
    obtain ⟨rest, hrest, rfl⟩ := map_eq_ok_iff.mp h
    exact (prepareInput_eq_ok keys hsrc).append (ih hrest)

theorem unspentMembers_fst {idxs : List Nat} {fakeOuts : List FakeOuts}
    {r : List Nat × List FakeOuts} (h : unspentMembers w idxs fakeOuts = .ok r) :
    r.1 = idxs.filter (unspentIn w) := by
  induction idxs generalizing fakeOuts r with
  | nil => rw [← Except.ok.inj h, List.filter_nil]
  | cons idx idxs ih =>
    unfold unspentMembers at h
    rw [List.filter_cons, unspentIn]
    split at h
    · cases h
    · rename_i td htd
      rw [htd, Option.any_some]
      split at h
      · rename_i hspent
        rw [hspent, ih h]
        rfl
      · rename_i hspent
        split at h
        · cases h
        · obtain ⟨rest, hrest, rfl⟩ := map_eq_ok_iff.mp h
          rw [ih hrest, Bool.eq_false_of_not_eq_true hspent]
          rfl

/-- The members of a batch that stand as inputs when the batch is used. -/
def unspentMembersOf (w : Wallet2) (j : Nat) : List Nat := (membersOf w j).filter (unspentIn w)

variable (keys) in
theorem prepareBatch_eq_ok {j : Nat} (h : prepareBatch w j = .ok sources) :
    MadeFrom keys w (unspentMembersOf w j) sources := by
  rw [prepareBatch] at h
  split at h
  · cases h
  · rename_i batch hbatch
    obtain ⟨⟨selected, fakeOutputs⟩, hmembers, h⟩ := bind_eq_ok_iff.mp h
    have hselected : selected = unspentMembersOf w j := by
      rw [unspentMembersOf, membersOf, hbatch]
      exact unspentMembers_fst hmembers
    rw [← hselected]
    exact prepareInputs_eq_ok keys h

variable (keys) in
theorem prepareBatches_eq_ok (h : prepareBatches w js = .ok sources) :
    MadeFrom keys w (js.flatMap (unspentMembersOf w)) sources := by
  induction js generalizing sources with
  | nil =>
    rw [← Except.ok.inj h]
    exact MadeFrom.nil
  | cons j js ih =>
    obtain ⟨first, hfirst, h⟩ := bind_eq_ok_iff.mp h
    obtain ⟨rest, hrest, rfl⟩ := map_eq_ok_iff.mp h
    exact (prepareBatch_eq_ok keys hfirst).append (ih hrest)

end Inputs

section Picks

variable (env : WalletEnv) (session : CallSession) (w : Wallet2)

/-- The transfers and the batches that a call selects to spend. -/
def spendPicks (call : SendCall) (b : WalletTxBuilder) : List Nat × List Nat :=
  match calculateNeededMoney call.dsts call.fee with
  | .ok [(_, neededMoney)] =>
    match selectForSpend env session w call neededMoney b with
    | .ok (transferIs, batchIs, _) => (transferIs, batchIs)
    | .error _ => ([], [])
  | _ => ([], [])

def batchVotePicks (call : VoteCall) (b : WalletTxBuilder) : List Nat :=
  match selectBatchesForVotes w b call.numVotes call.desiredVotes with
  | .ok (batchIs, result) => if result = 0 then [] else batchIs
  | .error _ => []

/-- The transfers and the batches that a call selects to vote with. -/
def votePicks (call : VoteCall) (b : WalletTxBuilder) : List Nat × List Nat :=
  if call.desiredVotes.elems.isEmpty then ([], batchVotePicks w call b)
  else
    match selectTransfersForVotes env session w b call.numVotes call.dustPolicy.dustThreshold
        call.minFakeOuts with
    | .ok ((transferIs, result), _) =>
      if result = 0 then ([], batchVotePicks w call b) else (transferIs, [])
    | .error _ => ([], [])

end Picks

/-- The transfers of the inputs that the builder has. -/
def inputs (b : WalletTxBuilder) : List Nat := b.txb.sourcesUsed.map (·.transfer)

def changedBatches (b : WalletTxBuilder) : List Nat := b.changeBatchVotes.map (·.batchI)

/-- Inputs for the picks of a call have come at the end. -/
structure Picks (env : WalletEnv) (w : Wallet2) (picks : List Nat × List Nat)
    (b b' : WalletTxBuilder) : Prop where
  state : b'.state = b.state
  nodup : picks.1.Nodup
  unused : ∀ i ∈ picks.1, Unused w b i
  batches_nodup : picks.2.Nodup
  batches_open : ∀ j ∈ picks.2, OpenBatch w b j
  appends : ∃ sources, TxBuilder.Appends env.keys sources b.txb b'.txb ∧
    MadeFrom env.keys w (picks.1 ++ picks.2.flatMap (unspentMembersOf w)) sources

structure Spends (env : WalletEnv) (w : Wallet2) (picks : List Nat × List Nat)
    (b b' : WalletTxBuilder) : Prop extends Picks env w picks b b' where
  spendTransferIs : b'.spendTransferIs = b.spendTransferIs ++ picks.1
  spendBatchIs : b'.spendBatchIs = b.spendBatchIs ++ picks.2
  newBatchVotes : b'.newBatchVotes = b.newBatchVotes
  changeBatchVotes : b'.changeBatchVotes = b.changeBatchVotes

structure Votes (env : WalletEnv) (w : Wallet2) (picks : List Nat × List Nat)
    (b b' : WalletTxBuilder) : Prop extends Picks env w picks b b' where
  spendTransferIs : b'.spendTransferIs = b.spendTransferIs
  spendBatchIs : b'.spendBatchIs = b.spendBatchIs
  newBatchVotes : ∃ more, b'.newBatchVotes = b.newBatchVotes ++ more ∧
    more.flatMap (·.transferIs) = picks.1 ∧ ∀ nbvi ∈ more, nbvi.fakeOuts.length = nbvi.transferIs.length
  changedBatches : b'.changedBatches = b.changedBatches ++ picks.2

theorem Picks.inputs_eq (h : Picks env w picks b b') :
    b'.inputs = b.inputs ++ (picks.1 ++ picks.2.flatMap (unspentMembersOf w)) := by
  obtain ⟨sources, happends, hmade⟩ := h.appends
  rw [inputs, happends.sourcesUsed, List.map_append, hmade.transfers, inputs]

theorem Picks.kImages_eq (h : Picks env w picks b b') :
    b'.txb.tx.vin.map TxIn.kImage = b.txb.tx.vin.map TxIn.kImage ++
      (picks.1 ++ picks.2.flatMap (unspentMembersOf w)).map (imageOf env.keys w) := by
  obtain ⟨sources, happends, hmade⟩ := h.appends
  rw [happends.kImages, hmade.images]

theorem selectForSpend_eq_ok {call : SendCall} {neededMoney : UInt64}
    {r : List Nat × List Nat × UInt64 × UInt64}
    (h : selectForSpend env session w call neededMoney b = .ok r) :
    r.1.Subperm (unbatchedTransfers env session w b fun _ => true) ∧
      r.2.1.Nodup ∧ ∀ j ∈ r.2.1, OpenBatch w b j := by
  obtain ⟨⟨⟨transferIs, found⟩, scanty⟩, hselect, h⟩ := bind_eq_ok_iff.mp h
  have htransfers := selectTransfersForSpend_subperm hselect
  dsimp only at h htransfers
  split at h
  · obtain ⟨⟨batchIs, batchFound⟩, hbatches, h⟩ := bind_eq_ok_iff.mp h
    have hopen := open_of_selectBatchesForSpend hbatches
    dsimp only at h hopen
    split at h
    · cases h
    · rw [← Except.ok.inj h]
      exact ⟨htransfers, hopen⟩
  · rw [← Except.ok.inj h]
    exact ⟨htransfers, List.nodup_nil, by simp⟩

theorem addSend_inv {call : SendCall} (h : (addSend env session w call b).1 = .ok b') :
    ∃ neededMoney transferIs batchIs found fakeOutputs transferSources batchSources dests txb,
      spendPicks env session w call b = (transferIs, batchIs) ∧
      (∃ cp, calculateNeededMoney call.dsts call.fee = .ok [(cp, neededMoney)]) ∧
      selectForSpend env session w call neededMoney b = .ok (transferIs, batchIs, found) ∧
      getFakeOutputs session w 2 transferIs call.minFakeOuts call.fakeOutputsCount = .ok fakeOutputs ∧
      prepareInputs w call.fakeOutputsCount transferIs fakeOutputs = .ok transferSources ∧
      prepareBatches w batchIs = .ok batchSources ∧
      splitDests env call found.1 neededMoney = .ok dests ∧
      b.txb.addSend env.keys (transferSources ++ batchSources) dests = some txb ∧
      b' = { b with
        txb := txb
        spendTransferIs := b.spendTransferIs ++ transferIs
        spendBatchIs := b.spendBatchIs ++ batchIs
        allChange := b.allChange + (found.1 - neededMoney)
        xpbChange := b.xpbChange + (b.allChange + (found.1 - neededMoney))
        scantyOutsAmount := b.scantyOutsAmount + found.2 } := by
  rw [addSend] at h
  split at h
  · cases h
  split at h
  · cases h
  rename_i needed hneeded
  dsimp only at h
  rw [addSendNeeded.eq_def] at h
  split at h
  · rename_i cp neededMoney
    obtain ⟨⟨transferIs, batchIs, foundMoney, scanty⟩, hselect, h⟩ := bind_eq_ok_iff.mp h
    have hpicks : spendPicks env session w call b = (transferIs, batchIs) := by
      rw [spendPicks, hneeded]
      dsimp only
      rw [hselect]
    dsimp only at h
    obtain ⟨fakeOutputs, hfakes, h⟩ := bind_eq_ok_iff.mp h
    obtain ⟨transferSources, htransfers, h⟩ := bind_eq_ok_iff.mp h
    obtain ⟨batchSources, hbatches, h⟩ := bind_eq_ok_iff.mp h
    obtain ⟨dests, hdests, h⟩ := bind_eq_ok_iff.mp h
    split at h
    · cases h
    · rename_i txb htxb
      exact ⟨neededMoney, transferIs, batchIs, (foundMoney, scanty), fakeOutputs, transferSources,
        batchSources, dests, txb, hpicks, ⟨cp, hneeded⟩, hselect, hfakes, htransfers, hbatches, hdests, htxb,
        (Except.ok.inj h).symm⟩
  · cases h

theorem addSend_eq_ok {call : SendCall} (h : (addSend env session w call b).1 = .ok b') :
    Spends env w (spendPicks env session w call b) b b' := by
  obtain ⟨neededMoney, transferIs, batchIs, found, fakeOutputs, transferSources, batchSources, dests,
    txb, hpicks, -, hselect, -, htransfers, hbatches, -, htxb, rfl⟩ := addSend_inv h
  obtain ⟨hsub, hnodup, hopen⟩ := selectForSpend_eq_ok hselect
  rw [hpicks]
  refine ⟨⟨rfl, nodup_of_subperm hsub (nodup_unbatchedTransfers _),
    fun i hi => unused_of_mem (hsub.subset hi), hnodup, hopen,
    transferSources ++ batchSources, TxBuilder.appends_addSend htxb, ?_⟩, rfl, rfl, rfl, rfl⟩
  exact (prepareInputs_eq_ok _ htransfers).append (prepareBatches_eq_ok _ hbatches)

theorem addNewBatch_inv {transferIs : List Nat}
    (h : addNewBatch env session w call transferIs b = .ok b') :
    ∃ fakeOutputs sources votes txb,
      getFakeOutputs session w 1 transferIs call.minFakeOuts call.fakeOutsCount = .ok fakeOutputs ∧
      fakeOutputs.length = transferIs.length ∧
      prepareInputs w call.fakeOutsCount transferIs fakeOutputs = .ok sources ∧
      b.txb.addVote env.keys sources 0 votes = some txb ∧
      b' = { b with
        txb := txb
        newBatchVotes := b.newBatchVotes ++ [⟨transferIs, fakeOutputs, votes⟩] } := by
  obtain ⟨fakeOutputs, hfakes, h⟩ := bind_eq_ok_iff.mp h
  split at h
  · cases h
  rename_i hlength
  obtain ⟨sources, hsources, h⟩ := bind_eq_ok_iff.mp h
  split at h
  · cases h
  rename_i txb htxb
  exact ⟨fakeOutputs, sources, _, txb, hfakes, not_not.mp hlength, hsources, htxb,
    (Except.ok.inj h).symm⟩

theorem addNewBatch_eq_ok {transferIs : List Nat}
    (h : addNewBatch env session w call transferIs b = .ok b') (hnodup : transferIs.Nodup)
    (hunused : ∀ i ∈ transferIs, Unused w b i) : Votes env w (transferIs, []) b b' := by
  obtain ⟨fakeOutputs, sources, votes, txb, -, hlength, hsources, htxb, rfl⟩ := addNewBatch_inv h
  refine ⟨⟨rfl, hnodup, hunused, List.nodup_nil, by simp, sources, TxBuilder.appends_addVote htxb, ?_⟩,
    rfl, rfl, ⟨_, rfl, ?_, ?_⟩, ?_⟩
  · simpa using prepareInputs_eq_ok env.keys hsources
  · simp
  · simpa using hlength
  · simp [changedBatches]

theorem changeBatches_foldlM {js : List Nat}
    (h : js.foldlM (changeBatch env session w call) b = .ok b') :
    b'.state = b.state ∧ b'.spendTransferIs = b.spendTransferIs ∧ b'.spendBatchIs = b.spendBatchIs ∧
      b'.newBatchVotes = b.newBatchVotes ∧ b'.changedBatches = b.changedBatches ++ js ∧
      ∃ sources, TxBuilder.Appends env.keys sources b.txb b'.txb ∧
        MadeFrom env.keys w (js.flatMap (unspentMembersOf w)) sources := by
  induction js generalizing b with
  | nil =>
    rw [← Except.ok.inj h]
    exact ⟨rfl, rfl, rfl, rfl, by simp, [], TxBuilder.Appends.refl _, MadeFrom.nil⟩
  | cons j js ih =>
    rw [List.foldlM_cons] at h
    obtain ⟨next, hnext, h⟩ := bind_eq_ok_iff.mp h
    rw [changeBatch] at hnext
    split at hnext
    · cases hnext
    rename_i batch hbatch
    obtain ⟨sources, hsources, hnext⟩ := bind_eq_ok_iff.mp hnext
    split at hnext
    · cases hnext
    rename_i txb htxb
    obtain rfl := Except.ok.inj hnext
    obtain ⟨hstate, hspend, hspendBatch, hnew, hchanged, rest, happends, hrest⟩ := ih h
    refine ⟨hstate, hspend, hspendBatch, hnew, ?_, sources ++ rest,
      (TxBuilder.appends_addVote htxb).trans happends, (prepareBatch_eq_ok _ hsources).append hrest⟩
    rw [hchanged]
    simp [changedBatches]

theorem changeBatches_eq_ok (h : changeBatches env session w call b = .ok (result, b')) :
    Votes env w ([], batchVotePicks w call b) b b' := by
  obtain ⟨⟨batchIs, found⟩, hselect, h⟩ := bind_eq_ok_iff.mp h
  obtain ⟨hnodup, hopen⟩ := open_of_selectBatchesForVotes hselect
  dsimp only at h hnodup hopen
  rw [batchVotePicks, hselect]
  dsimp only
  split at h
  · rename_i hzero
    obtain ⟨-, rfl⟩ := Prod.mk.inj (Except.ok.inj h)
    rw [if_pos hzero]
    exact ⟨⟨rfl, List.nodup_nil, by simp, List.nodup_nil, by simp, [], TxBuilder.Appends.refl _,
        MadeFrom.nil⟩, rfl, rfl, ⟨[], by simp⟩, by simp⟩
  · rename_i hzero
    obtain ⟨last, hfold, hlast⟩ := map_eq_ok_iff.mp h
    obtain ⟨-, rfl⟩ := Prod.mk.inj hlast
    obtain ⟨hstate, hspend, hspendBatch, hnew, hchanged, happends⟩ := changeBatches_foldlM hfold
    rw [if_neg hzero]
    exact ⟨⟨hstate, List.nodup_nil, by simp, hnodup, hopen, happends⟩, hspend, hspendBatch,
      ⟨[], by simp [hnew]⟩, hchanged⟩

theorem Votes.scanty (h : Votes env w picks b b') (amount : UInt64) :
    Votes env w picks b { b' with scantyOutsAmount := amount } :=
  ⟨⟨h.state, h.nodup, h.unused, h.batches_nodup, h.batches_open, h.appends⟩, h.spendTransferIs,
    h.spendBatchIs, h.newBatchVotes, h.changedBatches⟩

theorem addVotes_inv (h : (addVotes env session w call b).1 = .ok (result, b')) :
    (∃ transferIs next scanty, votePicks env session w call b = (transferIs, []) ∧
        transferIs.Subperm (unbatchedTransfers env session w b fun td =>
          decide (call.dustPolicy.dustThreshold < td.amountD)) ∧
        addNewBatch env session w call transferIs b = .ok next ∧
        b' = { next with scantyOutsAmount := scanty }) ∨
      ∃ result last scanty, votePicks env session w call b = ([], batchVotePicks w call b) ∧
        changeBatches env session w call b = .ok (result, last) ∧
        b' = { last with scantyOutsAmount := scanty } := by
  rw [addVotes] at h
  split at h
  · cases h
  rw [addVotesFor] at h
  rw [votePicks]
  split at h
  · rename_i hempty
    rw [if_pos hempty]
    exact Or.inr ⟨result, b', b'.scantyOutsAmount, rfl, h, rfl⟩
  · rename_i hempty
    rw [if_neg hempty]
    obtain ⟨⟨⟨transferIs, found⟩, scanty⟩, hselect, h⟩ := bind_eq_ok_iff.mp h
    have hsub := selectTransfersForVotes_subperm hselect
    rw [hselect]
    dsimp only at h hsub ⊢
    split at h
    · rename_i hzero
      obtain ⟨⟨result', last⟩, hcall, h⟩ := bind_eq_ok_iff.mp h
      obtain ⟨-, rfl⟩ := Prod.mk.inj (Except.ok.inj h)
      rw [if_pos hzero]
      exact Or.inr ⟨result', last, _, rfl, hcall, rfl⟩
    · rename_i hzero
      obtain ⟨⟨result', last⟩, hcall, h⟩ := bind_eq_ok_iff.mp h
      obtain ⟨-, rfl⟩ := Prod.mk.inj (Except.ok.inj h)
      obtain ⟨next, hnew, hnext⟩ := map_eq_ok_iff.mp hcall
      obtain ⟨-, rfl⟩ := Prod.mk.inj hnext
      rw [if_neg hzero]
      exact Or.inl ⟨transferIs, next, _, rfl, hsub, hnew, rfl⟩

theorem addVotes_eq_ok (h : (addVotes env session w call b).1 = .ok (result, b')) :
    Votes env w (votePicks env session w call b) b b' := by
  rcases addVotes_inv h with ⟨transferIs, next, scanty, hpicks, hsub, hnew, rfl⟩ |
    ⟨result, last, scanty, hpicks, hcall, rfl⟩
  · rw [hpicks]
    have hvotes := addNewBatch_eq_ok hnew (nodup_of_subperm hsub (nodup_unbatchedTransfers _))
      fun i hi => unused_of_mem (hsub.subset hi)
    exact hvotes.scanty scanty
  · rw [hpicks]
    exact (changeBatches_eq_ok hcall).scanty scanty

end WalletTxBuilder

namespace Wallet2

variable {w w' w'' : Wallet2} {i j : Nat}

/-- The wallet after some entries of the batch map have been read. -/
def LooksUp (w w' : Wallet2) : Prop := ∃ is, w' = w.lookUpBatches is

theorem lookUpBatches_nil (w : Wallet2) : w.lookUpBatches [] = w := rfl

theorem batchIndex_lookUpBatches (is : List Nat) (w : Wallet2) (i : Nat) :
    (w.lookUpBatches is).batchIndex i = w.batchIndex i := by
  rw [batchIndex, lookUpBatches]
  dsimp only
  split <;> rfl

theorem lookUpBatches_append (is js : List Nat) (w : Wallet2) :
    w.lookUpBatches (is ++ js) = (w.lookUpBatches is).lookUpBatches js := by
  have hmap : ∀ i, (w.lookUpBatches (is ++ js)).votesInfo.transferBatchMap i =
      ((w.lookUpBatches is).lookUpBatches js).votesInfo.transferBatchMap i := by
    intro i
    change (if (is ++ js).contains i then _ else _) =
      if js.contains i then some ((w.lookUpBatches is).batchIndex i)
        else if is.contains i then some (w.batchIndex i) else w.votesInfo.transferBatchMap i
    rw [batchIndex_lookUpBatches]
    by_cases hi : i ∈ is <;> by_cases hj : i ∈ js <;> simp [hi, hj]
  exact congrArg
    (fun m => { w with votesInfo := { w.votesInfo with transferBatchMap := m } } : _ → Wallet2)
    (funext hmap)

theorem LooksUp.refl (w : Wallet2) : LooksUp w w := ⟨[], (lookUpBatches_nil w).symm⟩

theorem LooksUp.trans (h : LooksUp w w') (h' : LooksUp w' w'') : LooksUp w w'' := by
  obtain ⟨is, rfl⟩ := h
  obtain ⟨js, rfl⟩ := h'
  exact ⟨is ++ js, (lookUpBatches_append is js w).symm⟩

theorem LooksUp.transfers (h : LooksUp w w') : w'.transfers = w.transfers := by
  obtain ⟨is, rfl⟩ := h
  rfl

theorem LooksUp.batches (h : LooksUp w w') : w'.votesInfo.batches = w.votesInfo.batches := by
  obtain ⟨is, rfl⟩ := h
  rfl

theorem LooksUp.batchIndex_eq (h : LooksUp w w') (i : Nat) : w'.batchIndex i = w.batchIndex i := by
  obtain ⟨is, rfl⟩ := h
  exact batchIndex_lookUpBatches is w i

end Wallet2

namespace WalletTxBuilder

variable {env : WalletEnv} {w w' : Wallet2} {b b' : WalletTxBuilder}

theorem membersOf_lookUp (h : Wallet2.LooksUp w w') (j : Nat) : membersOf w' j = membersOf w j := by
  rw [membersOf, membersOf, h.batches]

theorem unspentIn_lookUp (h : Wallet2.LooksUp w w') (i : Nat) : unspentIn w' i = unspentIn w i := by
  rw [unspentIn, unspentIn, h.transfers]

theorem unspentMembersOf_lookUp (h : Wallet2.LooksUp w w') :
    unspentMembersOf w' = unspentMembersOf w := by
  funext j
  rw [unspentMembersOf, unspentMembersOf, membersOf_lookUp h]
  exact List.filter_congr fun i _ => unspentIn_lookUp h i

theorem imageOf_lookUp (h : Wallet2.LooksUp w w') (keys : AccountKeys) :
    imageOf keys w' = imageOf keys w := by
  funext i
  rw [imageOf, imageOf, h.transfers]

inductive BuilderCall where
  | send (session : CallSession) (call : SendCall)
  | vote (session : CallSession) (call : VoteCall)

/-- The votes that a call found are only returned to the caller. -/
def perform (env : WalletEnv) (w : Wallet2) (b : WalletTxBuilder) :
    BuilderCall → Except BuilderError WalletTxBuilder × Wallet2
  | .send session call => addSend env session w call b
  | .vote session call =>
    let r := addVotes env session w call b
    (Prod.snd <$> r.1, r.2)

def picksOf (env : WalletEnv) (w : Wallet2) (b : WalletTxBuilder) : BuilderCall → List Nat × List Nat
  | .send session call => spendPicks env session w call b
  | .vote session call => votePicks env session w call b

/-- An exception ends the row. -/
def performAll (env : WalletEnv) :
    List BuilderCall → Wallet2 → WalletTxBuilder → Except BuilderError WalletTxBuilder × Wallet2
  | [], w, b => (.ok b, w)
  | c :: cs, w, b =>
    match perform env w b c with
    | (.error e, w) => (.error e, w)
    | (.ok b, w) => performAll env cs w b

theorem perform_looksUp (env : WalletEnv) (w : Wallet2) (b : WalletTxBuilder) (c : BuilderCall) :
    Wallet2.LooksUp w (perform env w b c).2 := by
  cases c with
  | send session call =>
    rw [perform, addSend]
    split
    · exact Wallet2.LooksUp.refl w
    split
    · exact Wallet2.LooksUp.refl w
    · exact ⟨_, rfl⟩
  | vote session call =>
    rw [perform, addVotes]
    split
    · exact Wallet2.LooksUp.refl w
    dsimp only
    split
    · exact Wallet2.LooksUp.refl w
    · exact ⟨_, rfl⟩

theorem performAll_looksUp (env : WalletEnv) (cs : List BuilderCall) (w : Wallet2)
    (b : WalletTxBuilder) : Wallet2.LooksUp w (performAll env cs w b).2 := by
  induction cs generalizing w b with
  | nil => exact Wallet2.LooksUp.refl w
  | cons c cs ih =>
    have hstep := perform_looksUp env w b c
    rw [performAll]
    split
    · rename_i e w' hc
      rw [hc] at hstep
      exact hstep
    · rename_i b' w' hc
      rw [hc] at hstep
      exact hstep.trans (ih w' b')

theorem perform_eq_ok {c : BuilderCall} (h : (perform env w b c).1 = .ok b') :
    Spends env w (picksOf env w b c) b b' ∨ Votes env w (picksOf env w b c) b b' := by
  cases c with
  | send session call => exact Or.inl (addSend_eq_ok h)
  | vote session call =>
    obtain ⟨⟨result, last⟩, hr, rfl⟩ := map_eq_ok_iff.mp h
    exact Or.inr (addVotes_eq_ok hr)

end WalletTxBuilder

end Pebblecoin
