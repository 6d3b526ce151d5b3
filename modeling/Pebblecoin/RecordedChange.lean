import Mathlib.Algebra.Order.BigOperators.Group.List
import Pebblecoin.BuilderInputs
import Pebblecoin.SplitStrategies

/-!
The change that a transaction pays back, and the change that is recorded for it.
-/

namespace Pebblecoin

open Control

variable {r amounts : CurrencyMap × TxBuilder} {dsts changes : List TxDestinationEntry}
  {found neededMoney : UInt64} {call : SendCall}

namespace TxBuilder

variable {keys : AccountKeys} {vote : Option (UInt16 × DelegateVotes)} {b b' : TxBuilder}

def outAmounts (b : TxBuilder) : List UInt64 := b.tx.vout.map TxOut.amount

theorem updateVersionTo_vout (v : UInt64) (tx : Transaction) : (updateVersionTo v tx).vout = tx.vout := by
  rw [updateVersionTo]
  split <;> rfl

theorem outAmounts_addSource {src : TxSourceEntry} (h : addSource keys vote amounts src = some r) :
    r.2.outAmounts = amounts.2.outAmounts := by
  simp only [addSource, Option.bind_eq_bind, Option.bind_eq_some_iff] at h
  obtain ⟨real, -, inputAmounts, -, inEphemeral, -, h⟩ := h
  split_ifs at h
  rw [← Option.some.inj h]
  simp [outAmounts, useSource, addIn, updateVersionTo_vout]

theorem outAmounts_addSources {sources : List TxSourceEntry}
    (h : sources.foldlM (addSource keys vote) amounts = some r) :
    r.2.outAmounts = amounts.2.outAmounts := by
  induction sources generalizing amounts with
  | nil => rw [← Option.some.inj h]
  | cons src sources ih =>
    rw [List.foldlM_cons] at h
    obtain ⟨next, hnext, hrest⟩ := Option.bind_eq_some_iff.mp h
    rw [ih hrest, outAmounts_addSource hnext]

theorem outAmounts_addDest {dst : TxDestinationEntry} (h : addDest amounts dst = some r) :
    r.2.outAmounts = amounts.2.outAmounts ++ [dst.amount] := by
  obtain ⟨out, hout, rfl⟩ := Option.map_eq_some_iff.mp h
  have hamount : out.amount = dst.amount := by
    rw [dstToOut] at hout
    split_ifs at hout
    obtain ⟨key, -, rfl⟩ := Option.map_eq_some_iff.mp hout
    rfl
  simp [outAmounts, addOut, updateVersionTo_vout, hamount]

theorem outAmounts_foldlM_addDest (h : dsts.foldlM addDest amounts = some r) :
    r.2.outAmounts = amounts.2.outAmounts ++ dsts.map (·.amount) := by
  induction dsts generalizing amounts with
  | nil => rw [← Option.some.inj h, List.map_nil, List.append_nil]
  | cons dst dsts ih =>
    rw [List.foldlM_cons] at h
    obtain ⟨next, hnext, hrest⟩ := Option.bind_eq_some_iff.mp h
    rw [ih hrest, outAmounts_addDest hnext, List.append_assoc, List.map_cons, List.singleton_append]

theorem outAmounts_addSend {sources : List TxSourceEntry} {destinations : List TxDestinationEntry}
    (h : b.addSend keys sources destinations = some b') :
    b'.outAmounts = b.outAmounts ++ (shuffleOuts destinations).map (·.amount) := by
  rw [addSend] at h
  split at h
  · cases h
  obtain ⟨r, hr, h⟩ := Option.bind_eq_some_iff.mp h
  obtain ⟨⟨outputAmounts, next⟩, hfold, h⟩ := Option.bind_eq_some_iff.mp h
  dsimp only at h
  split at h
  · rw [← Option.some.inj h, ← outAmounts_addSources hr]
    exact outAmounts_foldlM_addDest hfold
  · cases h

end TxBuilder

theorem sum_le_of_subperm {l l' : List Nat} (f : Nat → Nat) (h : l.Subperm l') :
    (l.map f).sum ≤ (l'.map f).sum := by
  obtain ⟨l'', hperm, hsub⟩ := h
  rw [← (hperm.map f).sum_nat]
  exact (hsub.map f).sum_le_sum fun _ _ => Nat.zero_le _

theorem toNat_add_le (x y : UInt64) : (x + y).toNat ≤ x.toNat + y.toNat := by
  rw [UInt64.toNat_add]
  exact Nat.mod_le _ _

namespace Wallet2

def transferWorth (w : Wallet2) (i : Nat) : Nat := (w.transferAmount i).toNat

/-- Nothing if the batch cannot be read. -/
def batchWorth (w : Wallet2) (j : Nat) : Nat :=
  match w.votesInfo.batches[j]? with
  | none => 0
  | some batch => ((w.batchAmount batch.transferIndices).toOption.getD 0).toNat

/-- All transfers, and what the batches hold of them once more. -/
def worth (w : Wallet2) : Nat :=
  ((List.range w.transfers.length).map w.transferWorth).sum +
    ((List.range w.votesInfo.batches.length).map w.batchWorth).sum

end Wallet2

namespace WalletTxBuilder

variable {env : WalletEnv} {session : CallSession} {w : Wallet2} {b b' : WalletTxBuilder}

theorem spendLoop_found_le {rounds numDusts : Nat} {dusts transfers picked : List Nat}
    (h : found.toNat ≤ (picked.map w.transferWorth).sum) :
    (spendLoop session w neededMoney rounds numDusts dusts transfers picked found).2.toNat ≤
      ((spendLoop session w neededMoney rounds numDusts dusts transfers picked found).1.map
        w.transferWorth).sum := by
  induction rounds generalizing numDusts dusts transfers picked found with
  | zero => exact h
  | succ rounds ih =>
    rw [spendLoop]
    split
    · split
      · exact h
      · rename_i idx dusts' transfers' numDusts' hpop
        apply ih
        rw [List.map_append, List.sum_append, List.map_singleton, List.sum_singleton]
        exact (toNat_add_le _ _).trans (Nat.add_le_add_right h _)
    · exact h

theorem selectTransfersForSpend_found_le {dust : UInt64} {minFakeOuts : Nat}
    {r : (List Nat × UInt64) × UInt64}
    (h : selectTransfersForSpend env session w b neededMoney dust minFakeOuts = .ok r) :
    r.1.2.toNat ≤ ((List.range w.transfers.length).map w.transferWorth).sum := by
  have hsub := selectTransfersForSpend_subperm h
  have hrange : (unbatchedTransfers env session w b fun _ => true).Sublist
      (List.range w.transfers.length) := List.filter_sublist.trans List.filter_sublist
  have hle := sum_le_of_subperm w.transferWorth (hsub.trans hrange.subperm)
  obtain ⟨⟨transfers, scanty⟩, htransfers, h⟩ := bind_eq_ok_iff.mp h
  obtain ⟨⟨dusts, scantyDusts⟩, hdusts, h⟩ := bind_eq_ok_iff.mp h
  refine Nat.le_trans ?_ hle
  rw [← Except.ok.inj h]
  exact spendLoop_found_le (Nat.zero_le _)

theorem takeBatches_found_le {amount : UInt64} {infos : List (UInt64 × Nat)} {picked : List Nat}
    {r : List Nat × UInt64} (h : takeBatches w amount infos picked found = .ok r)
    (hfound : found.toNat ≤ (picked.map w.batchWorth).sum) :
    r.2.toNat ≤ (r.1.map w.batchWorth).sum := by
  induction infos generalizing picked found with
  | nil =>
    rw [← Except.ok.inj h]
    exact hfound
  | cons inf infos ih =>
    rw [takeBatches] at h
    cases hbatch : w.votesInfo.batches[inf.2]? with
    | none =>
      rw [hbatch] at h
      cases h
    | some batch =>
      rw [hbatch] at h
      obtain ⟨more, hmore, h⟩ := bind_eq_ok_iff.mp h
      have hworth : w.batchWorth inf.2 = more.toNat := by
        rw [Wallet2.batchWorth, hbatch]
        dsimp only
        rw [hmore]
        rfl
      have hnext : (found + more).toNat ≤ ((picked ++ [inf.2]).map w.batchWorth).sum := by
        rw [List.map_append, List.sum_append, List.map_singleton, List.sum_singleton, hworth]
        exact (toNat_add_le _ _).trans (Nat.add_le_add_right hfound _)
      dsimp only at h
      split at h
      · rw [← Except.ok.inj h]
        exact hnext
      · exact ih h hnext

theorem selectBatchesForSpend_found_le {r : List Nat × UInt64}
    (h : selectBatchesForSpend w b neededMoney = .ok r) :
    r.2.toNat ≤ ((List.range w.votesInfo.batches.length).map w.batchWorth).sum := by
  obtain ⟨hnodup, hopen⟩ := open_of_selectBatchesForSpend h
  have hsubset : r.1 ⊆ List.range w.votesInfo.batches.length := by
    intro j hj
    obtain ⟨i, hi, -⟩ := (hopen j hj).member
    rw [List.mem_range]
    by_contra hout
    rw [membersOf, List.getElem?_eq_none (Nat.le_of_not_lt hout)] at hi
    cases hi
  obtain ⟨infos, -, h⟩ := bind_eq_ok_iff.mp h
  exact (takeBatches_found_le h (Nat.zero_le _)).trans
    (sum_le_of_subperm _ (hnodup.subperm hsubset))

theorem selectForSpend_covers {r : List Nat × List Nat × UInt64 × UInt64}
    (hworth : w.worth < 2 ^ 64) (h : selectForSpend env session w call neededMoney b = .ok r) :
    neededMoney ≤ r.2.2.1 := by
  obtain ⟨⟨⟨transferIs, found⟩, scanty⟩, htransfers, h⟩ := bind_eq_ok_iff.mp h
  have hfound := selectTransfersForSpend_found_le htransfers
  dsimp only at h hfound
  split at h
  · rename_i hless
    obtain ⟨⟨batchIs, batchFound⟩, hbatches, h⟩ := bind_eq_ok_iff.mp h
    have hbatchFound := selectBatchesForSpend_found_le hbatches
    dsimp only at h hbatchFound
    split at h
    · cases h
    · rename_i henough
      rw [← Except.ok.inj h]
      -- Neither the sum nor the difference wraps.
      rw [Wallet2.worth] at hworth
      rw [UInt64.lt_iff_toNat_lt] at hless
      rw [UInt64.not_lt, UInt64.le_iff_toNat_le,
        UInt64.toNat_sub_of_le _ _ (UInt64.le_iff_toNat_le.mpr hless.le)] at henough
      rw [UInt64.le_iff_toNat_le, UInt64.toNat_add, Nat.mod_eq_of_lt (by omega)]
      omega
  · rename_i henough
    rw [← Except.ok.inj h]
    exact UInt64.not_lt.mp henough

def totalOf (entries : List TxDestinationEntry) : Nat := (entries.map fun e => e.amount.toNat).sum

/-- The change of a call that sends, as it is given to the split strategy. -/
def sendChange (env : WalletEnv) (session : CallSession) (w : Wallet2) (call : SendCall)
    (b : WalletTxBuilder) : TxDestinationEntry :=
  match calculateNeededMoney call.dsts call.fee with
  | .ok [(_, neededMoney)] =>
    match selectForSpend env session w call neededMoney b with
    | .ok (_, _, foundMoney, _) => changeDest env foundMoney neededMoney
    | .error _ => changeDest env 0 0
  | _ => changeDest env 0 0

/-- Among the outputs, the destinations get theirs and these pay the change back, up to the
dust. -/
def IsChange (dsts : List TxDestinationEntry) (changeDst : TxDestinationEntry)
    (r : List TxDestinationEntry × UInt64) (changes : List TxDestinationEntry) : Prop :=
  ∃ groups, r.1 = groups.flatten ++ changes ∧
    List.Forall₂ (fun de group => Pays de group de.amount.toNat) dsts groups ∧
    ∃ amount, Pays changeDst changes amount ∧ amount + r.2.toNat = changeDst.amount.toNat

def splitOf (call : SendCall) (changeDst : TxDestinationEntry) : List TxDestinationEntry × UInt64 :=
  call.split call.dsts changeDst call.dustPolicy.dustThreshold

theorem changeDest_amount {needed : UInt64} (h : needed ≤ found) :
    (changeDest env found needed).amount = found - needed := by
  rw [changeDest]
  split_ifs with hless
  · rfl
  · obtain rfl : needed = found := UInt64.le_antisymm h (UInt64.not_lt.mp hless)
    exact (UInt64.sub_self _).symm

theorem splitDests_inv {needed : UInt64} {dests : List TxDestinationEntry}
    (h : splitDests env call found needed = .ok dests) :
    (splitOf call (changeDest env found needed)).2 ≤ call.dustPolicy.dustThreshold ∧
      (splitOf call (changeDest env found needed)).1.Sublist dests := by
  rw [splitDests] at h
  dsimp only at h
  split at h
  · cases h
  · rename_i hdust
    refine ⟨UInt64.not_lt.mp hdust, ?_⟩
    split at h
    · rw [← Except.ok.inj h]
      exact List.sublist_append_left _ _
    · rw [← Except.ok.inj h]
      exact List.Sublist.refl _

/-- What one call records, and what it pays back. -/
structure RecordsSend (call : SendCall) (changeDst : TxDestinationEntry) (b b' : WalletTxBuilder) :
    Prop where
  allChange : b'.allChange = b.allChange + changeDst.amount
  xpbChange : b'.xpbChange = b.xpbChange + b'.allChange
  dust_le : (splitOf call changeDst).2 ≤ call.dustPolicy.dustThreshold
  outputs : ∃ dests, (splitOf call changeDst).1.Sublist dests ∧
    b'.txb.outAmounts = b.txb.outAmounts ++ (TxBuilder.shuffleOuts dests).map (·.amount)

theorem addSend_records (hworth : w.worth < 2 ^ 64)
    (h : (addSend env session w call b).1 = .ok b') :
    RecordsSend call (sendChange env session w call b) b b' := by
  obtain ⟨neededMoney, transferIs, batchIs, found, fakeOutputs, transferSources, batchSources, dests,
    txb, -, ⟨cp, hneeded⟩, hselect, -, -, -, hdests, htxb, rfl⟩ := addSend_inv h
  have hchange : sendChange env session w call b = changeDest env found.1 neededMoney := by
    rw [sendChange, hneeded]
    dsimp only
    rw [hselect]
  obtain ⟨hdust, hsub⟩ := splitDests_inv hdests
  have hamount : (changeDest env found.1 neededMoney).amount = found.1 - neededMoney :=
    changeDest_amount (selectForSpend_covers hworth hselect)
  rw [hchange]
  refine ⟨?_, rfl, hdust, dests, hsub, TxBuilder.outAmounts_addSend htxb⟩
  rw [hamount]

theorem IsChange.total {changeDst : TxDestinationEntry} {r : List TxDestinationEntry × UInt64}
    (h : IsChange dsts changeDst r changes) :
    totalOf changes + r.2.toNat = changeDst.amount.toNat := by
  obtain ⟨groups, -, -, amount, hpays, htotal⟩ := h
  rw [totalOf, hpays.total]
  exact htotal

theorem IsChange.sublist {changeDst : TxDestinationEntry} {r : List TxDestinationEntry × UInt64}
    (h : IsChange dsts changeDst r changes) : changes.Sublist r.1 := by
  obtain ⟨groups, hr, -⟩ := h
  rw [hr]
  exact List.sublist_append_right _ _

theorem isChange_digitSplitStrategy (dsts : List TxDestinationEntry) (changeDst : TxDestinationEntry)
    (dustThreshold : UInt64) :
    ∃ changes, IsChange dsts changeDst (digitSplitStrategy dsts changeDst dustThreshold) changes := by
  obtain ⟨groups, changes, h⟩ := (digitSplitStrategy_conserves dsts changeDst dustThreshold).exists_groups
  exact ⟨changes, groups, h⟩

def sampleSending (amount : UInt64) (split : SplitStrategy) (dustThreshold : UInt64) : SendCall :=
  ⟨[⟨cpXpb, amount, ⟨nullPkey, nullPkey⟩⟩], 0, 0, 0, split, { samplePolicy with dustThreshold }⟩

/-- The change is one output, if there is any. -/
def wholeChange (change : TxDestinationEntry) : List TxDestinationEntry :=
  if change.amount = 0 then [] else [change]

def wholeSplit : SplitStrategy := fun dsts change _ => (dsts ++ wholeChange change, 0)

theorem isChange_wholeSplit (dsts : List TxDestinationEntry) (changeDst : TxDestinationEntry)
    (dustThreshold : UInt64) :
    IsChange dsts changeDst (wholeSplit dsts changeDst dustThreshold) (wholeChange changeDst) := by
  have hself : ∀ de : TxDestinationEntry, Pays de [de] de.amount.toNat := fun de =>
    ⟨fun e he => by rw [List.mem_singleton.mp he]; exact ⟨rfl, rfl⟩, Nat.add_zero _⟩
  refine ⟨dsts.map fun de => [de], ?_, ?_, changeDst.amount.toNat, ?_, Nat.add_zero _⟩
  · rw [← List.flatMap_def, List.flatMap_singleton']
    rfl
  · rw [List.forall₂_map_right_iff, List.forall₂_same]
    exact fun de _ => hself de
  · unfold wholeChange
    split_ifs with hzero
    · exact ⟨fun e he => absurd he List.not_mem_nil, by rw [hzero]; rfl⟩
    · exact hself changeDst

/-- The builder after a call, or before it if the call fails. -/
def sent (call : SendCall) (b : WalletTxBuilder) : WalletTxBuilder :=
  ((addSend sampleWalletEnv sampleCall (sampleVoter 2) call b).1.toOption).getD b

theorem addSend_sent
    (h : (addSend sampleWalletEnv sampleCall (sampleVoter 2) call b).1.toOption.isSome = true) :
    (addSend sampleWalletEnv sampleCall (sampleVoter 2) call b).1 = .ok (sent call b) := by
  rw [sent]
  cases hsend : (addSend sampleWalletEnv sampleCall (sampleVoter 2) call b).1 with
  | error e =>
    rw [hsend] at h
    cases h
  | ok b' => rfl

def changeOfSample (call : SendCall) (b : WalletTxBuilder) : TxDestinationEntry :=
  sendChange sampleWalletEnv sampleCall (sampleVoter 2) call b

/-- One call: what it leaves as change, the dust in it, and the outputs that pay the rest
back. -/
structure SendRecord where
  change : UInt64
  dust : UInt64
  outputs : List TxDestinationEntry

/-- Calls that send one after the other and all succeed, the newest first.  The wallet may
change between them. -/
inductive SendRun (env : WalletEnv) (start : WalletTxBuilder) :
    List SendRecord → WalletTxBuilder → Prop
  | nil : SendRun env start [] start
  | send {sends : List SendRecord} {changes : List TxDestinationEntry} {b b' : WalletTxBuilder}
      {session : CallSession} {w : Wallet2} {call : SendCall} (run : SendRun env start sends b)
      (sends_ok : (addSend env session w call b).1 = .ok b')
      (isChange : IsChange call.dsts (sendChange env session w call b)
        (splitOf call (sendChange env session w call b)) changes)
      (fits : w.worth < 2 ^ 64) :
      SendRun env start (⟨(sendChange env session w call b).amount,
        (splitOf call (sendChange env session w call b)).2, changes⟩ :: sends) b'

def changeTotal (sends : List SendRecord) : Nat := (sends.map (·.change.toNat)).sum

def paidBack (sends : List SendRecord) : List TxDestinationEntry := sends.flatMap (·.outputs)

/-- Every call adds the change of all calls so far. -/
def recordedTotal : List SendRecord → Nat
  | [] => 0
  | send :: sends => changeTotal (send :: sends) + recordedTotal sends

theorem changeTotal_le_recordedTotal (sends : List SendRecord) :
    changeTotal sends ≤ recordedTotal sends := by
  cases sends with
  | nil => exact le_rfl
  | cons send sends => exact Nat.le_add_right _ _

theorem recordedTotal_eq_zero_iff {sends : List SendRecord} :
    recordedTotal sends = 0 ↔ ∀ send ∈ sends, send.change = 0 := by
  have hchange : changeTotal sends = 0 ↔ ∀ send ∈ sends, send.change = 0 := by
    simp [changeTotal, List.sum_eq_zero_iff, ← UInt64.toNat_inj]
  rw [← hchange]
  refine ⟨fun h => Nat.le_zero.mp (h ▸ changeTotal_le_recordedTotal sends), fun h => ?_⟩
  clear hchange
  induction sends with
  | nil => rfl
  | cons send sends ih =>
    have hrest : changeTotal sends = 0 := by
      rw [changeTotal, List.map_cons, List.sum_cons] at h
      exact (Nat.add_eq_zero_iff.mp h).2
    rw [recordedTotal, h, ih hrest]

namespace SendRun

variable {start : WalletTxBuilder} {sends : List SendRecord}

theorem outputs (h : SendRun env start sends b) :
    ((paidBack sends).map (·.amount)).Subperm b.txb.outAmounts := by
  induction h with
  | nil => exact List.nil_subperm
  | send run sends_ok isChange fits ih =>
    obtain ⟨dests, hsub, houtputs⟩ := (addSend_records fits sends_ok).outputs
    rw [houtputs, paidBack, List.flatMap_cons, List.map_append]
    have hshuffled := (List.perm_insertionSort (fun de1 de2 : TxDestinationEntry =>
      de1.amount ≤ de2.amount) dests).symm.map (·.amount)
    exact List.perm_append_comm.subperm.trans
      (ih.append (((isChange.sublist.trans hsub).map _).subperm.trans hshuffled.subperm))

theorem records {txkey : TxKey} {unlockTime : UInt64} {extra : Wire.Bytes}
    (h : SendRun env (initTx txkey unlockTime extra) sends b) :
    b.allChange.toNat = changeTotal sends % 2 ^ 64 ∧
      b.xpbChange.toNat = recordedTotal sends % 2 ^ 64 := by
  induction h with
  | nil => exact ⟨rfl, rfl⟩
  | send run sends_ok isChange fits ih =>
    have hrecords := addSend_records fits sends_ok
    have hall : ∀ (send : SendRecord) (sends : List SendRecord),
        changeTotal (send :: sends) = send.change.toNat + changeTotal sends := fun _ _ => rfl
    refine (and_iff_left_of_imp fun hchange => ?_).mpr ?_
    · rw [hrecords.xpbChange, UInt64.toNat_add, hchange, ih.2, recordedTotal]
      omega
    · rw [hrecords.allChange, UInt64.toNat_add, ih.1, hall]
      dsimp only
      omega

theorem paid (h : SendRun env start sends b) :
    totalOf (paidBack sends) + (sends.map (·.dust.toNat)).sum = changeTotal sends := by
  induction h with
  | nil => rfl
  | send run sends_ok isChange fits ih =>
    have htotal := isChange.total
    simp only [paidBack, changeTotal, totalOf, List.flatMap_cons, List.map_append, List.sum_append,
      List.map_cons, List.sum_cons] at ih htotal ⊢
    omega

end SendRun

/-- What is recorded is what the transaction pays back exactly if no call but the last has
left a change and no call has dust: the change is recorded once for each call from its own
on, and the dust with it. -/
theorem recorded_eq_paidBack_iff {txkey : TxKey} {unlockTime : UInt64} {extra : Wire.Bytes}
    {sends : List SendRecord} (h : SendRun env (initTx txkey unlockTime extra) sends b)
    (hfits : recordedTotal sends < 2 ^ 64) :
    ((paidBack sends).map (·.amount)).Subperm b.txb.outAmounts ∧
    (b.xpbChange.toNat = totalOf (paidBack sends) ↔
      (∀ send ∈ sends, send.dust = 0) ∧ ∀ send ∈ sends.tail, send.change = 0) := by
  refine ⟨h.outputs, ?_⟩
  have hdust : (∀ send ∈ sends, send.dust = 0) ↔ (sends.map (·.dust.toNat)).sum = 0 := by
    simp [List.sum_eq_zero_iff, ← UInt64.toNat_inj]
  rw [h.records.2, Nat.mod_eq_of_lt hfits, hdust, ← recordedTotal_eq_zero_iff]
  have hpaid := h.paid
  cases sends with
  | nil => simp [recordedTotal, paidBack, totalOf]
  | cons send sends =>
    rw [recordedTotal, List.tail_cons]
    omega

theorem recorded_eq_paidBack_of_two_sends :
    ∃ b sends, SendRun sampleWalletEnv (initTx sampleTxKey 0 []) sends b ∧
      totalOf (paidBack sends) = 60 ∧ b.xpbChange.toNat = totalOf (paidBack sends) := by
  have hfirst : SendRun sampleWalletEnv (initTx sampleTxKey 0 []) _
      (sent (sampleSending 100 wholeSplit 5) (initTx sampleTxKey 0 [])) :=
    .send .nil (addSend_sent (by decide +kernel)) (isChange_wholeSplit _ _ 5) (by decide +kernel)
  have hrun : SendRun sampleWalletEnv (initTx sampleTxKey 0 []) _
      (sent (sampleSending 40 wholeSplit 5) (sent (sampleSending 100 wholeSplit 5)
        (initTx sampleTxKey 0 []))) :=
    .send hfirst (addSend_sent (by decide +kernel)) (isChange_wholeSplit _ _ 5) (by decide +kernel)
  exact ⟨_, _, hrun, by decide +kernel,
    (recorded_eq_paidBack_iff hrun (by decide +kernel)).2.mpr (by decide +kernel)⟩

/-- Two calls record the change of the first one twice, and a call with dust records the dust. -/
theorem recorded_over_paidBack :
    (∃ b sends, SendRun sampleWalletEnv (initTx sampleTxKey 0 []) sends b ∧
        totalOf (paidBack sends) = 120 ∧ b.xpbChange.toNat = 180) ∧
      ∃ b sends, SendRun sampleWalletEnv (initTx sampleTxKey 0 []) sends b ∧
        totalOf (paidBack sends) = 60 ∧ b.xpbChange.toNat = 62 := by
  refine ⟨?_, ?_⟩
  · have hfirst : SendRun sampleWalletEnv (initTx sampleTxKey 0 []) _
        (sent (sampleSending 40 wholeSplit 0) (initTx sampleTxKey 0 [])) :=
      .send .nil (addSend_sent (by decide +kernel)) (isChange_wholeSplit _ _ 0) (by decide +kernel)
    refine ⟨sent (sampleSending 40 wholeSplit 0) (sent (sampleSending 40 wholeSplit 0)
      (initTx sampleTxKey 0 [])), _, .send hfirst (addSend_sent (by decide +kernel))
      (isChange_wholeSplit _ _ 0) (by decide +kernel), by decide +kernel, by decide +kernel⟩
  · obtain ⟨changes, hchanges⟩ := isChange_digitSplitStrategy (sampleSending 38 digitSplitStrategy 5).dsts
      (changeOfSample (sampleSending 38 digitSplitStrategy 5) (initTx sampleTxKey 0 [])) 5
    have htotal := hchanges.total
    refine ⟨sent (sampleSending 38 digitSplitStrategy 5) (initTx sampleTxKey 0 []), _,
      .send .nil (addSend_sent (by decide +kernel)) hchanges (by decide +kernel), ?_, by decide +kernel⟩
    have hamount : (changeOfSample (sampleSending 38 digitSplitStrategy 5)
        (initTx sampleTxKey 0 [])).amount.toNat = 62 := by decide +kernel
    have hdust : (digitSplitStrategy (sampleSending 38 digitSplitStrategy 5).dsts
        (changeOfSample (sampleSending 38 digitSplitStrategy 5) (initTx sampleTxKey 0 []))
        5).2.toNat = 2 := by decide +kernel
    rw [hamount, hdust] at htotal
    rw [paidBack, List.flatMap_singleton]
    dsimp only
    omega

end WalletTxBuilder

end Pebblecoin
