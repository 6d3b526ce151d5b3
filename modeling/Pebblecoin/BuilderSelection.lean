import Pebblecoin.WalletTxBuilder

/-!
What the selection loops of the transaction builder can return.
-/

namespace Pebblecoin

open Containers Control

namespace WalletTxBuilder

variable {env : WalletEnv} {session : CallSession} {w : Wallet2} {b : WalletTxBuilder}

variable {minFakeOuts : Nat} {r : List Nat × UInt64} {found numVotes neededMoney : UInt64}
  {picked : List Nat} {infos : List (UInt64 × Nat)}

/-- A transfer that is there, not spent and in no batch. -/
structure Unused (w : Wallet2) (b : WalletTxBuilder) (i : Nat) : Prop where
  unspent : ∃ td, w.transfers[i]? = some td ∧ td.spent = false
  notBeingSpent : i ∉ b.spendTransferIs
  unbatched : w.batchIndex i = 0

theorem unused_of_mem {extra : TransferDetails → Bool} {i : Nat}
    (h : i ∈ unbatchedTransfers env session w b extra) : Unused w b i := by
  obtain ⟨hunused, hbatch⟩ := List.mem_filter.mp h
  obtain ⟨-, hany⟩ := List.mem_filter.mp hunused
  cases htd : w.transfers[i]? with
  | none =>
    rw [htd] at hany
    cases hany
  | some td =>
    rw [htd] at hany
    simp only [Option.any_some, Bool.and_eq_true, Bool.not_eq_true', decide_eq_true_eq] at hany
    obtain ⟨⟨⟨⟨-, hspent⟩, -⟩, hbeing⟩, -⟩ := hany
    refine ⟨⟨td, htd, hspent⟩, ?_, of_decide_eq_true hbatch⟩
    intro hmem
    rw [transferBeingSpent, List.contains_iff_mem.mpr hmem] at hbeing
    cases hbeing

theorem nodup_unbatchedTransfers (extra : TransferDetails → Bool) :
    (unbatchedTransfers env session w b extra).Nodup :=
  (List.nodup_range.filter _).filter _

theorem filterScantyOuts_sublist {request : Nat} {indices : List Nat}
    (h : filterScantyOuts session w request indices minFakeOuts = .ok r) : r.1.Sublist indices := by
  rw [filterScantyOuts] at h
  split at h
  · rw [← Except.ok.inj h]
  · obtain ⟨fakeOuts, -, h⟩ := bind_eq_ok_iff.mp h
    rw [← Except.ok.inj h]
    exact (List.filter_sublist.map _).trans (map_fst_zip_sublist indices fakeOuts)

theorem popRandomWeightedTransfer_perm {random : UInt64} {indices rest : List Nat} {idx : Nat}
    (h : popRandomWeightedTransfer w random indices = .ok (idx, rest)) :
    (idx :: rest).Perm indices := by
  rw [popRandomWeightedTransfer] at h
  split at h
  · cases h
  dsimp only at h
  split at h
  · cases h
  split at h
  · cases h
  · rename_i r hr
    rw [Except.ok.inj h] at hr
    exact popWeighted_perm hr

theorem voteLoop_subperm {rounds : Nat} {pool : List Nat}
    (h : voteLoop session w numVotes rounds pool picked found = .ok r) :
    r.1.Subperm (picked ++ pool) := by
  induction rounds generalizing pool picked found with
  | zero =>
    rw [← Except.ok.inj h]
    exact (List.sublist_append_left ..).subperm
  | succ rounds ih =>
    rw [voteLoop] at h
    split at h
    · obtain ⟨⟨idx, rest⟩, hpop, h⟩ := bind_eq_ok_iff.mp h
      have hperm := perm_draw picked (popRandomWeightedTransfer_perm hpop)
      refine List.Subperm.trans ?_ hperm.subperm
      dsimp only at h
      split at h
      · rw [← Except.ok.inj h]
        exact (List.sublist_append_left ..).subperm
      · exact ih h
    · rw [← Except.ok.inj h]
      exact (List.sublist_append_left ..).subperm

theorem selectTransfersForVotes_subperm {dust : UInt64} {r : (List Nat × UInt64) × UInt64}
    (h : selectTransfersForVotes env session w b numVotes dust minFakeOuts = .ok r) :
    r.1.1.Subperm (unbatchedTransfers env session w b fun td => decide (dust < td.amountD)) := by
  obtain ⟨⟨unused, scanty⟩, hfilter, h⟩ := bind_eq_ok_iff.mp h
  obtain ⟨found, hloop, h⟩ := bind_eq_ok_iff.mp h
  rw [← Except.ok.inj h]
  exact (voteLoop_subperm hloop).trans (filterScantyOuts_sublist hfilter).subperm

theorem popForSpend_perm {random : UInt64} {numDusts numDusts' idx : Nat}
    {dusts dusts' transfers transfers' : List Nat}
    (h : popForSpend random numDusts dusts transfers = some (idx, dusts', transfers', numDusts')) :
    (idx :: (dusts' ++ transfers')).Perm (dusts ++ transfers) := by
  rw [popForSpend] at h
  split at h
  · obtain ⟨⟨item, rest⟩, hpop, hr⟩ := Option.map_eq_some_iff.mp h
    obtain ⟨rfl, rfl, rfl, -⟩ : item = idx ∧ rest = dusts' ∧ transfers = transfers' ∧ _ := by
      simpa using hr
    exact (popAt_perm hpop).append_right transfers
  · obtain ⟨⟨item, rest⟩, hpop, hr⟩ := Option.map_eq_some_iff.mp h
    obtain ⟨rfl, rfl, rfl, -⟩ : item = idx ∧ dusts = dusts' ∧ rest = transfers' ∧ _ := by
      simpa using hr
    exact List.perm_middle.symm.trans ((popAt_perm hpop).append_left dusts)

theorem spendLoop_subperm {rounds numDusts : Nat} {dusts transfers : List Nat} :
    (spendLoop session w neededMoney rounds numDusts dusts transfers picked found).1.Subperm
      (picked ++ (dusts ++ transfers)) := by
  induction rounds generalizing numDusts dusts transfers picked found with
  | zero => exact (List.sublist_append_left ..).subperm
  | succ rounds ih =>
    rw [spendLoop]
    split
    · split
      · exact (List.sublist_append_left ..).subperm
      · rename_i idx dusts' transfers' numDusts' hpop
        exact ih.trans (perm_draw picked (popForSpend_perm hpop)).subperm
    · exact (List.sublist_append_left ..).subperm

theorem selectTransfersForSpend_subperm {dust : UInt64} {r : (List Nat × UInt64) × UInt64}
    (h : selectTransfersForSpend env session w b neededMoney dust minFakeOuts = .ok r) :
    r.1.1.Subperm (unbatchedTransfers env session w b fun _ => true) := by
  obtain ⟨⟨transfers, scanty⟩, htransfers, h⟩ := bind_eq_ok_iff.mp h
  obtain ⟨⟨dusts, scantyDusts⟩, hdusts, h⟩ := bind_eq_ok_iff.mp h
  rw [← Except.ok.inj h]
  have hparts := List.Sublist.append (filterScantyOuts_sublist hdusts)
    (filterScantyOuts_sublist htransfers)
  exact spendLoop_subperm.trans (hparts.subperm.trans (List.filter_append_perm _ _).subperm)

def unspentIn (w : Wallet2) (i : Nat) : Bool := w.transfers[i]?.any fun td => !td.spent

/-- A batch that has a member that is not spent. -/
structure OpenBatch (w : Wallet2) (b : WalletTxBuilder) (j : Nat) : Prop where
  ne_zero : j ≠ 0
  member : ∃ i ∈ membersOf w j, unspentIn w i = true
  notBeingSpent : j ∉ b.spendBatchIs

theorem exists_unspent_of_batchSpent {is : List Nat} (h : w.batchSpent is = .ok false) :
    ∃ i ∈ is, unspentIn w i = true := by
  induction is with
  | nil => cases h
  | cons i is ih =>
    rw [Wallet2.batchSpent] at h
    cases htd : w.transfers[i]? with
    | none =>
      rw [htd] at h
      cases h
    | some td =>
      rw [htd] at h
      dsimp only at h
      cases hspent : td.spent with
      | true =>
        rw [hspent] at h
        obtain ⟨j, hj, hopen⟩ := ih h
        exact ⟨j, List.mem_cons_of_mem i hj, hopen⟩
      | false => exact ⟨i, List.mem_cons_self, by rw [unspentIn, htd, Option.any_some, hspent]; rfl⟩

theorem batchInfos_eq_ok {sortKey : VotingBatch → Except BuilderError (Option UInt64)} {i : Nat}
    {batches : List VotingBatch} (h : batchInfos w b sortKey i batches = .ok infos) :
    (infos.map Prod.snd).Pairwise (· < ·) ∧
      ∀ j ∈ infos.map Prod.snd, i ≤ j ∧ j ∉ b.spendBatchIs ∧
        ∃ batch, batches[j - i]? = some batch ∧ w.batchSpent batch.transferIndices = .ok false := by
  induction batches generalizing i infos with
  | nil =>
    rw [← Except.ok.inj h]
    exact ⟨List.Pairwise.nil, by simp⟩
  | cons batch batches ih =>
    have hlater : ∀ {infos : List (UInt64 × Nat)},
        batchInfos w b sortKey (i + 1) batches = .ok infos →
        (infos.map Prod.snd).Pairwise (· < ·) ∧
          ∀ j ∈ infos.map Prod.snd, i + 1 ≤ j ∧ j ∉ b.spendBatchIs ∧
            ∃ found, (batch :: batches)[j - i]? = some found ∧
              w.batchSpent found.transferIndices = .ok false := by
      intro infos hrest
      obtain ⟨hsorted, hall⟩ := ih hrest
      refine ⟨hsorted, fun j hj => ?_⟩
      obtain ⟨hle, hbeing, found, hfound, hspent⟩ := hall j hj
      refine ⟨hle, hbeing, found, ?_, hspent⟩
      rwa [show j - i = (j - (i + 1)) + 1 by omega, List.getElem?_cons_succ]
    have hskip : batchInfos w b sortKey (i + 1) batches = .ok infos →
        (infos.map Prod.snd).Pairwise (· < ·) ∧
          ∀ j ∈ infos.map Prod.snd, i ≤ j ∧ j ∉ b.spendBatchIs ∧
            ∃ found, (batch :: batches)[j - i]? = some found ∧
              w.batchSpent found.transferIndices = .ok false := by
      intro hrest
      obtain ⟨hsorted, hall⟩ := hlater hrest
      exact ⟨hsorted, fun j hj => ⟨by have := (hall j hj).1; omega, (hall j hj).2⟩⟩
    rw [batchInfos] at h
    split at h
    · cases h
    obtain ⟨spent, hspent, h⟩ := bind_eq_ok_iff.mp h
    split at h
    · exact hskip h
    · rename_i hopen
      obtain ⟨key, -, h⟩ := bind_eq_ok_iff.mp h
      cases key with
      | none => exact hskip h
      | some key =>
        obtain ⟨rest, hrest, rfl⟩ := map_eq_ok_iff.mp h
        obtain ⟨hsorted, hall⟩ := hlater hrest
        obtain ⟨rfl, hbeing⟩ : spent = false ∧ b.batchBeingSpent i = false := by
          simpa using hopen
        refine ⟨List.pairwise_cons.mpr ⟨fun j hj => (hall j hj).1, hsorted⟩, fun j hj => ?_⟩
        rcases List.mem_cons.mp hj with rfl | hj
        · refine ⟨Nat.le_refl _, fun hmem => ?_, batch, by simp, hspent⟩
          rw [batchBeingSpent, List.contains_iff_mem.mpr hmem] at hbeing
          cases hbeing
        · exact ⟨by have := (hall j hj).1; omega, (hall j hj).2⟩

theorem takeBatches_sublist {amount : UInt64}
    (h : takeBatches w amount infos picked found = .ok r) :
    r.1.Sublist (picked ++ infos.map Prod.snd) := by
  induction infos generalizing picked found with
  | nil =>
    rw [← Except.ok.inj h]
    exact List.sublist_append_left ..
  | cons inf infos ih =>
    have hnext : picked ++ (inf :: infos).map Prod.snd = picked ++ [inf.2] ++ infos.map Prod.snd := by
      simp
    rw [hnext]
    rw [takeBatches] at h
    split at h
    · cases h
    obtain ⟨more, -, h⟩ := bind_eq_ok_iff.mp h
    dsimp only at h
    split at h
    · rw [← Except.ok.inj h]
      exact List.sublist_append_left ..
    · exact ih h

theorem open_of_takeBatches {sortKey : VotingBatch → Except BuilderError (Option UInt64)}
    {amount : UInt64} {infos' : List (UInt64 × Nat)}
    (hinfos : batchInfos w b sortKey 1 (w.votesInfo.batches.drop 1) = .ok infos)
    (hperm : infos'.Perm infos) (h : takeBatches w amount infos' [] 0 = .ok r) :
    r.1.Nodup ∧ ∀ j ∈ r.1, OpenBatch w b j := by
  obtain ⟨hsorted, hall⟩ := batchInfos_eq_ok hinfos
  have hsub : r.1.Subperm (infos.map Prod.snd) :=
    (takeBatches_sublist h).subperm.trans (hperm.map Prod.snd).subperm
  have hnodup : (infos.map Prod.snd).Nodup := hsorted.imp fun h => Nat.ne_of_lt h
  refine ⟨nodup_of_subperm hsub hnodup, fun j hj => ?_⟩
  obtain ⟨hle, hbeing, batch, hbatch, hspent⟩ := hall j (hsub.subset hj)
  refine ⟨by omega, ?_, hbeing⟩
  rw [List.getElem?_drop, show 1 + (j - 1) = j by omega] at hbatch
  obtain ⟨i, hi, hopen⟩ := exists_unspent_of_batchSpent hspent
  exact ⟨i, by rwa [membersOf, hbatch], hopen⟩

theorem open_of_selectBatchesForVotes {votingSet : DelegateVotes}
    (h : selectBatchesForVotes w b numVotes votingSet = .ok r) :
    r.1.Nodup ∧ ∀ j ∈ r.1, OpenBatch w b j := by
  obtain ⟨infos, hinfos, h⟩ := bind_eq_ok_iff.mp h
  exact open_of_takeBatches hinfos (List.perm_insertionSort ..) h

theorem open_of_selectBatchesForSpend (h : selectBatchesForSpend w b neededMoney = .ok r) :
    r.1.Nodup ∧ ∀ j ∈ r.1, OpenBatch w b j := by
  obtain ⟨infos, hinfos, h⟩ := bind_eq_ok_iff.mp h
  exact open_of_takeBatches hinfos (List.perm_insertionSort ..) h

end WalletTxBuilder

end Pebblecoin
