import Pebblecoin.RejectedBlock

/-!
Properties of the two tables of transactions, the pool and the chain's, that handling
one transaction keeps and that handling a block therefore keeps.
-/

namespace Pebblecoin.Storage

open Control

variable {env : Env} {now : UInt64}

variable {txId : Hash} {s : Storage} {bl : Block}

theorem enterTransaction_false_transactions {tx : Transaction} {s' : Storage}
    (h : s.enterTransaction env tx txId = (false, s')) :
    s'.ledger.transactions = s.ledger.transactions ∧ s'.pool = s.pool := by
  have hkeep : (s.ledger.addTransactionFromBlock env.crypto s.poppingBlock tx txId
      s.entries.length).1 ≠ .added →
      (s.ledger.addTransactionFromBlock env.crypto s.poppingBlock tx txId
        s.entries.length).2.transactions = s.ledger.transactions := by
    intro hnot
    unfold Ledger.addTransactionFromBlock at hnot ⊢
    split
    · rfl
    · split_ifs
      · rfl
      · rename_i htables hsome
        simp [htables, hsome] at hnot
  obtain ⟨hframe, hnot, -⟩ := enterTransaction_eq_false h
  refine ⟨?_, by rw [hframe]⟩
  rw [← hkeep hnot]
  unfold enterTransaction at h
  split at h
  · simp at h
  · rename_i hl
    rw [← (Prod.mk.inj h).2, hl]
  · rename_i hl
    rw [← (Prod.mk.inj h).2, hl]

theorem isCoinbase_of_prevalidate {height : Nat}
    (h : prevalidateMinerTransaction bl height = true) :
    isCoinbase bl.minerTx.toTransactionPrefix = true := by
  obtain ⟨g, hvin, -⟩ := prevalidateMinerTransaction_vin h
  simp [isCoinbase, hvin]

/-- A property of the tables of transactions that is kept when a transaction leaves the
chain, when one taken from the pool enters the chain, and when one taken from the pool
goes back. -/
structure TxInvariant (env : Env) (now : UInt64) (P : Storage → Prop) : Prop where
  congr : ∀ {s s' : Storage}, P s → s'.pool = s.pool →
    s'.ledger.transactions = s.ledger.transactions → P s'
  purge : ∀ (txId : Hash) {s : Storage}, P s →
    Returns (s.purgeTransactionFromBlockchain env now txId) fun r => P r.2
  putBack : ∀ {txId : Hash} {d : TxDetails} {pool : TxMemoryPool} {s s' : Storage}, P s →
    s.pool.takeTx env.crypto txId = some (d, pool) → s'.pool = pool →
    s'.ledger.transactions = s.ledger.transactions →
    Returns (s'.returnToPool env now d.tx) fun r => P r.2
  connect : ∀ {txId : Hash} {d : TxDetails} {pool : TxMemoryPool} {s s' : Storage}, P s →
    s.pool.takeTx env.crypto txId = some (d, pool) →
    enterTransaction env d.tx txId { s with pool := pool } = (true, s') → P s'

namespace TxInvariant

variable {P : Storage → Prop}

theorem purgeTransactions (hP : TxInvariant env now P) (ids : List Hash) (h : P s) :
    Returns (s.purgeTransactions env now ids) fun r => P r.2 := by
  induction ids generalizing s with
  | nil => exact Returns.ok_iff.mpr h
  | cons id ids ih =>
    rw [Storage.purgeTransactions]
    refine Returns.bind (hP.purge id h) fun r hr => ?_
    exact Returns.bind (ih hr) fun r' hr' => Returns.ok_iff.mpr hr'

theorem purgeBlockDataFromBlockchain (hP : TxInvariant env now P) (bl : Block) (count : Nat)
    (h : P s) : Returns (s.purgeBlockDataFromBlockchain env now bl count) fun r => P r.2 := by
  unfold Storage.purgeBlockDataFromBlockchain
  split
  · exact Returns.ok_iff.mpr h
  · exact hP.purgeTransactions _ h

theorem connectTransactions (hP : TxInvariant env now P) {id : Hash} {ids : List Hash}
    {totals : BlockTotals} (h : P s) :
    Returns (s.connectTransactions env now bl id ids totals) fun r => P r.2 := by
  induction ids generalizing s totals with
  | nil => exact Returns.ok_iff.mpr h
  | cons txId ids ih =>
    rw [Storage.connectTransactions]
    split
    · refine Returns.bind (hP.purgeBlockDataFromBlockchain _ _ h) fun r hr => ?_
      exact Returns.ok_iff.mpr hr
    rename_i d pool htake
    refine Returns.bind_const fun valid => ?_
    split
    · refine Returns.bind (hP.putBack h htake rfl rfl) fun r hr => ?_
      refine Returns.bind (hP.purgeBlockDataFromBlockchain _ _ hr) fun r' hr' => ?_
      refine Returns.ok_iff.mpr (hP.congr hr' ?_ ?_)
      all_goals
        unfold addBlockAsInvalid
        split <;> rfl
    · refine Returns.bind_ok fun r hadd => ?_
      obtain ⟨added, s₁⟩ := r
      have hadd := addTransactionFromBlock_eq_ok hadd
      cases added with
      | false =>
        obtain ⟨htransactions, hpool⟩ := enterTransaction_false_transactions hadd
        refine Returns.bind (hP.putBack h htake hpool htransactions) fun r hr => ?_
        refine Returns.bind (hP.purgeBlockDataFromBlockchain _ _ hr) fun r' hr' => ?_
        exact Returns.ok_iff.mpr hr'
      | true => exact ih (hP.connect h htake hadd)

theorem countStatistics (hP : TxInvariant env now P) {fee : UInt64} (h : P s) :
    Returns (s.countStatistics bl fee) P := by
  refine Returns.bind_const fun prev => ?_
  cases prev with
  | none => exact Returns.ok_iff.mpr h
  | some b => exact Returns.bind_const fun missed => Returns.ok_iff.mpr (hP.congr h rfl rfl)

theorem appendBlock (hP : TxInvariant env now P) {id : Hash} {totals : BlockTotals}
    {diffic : UInt64} (h : P s) :
    Returns (s.appendBlock env now bl id totals diffic) fun r => P r.2 := by
  refine Returns.bind_const fun fee => ?_
  split
  · refine Returns.bind (hP.purgeBlockDataFromBlockchain _ _ h) fun r hr => ?_
    exact Returns.ok_iff.mpr hr
  dsimp only
  split
  · refine Returns.bind (hP.purgeBlockDataFromBlockchain _ _ (hP.congr h rfl rfl)) fun r hr => ?_
    exact Returns.ok_iff.mpr hr
  refine Returns.bind (hP.countStatistics (hP.congr h rfl rfl)) fun t ht => ?_
  refine Returns.bind (P := fun r => P r.2) ⟨fun r hr => ?_⟩ fun r hr => ?_
  · rw [(recalculateTopDelegates_eq_ok hr).1]
    exact hP.congr ht rfl rfl
  · split
    · refine Returns.bind
        (hP.purgeBlockDataFromBlockchain _ _ (hP.congr hr rfl rfl)) fun r' hr' => ?_
      exact Returns.ok_iff.mpr hr'
    · refine Returns.ok_iff.mpr (hP.congr hr ?_ ?_)
      all_goals
        unfold updateNextComulativeSizeLimit
        rfl

theorem handleBlockToMainChain (hP : TxInvariant env now P) (id : Hash) (h : P s)
    (hminer : prevalidateMinerTransaction bl s.entries.length = true →
      P (s.enterTransaction env bl.minerTx
        ((getTransactionHash env.crypto bl.minerTx).getD nullHash)).2) :
    Returns (s.handleBlockToMainChain env now bl id) fun r => P r.2 := by
  refine Returns.bind_ok fun exit hheader => ?_
  cases exit with
  | some exit => exact Returns.ok_iff.mpr h
  | none =>
    obtain ⟨-, -, -, -, -, hpre⟩ := checkBlockHeader_eq_none (reading_eq_ok_iff.mp hheader)
    refine Returns.bind_const fun valid => ?_
    split
    · exact Returns.ok_iff.mpr h
    have h₁ := hminer hpre
    refine Returns.bind_ok fun r hadd => ?_
    obtain ⟨added, s₁⟩ := r
    rw [addTransactionFromBlock_eq_ok hadd] at h₁
    cases added with
    | false => exact Returns.ok_iff.mpr h₁
    | true =>
      refine Returns.bind (hP.connectTransactions h₁) fun r hr => ?_
      obtain ⟨r, t⟩ := r
      cases r with
      | error exit => exact Returns.ok_iff.mpr hr
      | ok totals => exact hP.appendBlock hr

end TxInvariant

section AllTxs

variable {V : Hash → Transaction → Prop}

variable (env) in
theorem enterTransaction_allTxs {tx : Transaction} (h : s.AllTxs V) (htx : V txId tx) :
    (s.enterTransaction env tx txId).2.AllTxs V := by
  have hadd : ∀ k e, (s.ledger.addTransactionFromBlock env.crypto s.poppingBlock tx txId
      s.entries.length).2.transactions k = some e → V k e.tx := by
    intro k e he
    unfold Ledger.addTransactionFromBlock at he
    split at he
    · exact h.chain k e he
    · split_ifs at he
      · exact h.chain k e he
      · simp only [Function.update_apply] at he
        split_ifs at he with hk
        · cases he
          exact hk ▸ htx
        · exact h.chain k e he
  unfold enterTransaction
  split
  all_goals
    rename_i hl
    rw [hl] at hadd
    exact ⟨h.pool, hadd⟩

theorem AllTxs.take {d : TxDetails} {pool : TxMemoryPool} {s' : Storage} (h : s.AllTxs V)
    (htake : s.pool.takeTx env.crypto txId = some (d, pool)) (hpool : s'.pool = pool)
    (htransactions : s'.ledger.transactions = s.ledger.transactions) : s'.AllTxs V := by
  refine ⟨fun k e he => ?_, by rw [htransactions]; exact h.chain⟩
  rw [hpool, (TxMemoryPool.takeTx_eq_some htake).2, Function.update_apply] at he
  split_ifs at he
  exact h.pool k e he

theorem allTxs_txInvariant (hV : Rehashes env.crypto V) : TxInvariant env now (AllTxs V) where
  congr h hpool htransactions := h.congr hpool htransactions
  purge txId _ h := purgeTransactionFromBlockchain_allTxs hV txId h
  putBack {txId d _ _ _} h htake hpool htransactions :=
    returnToPool_allTxs hV (h.pool txId d (TxMemoryPool.takeTx_eq_some htake).1).1
      (h.take htake hpool htransactions)
  connect {txId d pool s s'} h htake hadd := by
    have htaken : AllTxs V { s with pool := pool } := h.take htake rfl rfl
    have hnext := enterTransaction_allTxs env htaken
      (h.pool txId d (TxMemoryPool.takeTx_eq_some htake).1).1
    rw [hadd] at hnext
    exact hnext

theorem handleBlockToMainChain_allTxs (hV : Rehashes env.crypto V) (id : Hash)
    (hminer : isCoinbase bl.minerTx.toTransactionPrefix = true →
      V ((getTransactionHash env.crypto bl.minerTx).getD nullHash) bl.minerTx) (h : s.AllTxs V) :
    Returns (s.handleBlockToMainChain env now bl id) fun r => r.2.AllTxs V :=
  (allTxs_txInvariant hV).handleBlockToMainChain id h fun hpre =>
    enterTransaction_allTxs env h (hminer (isCoinbase_of_prevalidate hpre))

end AllTxs

theorem handleBlockToMainChain_vetted (bl : Block) (id : Hash) (h : s.Vetted) :
    Returns (s.handleBlockToMainChain env now bl id) fun r => r.2.Vetted :=
  handleBlockToMainChain_allTxs (isVetted_rehashes _) id Or.inl h

end Pebblecoin.Storage
