import Pebblecoin.BlockUndo
import Pebblecoin.TxInvariants

/-!
The pool after a refused block: no transaction gets lost on the way through the
chain and back.
-/

namespace Pebblecoin

open Control

namespace Storage

variable {env : Env} {now : UInt64}

variable {txId minerId : Hash} {ids : List Hash}

theorem returnToPool_ids {tx : Transaction} (htx : tx.Semantic) (s : Storage) :
    Returns (s.returnToPool env now tx) fun r => s.SameButPool r.2 ∧
      ∀ k, (r.2.pool.transactions k).isSome = true ↔
        (s.pool.transactions k).isSome = true ∨ getTransactionHash env.crypto tx = some k := by
  obtain ⟨blob, hblob⟩ := Option.isSome_iff_exists.mp htx.serializes
  obtain ⟨fee, hfee⟩ := Option.isSome_iff_exists.mp htx.balanced
  have hhash : getTransactionHash env.crypto tx = some (env.crypto.cnFastHash blob) := by
    simp [getTransactionHash, hblob]
  refine ⟨fun r hr => ⟨(returnToPool_sameButPool ..).out _ hr, ?_⟩⟩
  simp only [returnToPool, hblob] at hr
  obtain ⟨⟨added, ctx, s'⟩, hadd, hr⟩ := bind_eq_ok_iff.mp hr
  obtain rfl := Except.ok.inj hr
  simp only [poolAddTx, htx.inputs, htx.outputs, hfee, Bool.not_true, Bool.or_self,
    Bool.false_eq_true, if_false, Bool.false_and, Bool.and_false] at hadd
  obtain ⟨valid, -, hadd⟩ := bind_eq_ok_iff.mp hadd
  rw [hhash]
  split at hadd
  · rename_i hhave
    obtain ⟨-, -, rfl⟩ : false = added ∧ _ ∧ s = s' := by simpa using hadd
    refine fun k => ⟨Or.inl, fun hk => hk.elim id ?_⟩
    rintro ⟨rfl⟩
    exact hhave
  · obtain ⟨-, -, rfl⟩ : _ = added ∧ _ ∧ _ = s' := by simpa using hadd
    intro k
    rw [insertIntoPool_transactions, Function.update_apply]
    by_cases hk : k = env.crypto.cnFastHash blob
    · simp [hk]
    · simp [hk, Ne.symm hk]

/-- The ids of the pool of `s₀` are those in the pool and those of the given
transactions that are in the chain.  The miner transaction does not count. -/
structure PoolKept (env : Env) (minerId : Hash) (ids : List Hash) (s₀ s : Storage) : Prop where
  miner : ∀ e, s.ledger.transactions minerId = some e →
    isCoinbase e.tx.toTransactionPrefix = true
  vetted : ∀ id ∈ ids, ∀ e, s.ledger.transactions id = some e →
    isCoinbase e.tx.toTransactionPrefix = true ∨
      e.tx.Semantic ∧ getTransactionHash env.crypto e.tx = some id
  held : ∀ id, (s₀.pool.transactions id).isSome = true ↔
    (s.pool.transactions id).isSome = true ∨
      id ∈ ids ∧ ∃ e, s.ledger.transactions id = some e ∧
        isCoinbase e.tx.toTransactionPrefix = false

theorem PoolKept.congr {s₀ s s' : Storage} (h : PoolKept env minerId ids s₀ s)
    (hpool : s'.pool = s.pool) (htransactions : s'.ledger.transactions = s.ledger.transactions) :
    PoolKept env minerId ids s₀ s' :=
  ⟨by rw [htransactions]; exact h.miner, by rw [htransactions]; exact h.vetted,
    by rw [htransactions, hpool]; exact h.held⟩

/-- An entry leaves the table; the transaction goes to the pool if it is not a miner
transaction. -/
theorem PoolKept.remove {entry : TransactionChainEntry} {s₀ s s' : Storage}
    (h : PoolKept env minerId ids s₀ s) (hid : txId ∈ ids ∨ txId = minerId)
    (hentry : s.ledger.transactions txId = some entry)
    (htransactions : s'.ledger.transactions = Function.update s.ledger.transactions txId none)
    (hpool : ∀ k, (s'.pool.transactions k).isSome = true ↔
      (s.pool.transactions k).isSome = true ∨
        isCoinbase entry.tx.toTransactionPrefix = false ∧ k = txId) :
    PoolKept env minerId ids s₀ s' := by
  have hold : ∀ k e, s'.ledger.transactions k = some e ↔
      k ≠ txId ∧ s.ledger.transactions k = some e := by
    intro k e
    rw [htransactions, Function.update_apply]
    split_ifs with hk <;> simp [hk]
  refine ⟨fun e he => h.miner e ((hold _ _).mp he).2,
    fun k hk e he => h.vetted k hk e ((hold _ _).mp he).2, fun k => ?_⟩
  rw [h.held k, hpool k, or_assoc]
  refine or_congr_right ?_
  by_cases hk : k = txId
  · subst hk
    simp only [hold, ne_eq, not_true_eq_false, false_and, exists_false, and_false, or_false,
      and_true]
    constructor
    · rintro ⟨-, e, he, hnot⟩
      obtain rfl := Option.some.inj (hentry.symm.trans he)
      exact hnot
    · intro hnot
      refine ⟨hid.resolve_right ?_, entry, hentry, hnot⟩
      rintro rfl
      rw [h.miner entry hentry] at hnot
      cases hnot
  · simp [hold, hk]

theorem purgeTransactionFromBlockchain_poolKept {s₀ s : Storage} (h : PoolKept env minerId ids s₀ s)
    (hid : txId ∈ ids ∨ txId = minerId) :
    Returns (s.purgeTransactionFromBlockchain env now txId) fun r =>
      PoolKept env minerId ids s₀ r.2 := by
  unfold purgeTransactionFromBlockchain
  split
  · exact Returns.ok_iff.mpr h
  rename_i entry hentry
  split
  · rename_i ledger hpurge
    exact Returns.ok_iff.mpr (h.congr rfl (by rw [← (Prod.mk.inj hpurge).2]))
  rename_i ledger hpurge
  have htransactions : ledger.transactions = s.ledger.transactions := by
    rw [← (Prod.mk.inj hpurge).2]
  cases hcoinbase : isCoinbase entry.tx.toTransactionPrefix with
  | true =>
    refine Returns.ok_iff.mpr (h.remove hid hentry (by rw [htransactions]) fun k => ?_)
    simp [hcoinbase]
  | false =>
    have hvetted : entry.tx.Semantic ∧ getTransactionHash env.crypto entry.tx = some txId := by
      rcases hid with hid | rfl
      · exact (h.vetted txId hid entry hentry).resolve_left (by simp [hcoinbase])
      · rw [h.miner entry hentry] at hcoinbase
        cases hcoinbase
    refine Returns.bind (P := fun t => ∃ r, returnToPool env now entry.tx
      { s with ledger := ledger } = .ok r ∧ r.2 = t) ⟨fun t ht => ?_⟩ fun t ht => ?_
    · obtain ⟨r, hr, rfl⟩ := map_eq_ok_iff.mp ht
      exact ⟨r, hr, rfl⟩
    obtain ⟨r, hr, rfl⟩ := ht
    obtain ⟨hsame, hids⟩ := (returnToPool_ids hvetted.1 _).out _ hr
    refine Returns.ok_iff.mpr (h.remove hid hentry ?_ fun k => ?_)
    · rw [hsame]
      dsimp only
      rw [htransactions]
    · rw [hids k, hvetted.2, Option.some.injEq]
      exact or_congr_right ⟨fun hk => ⟨hcoinbase, hk.symm⟩, fun hk => hk.2.symm⟩

theorem purgeTransactions_poolKept {purged : List Hash} {s₀ s : Storage}
    (h : PoolKept env minerId ids s₀ s) (hpurged : ∀ k ∈ purged, k ∈ ids ∨ k = minerId) :
    Returns (s.purgeTransactions env now purged) fun r => PoolKept env minerId ids s₀ r.2 := by
  induction purged generalizing s with
  | nil => exact Returns.ok_iff.mpr h
  | cons k purged ih =>
    rw [purgeTransactions]
    refine Returns.bind (purgeTransactionFromBlockchain_poolKept h (hpurged k (by simp)))
      fun r hr => ?_
    refine Returns.bind (ih hr fun j hj => hpurged j (by simp [hj])) fun r' hr' => ?_
    exact Returns.ok_iff.mpr hr'

theorem purgeBlockDataFromBlockchain_poolKept {bl : Block} {count : Nat} {s₀ s : Storage}
    (h : PoolKept env ((getTransactionHash env.crypto bl.minerTx).getD nullHash) ids s₀ s)
    (hcount : bl.txHashes.take count = ids) :
    Returns (s.purgeBlockDataFromBlockchain env now bl count) fun r =>
      PoolKept env ((getTransactionHash env.crypto bl.minerTx).getD nullHash) ids s₀ r.2 := by
  unfold purgeBlockDataFromBlockchain
  split
  · exact Returns.ok_iff.mpr h
  · refine purgeTransactions_poolKept h fun k hk => ?_
    rw [hcount] at hk
    simpa using hk

theorem PoolKept.putBack {d : TxDetails} {s₀ s t : Storage} (h : PoolKept env minerId ids s₀ s)
    (hd : s.pool.transactions txId = some d) (hsemantic : d.tx.Semantic)
    (hhash : getTransactionHash env.crypto d.tx = some txId)
    (hpool : t.pool.transactions = Function.update s.pool.transactions txId none)
    (htransactions : t.ledger.transactions = s.ledger.transactions) :
    Returns (t.returnToPool env now d.tx) fun r => PoolKept env minerId ids s₀ r.2 := by
  refine (returnToPool_ids hsemantic t).mono fun r hr => ?_
  obtain ⟨hsame, hids⟩ := hr
  have hledger : r.2.ledger.transactions = s.ledger.transactions := by rw [hsame]; exact htransactions
  refine ⟨by rw [hledger]; exact h.miner, by rw [hledger]; exact h.vetted, fun k => ?_⟩
  rw [h.held k, hids k, hledger, hpool, hhash, Function.update_apply]
  refine or_congr_left ?_
  by_cases hk : k = txId
  · simp [hk, hd]
  · simp [hk, Ne.symm hk]

end Storage

theorem Ledger.Connected.transactions {crypto : Crypto} {base l : Ledger} {rs : List TxRecord}
    (h : base.Connected crypto rs l) :
    (∀ r ∈ rs, base.transactions r.id = none ∧ ∃ e, l.transactions r.id = some e ∧ e.tx = r.tx) ∧
      ∀ k, (∀ r ∈ rs, r.id ≠ k) → l.transactions k = base.transactions k := by
  induction h with
  | nil => simp
  | @add rs m l r _ _ hadd ih =>
    obtain ⟨hold, hothers⟩ := ih
    obtain ⟨_, -, hnone, rfl⟩ := Ledger.addTransactionFromBlock_eq_added hadd
    have hfresh : ∀ r' ∈ rs, r'.id ≠ r.id := by
      intro r' hr' heq
      obtain ⟨-, e, he, -⟩ := hold r' hr'
      rw [heq, hnone] at he
      cases he
    refine ⟨fun r' hr' => ?_, fun k hk => ?_⟩
    · rcases List.mem_append.mp hr' with hr' | hr'
      · dsimp only
        rw [Function.update_of_ne (hfresh r' hr')]
        exact hold r' hr'
      · rw [List.mem_singleton.mp hr']
        exact ⟨hothers r.id hfresh ▸ hnone, _, Function.update_self .., rfl⟩
    · dsimp only
      rw [Function.update_of_ne fun heq => hk r (by simp) heq.symm]
      exact hothers k fun r' hr' => hk r' (by simp [hr'])

namespace Storage

section Handle

variable {bl : Block} {id : Hash} {s m s' : Storage} {taken : List Taken}

theorem PartlyConnected.stored (h : PartlyConnected env bl taken s m)
    (hmem : txId ∈ taken.map Prod.snd) :
    s.ledger.transactions txId = none ∧ ∃ d e, s.pool.transactions txId = some d ∧
      m.ledger.transactions txId = some e ∧ e.tx = d.tx := by
  obtain ⟨t, ht, rfl⟩ := List.mem_map.mp hmem
  obtain ⟨hnone, e, he, htx⟩ := h.connected.transactions.1 (Taken.record s.entries.length t)
    (List.mem_cons_of_mem _ (List.mem_map_of_mem ht))
  exact ⟨hnone, t.1, e, h.inPool t ht, he, htx⟩

theorem PartlyConnected.poolKept (h : PartlyConnected env bl taken s m) (hvetted : s.Vetted)
    (hcanonical : CanonicalPool env s) :
    PoolKept env (minerRecord env bl s).id (taken.map Prod.snd) s m := by
  refine ⟨fun e he => ?_, fun k hk e he => Or.inr ?_, fun k => ?_⟩
  · obtain ⟨-, e', he', htx⟩ := h.connected.transactions.1 (minerRecord env bl s) (by simp)
    rw [Option.some.inj (he.symm.trans he'), htx]
    exact h.coinbase
  · obtain ⟨-, d, e', hd, he', htx⟩ := h.stored hk
    rw [Option.some.inj (he.symm.trans he'), htx]
    exact ⟨hvetted.semantic hd, hcanonical k d hd⟩
  · by_cases hk : k ∈ taken.map Prod.snd
    · obtain ⟨-, d, e, hd, he, htx⟩ := h.stored hk
      have hcoinbase : isCoinbase e.tx.toTransactionPrefix = false := by
        rw [htx]
        exact not_isCoinbase_of_supported (hvetted.semantic hd).inputs
      simp [hk, hd, he, hcoinbase]
    · simp [h.pool, hk]

theorem PartlyConnected.failed_poolKept {exit : HandleExit} (h : PartlyConnected env bl taken s m)
    (hvetted : s.Vetted) (hcanonical : CanonicalPool env s)
    (hfailed : ConnectFailed env now bl id txId taken.length m exit s') :
    PoolKept env (minerRecord env bl s).id (taken.map Prod.snd) s s' := by
  have hkept := h.poolKept hvetted hcanonical
  -- the transaction that fails goes back first
  have hback : ∀ {d : TxDetails} {pool : TxMemoryPool} {t : Storage} {r : Bool × Storage},
      m.pool.takeTx env.crypto txId = some (d, pool) → t.returnToPool env now d.tx = .ok r →
      t.pool = pool → t.ledger.transactions = m.ledger.transactions →
      PoolKept env (minerRecord env bl s).id (taken.map Prod.snd) s r.2 := by
    intro d pool t r htaken hreturn hpool htransactions
    obtain ⟨hd, hpool'⟩ := TxMemoryPool.takeTx_eq_some htaken
    have hd' := h.inPool_of_mem hd
    exact (hkept.putBack hd (hvetted.semantic hd') (hcanonical _ d hd') (hpool ▸ hpool')
      htransactions).out _ hreturn
  cases hfailed with
  | unknown _ hpurge => exact (purgeBlockDataFromBlockchain_poolKept hkept h.take_eq).out _ hpurge
  | wrongInputs htaken _ hreturn hpurge =>
    refine ((purgeBlockDataFromBlockchain_poolKept (hback htaken hreturn rfl rfl) h.take_eq).out _
      hpurge).congr ?_ ?_
    all_goals
      unfold addBlockAsInvalid
      split <;> rfl
  | failed htaken _ hadd hreturn hpurge =>
    obtain ⟨htransactions, hpool⟩ := enterTransaction_false_transactions hadd
    exact (purgeBlockDataFromBlockchain_poolKept (hback htaken hreturn hpool htransactions)
      h.take_eq).out _ hpurge

theorem PartlyConnected.append_poolKept {exit : HandleExit} (h : PartlyConnected env bl taken s m)
    (hvetted : s.Vetted) (hcanonical : CanonicalPool env s)
    (hfailed : AppendFailed env now bl id taken.length m exit s') :
    PoolKept env (minerRecord env bl s).id (taken.map Prod.snd) s s' := by
  have hkept := h.poolKept hvetted hcanonical
  cases hfailed with
  | wrongMiner hpurge => exact (purgeBlockDataFromBlockchain_poolKept hkept h.take_eq).out _ hpurge
  | indexed _ hpurge =>
    have hkept' : PoolKept env (minerRecord env bl s).id (taken.map Prod.snd) s
        { m with blocksByHash := Function.update m.blocksByHash id (some bl) } :=
      hkept.congr rfl rfl
    exact (purgeBlockDataFromBlockchain_poolKept hkept' h.take_eq).out _ hpurge

def SamePoolIds (s s' : Storage) : Prop :=
  ∀ k, (s'.pool.transactions k).isSome = (s.pool.transactions k).isSome

theorem PartlyConnected.samePoolIds (h : PartlyConnected env bl taken s m)
    (hkept : PoolKept env minerId (taken.map Prod.snd) s s')
    (htransactions : s'.ledger.transactions = s.ledger.transactions) : SamePoolIds s s' := by
  intro k
  rw [Bool.eq_iff_iff, hkept.held k, htransactions]
  refine ⟨Or.inl, fun hk => hk.elim (fun hk => hk) ?_⟩
  rintro ⟨hmem, e, he, -⟩
  rw [(h.stored hmem).1] at he
  cases he

/-- After a refused block that leaves the table of transactions as it was, the pool
has the same ids as before. -/
theorem handleBlockToMainChain_samePoolIds (hvetted : s.Vetted) (hpopping : s.poppingBlock = false)
    (hcanonical : CanonicalPool env s) :
    Returns (s.handleBlockToMainChain env now bl id) fun r =>
      r.1 ≠ .added → r.2.ledger.transactions = s.ledger.transactions → SamePoolIds s r.2 := by
  refine ⟨fun ⟨exit, s'⟩ hr hne htransactions => ?_⟩
  rcases handleBlockToMainChain_refused hvetted hpopping hr hne with
    rfl | ⟨taken, m, h, ⟨txId, hfailed⟩ | hfailed⟩
  · exact fun _ => rfl
  · exact h.samePoolIds (h.failed_poolKept hvetted hcanonical hfailed) htransactions
  · exact h.samePoolIds (h.append_poolKept hvetted hcanonical hfailed) htransactions

end Handle

end Storage

end Pebblecoin
