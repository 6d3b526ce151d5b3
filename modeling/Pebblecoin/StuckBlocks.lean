import Pebblecoin.PoolApart
import Pebblecoin.ChainWork

/-!
A block that could not be popped has lost its miner transaction, and so can never be
popped again.
-/

namespace Pebblecoin.Storage

open Control

variable {env : Env} {now : UInt64} {V : Hash → Transaction → Prop} {k : Hash}

/-- The hash of one transaction is not the id of another. -/
def IdsApart (crypto : Crypto) (V : Hash → Transaction → Prop) : Prop :=
  ∀ id tx id' tx', V id tx → V id' tx' → getTransactionHash crypto tx' = some id → tx = tx'

theorem purgeTransactionFromBlockchain_lost (txId : Hash) {s : Storage}
    (hk : s.ledger.transactions k = none) :
    Returns (s.purgeTransactionFromBlockchain env now txId) fun r =>
      r.2.ledger.transactions k = none ∧ (txId = k → r.1 = false) := by
  refine (purgeTransactionFromBlockchain_spec txId s).mono fun r hr => ?_
  obtain ⟨hres, pool, hr⟩ := hr
  rw [hres, hr]
  refine ⟨Option.eq_none_iff_forall_ne_some.mpr fun e he => ?_, ?_⟩
  · rw [Ledger.purgeTransaction_transactions he] at hk
    cases hk
  · rintro rfl
    rw [Ledger.purgeTransaction, hk]

theorem purgeTransactions_lost {ids : List Hash} {s : Storage} (hmem : k ∈ ids)
    (hk : s.ledger.transactions k = none) :
    Returns (s.purgeTransactions env now ids) fun r => r.1 = false := by
  induction ids generalizing s with
  | nil => simp at hmem
  | cons id ids ih =>
    rw [purgeTransactions]
    refine Returns.bind (purgeTransactionFromBlockchain_lost id hk) fun r hr => ?_
    by_cases hid : id = k
    · exact Returns.bind_const fun r' => Returns.ok_iff.mpr (by simp [hr.2 hid])
    · have hrest : k ∈ ids := (List.mem_cons.mp hmem).resolve_left (Ne.symm hid)
      exact Returns.bind (ih hrest hr.1) fun r' hr' => Returns.ok_iff.mpr (by simp [hr'])

/-- Only a coinbase can be known by the id, and the chain has lost it. -/
structure Lost (V : Hash → Transaction → Prop) (k : Hash) (s : Storage) : Prop where
  allTxs : s.AllTxs V
  gone : s.ledger.transactions k = none

theorem lost_txInvariant (hV : Rehashes env.crypto V)
    (hk : ∀ tx, V k tx → isCoinbase tx.toTransactionPrefix = true) :
    TxInvariant env now (Lost V k) where
  congr h hpool htransactions :=
    ⟨h.allTxs.congr hpool htransactions, by rw [htransactions]; exact h.gone⟩
  purge txId s h := ⟨fun r hr =>
    ⟨(purgeTransactionFromBlockchain_allTxs hV txId h.allTxs).out r hr,
      ((purgeTransactionFromBlockchain_lost txId h.gone).out r hr).1⟩⟩
  putBack {txId d pool s s'} h htake hpool htransactions := by
    refine ⟨fun r hr => ⟨((allTxs_txInvariant hV).putBack h.allTxs htake hpool htransactions).out r hr,
      ?_⟩⟩
    rw [((returnToPool_subset ..).out r hr).1, htransactions]
    exact h.gone
  connect {txId d pool s s'} h htake hadd := by
    refine ⟨(allTxs_txInvariant hV : TxInvariant env now _).connect h.allTxs htake hadd, ?_⟩
    have hsubset := (enterTransaction_subset env d.tx txId { s with pool := pool }).2 k h.gone
    rw [hadd] at hsubset
    refine hsubset.resolve_left ?_
    -- nothing in the pool is a coinbase
    rintro rfl
    obtain ⟨htx, hcoinbase, -⟩ := h.allTxs.pool _ d (TxMemoryPool.takeTx_eq_some htake).1
    rw [hk _ htx] at hcoinbase
    cases hcoinbase

theorem Lost.addMiner {bl : Block} {s : Storage} (h : Lost V k s)
    (hminer : V ((getTransactionHash env.crypto bl.minerTx).getD nullHash) bl.minerTx)
    (hne : k ≠ (getTransactionHash env.crypto bl.minerTx).getD nullHash) :
    Lost V k (s.enterTransaction env bl.minerTx
      ((getTransactionHash env.crypto bl.minerTx).getD nullHash)).2 :=
  ⟨enterTransaction_allTxs env h.allTxs hminer,
    ((enterTransaction_subset ..).2 k h.gone).resolve_left hne⟩

theorem purgeTransaction_of_coinbase {txId : Hash} {l : Ledger}
    (h : ∀ e, l.transactions txId = some e → isCoinbase e.tx.toTransactionPrefix = true) :
    (l.purgeTransaction txId).2.transactions txId = none := by
  unfold Ledger.purgeTransaction
  split
  · assumption
  rename_i entry hentry
  have hcoinbase := h entry hentry
  have hpurge : (l.purgeTransactionData entry.tx.toTransactionPrefix true).1 = true := by
    unfold isCoinbase at hcoinbase
    split at hcoinbase
    · rename_i g hvin
      simp [Ledger.purgeTransactionData, hvin, allApply, InputTables.purgeInput]
    · cases hcoinbase
  split
  · rename_i ledger hfalse
    rw [hfalse] at hpurge
    cases hpurge
  · exact Function.update_self ..

theorem purgeTransactions_gone (hV : Rehashes env.crypto V)
    (hk : ∀ tx, V k tx → isCoinbase tx.toTransactionPrefix = true) (ids : List Hash) {s : Storage}
    (h : s.AllTxs V) :
    Returns (s.purgeTransactions env now (ids ++ [k])) fun r =>
      r.2.ledger.transactions k = none := by
  induction ids generalizing s with
  | nil =>
    rw [List.nil_append, purgeTransactions]
    refine Returns.bind (purgeTransactionFromBlockchain_spec k s) fun r hr => ?_
    obtain ⟨-, pool, hr⟩ := hr
    refine Returns.ok_iff.mpr ?_
    rw [hr]
    exact purgeTransaction_of_coinbase fun e he => hk _ (h.chain k e he)
  | cons id ids ih =>
    rw [List.cons_append, purgeTransactions]
    refine Returns.bind (purgeTransactionFromBlockchain_allTxs hV id h) fun r hr => ?_
    exact Returns.bind (ih hr) fun r' hr' => Returns.ok_iff.mpr hr'

theorem isCoinbase_of_getBlockHeight {b : Block} (h : (getBlockHeight b).toNat ≠ 0) :
    isCoinbase b.minerTx.toTransactionPrefix = true := by
  unfold getBlockHeight at h
  unfold isCoinbase
  split at h
  · rfl
  · exact absurd rfl h

theorem getBlockHeight_congr {b b' : Block} (h : b.minerTx = b'.minerTx) :
    getBlockHeight b = getBlockHeight b' := by
  rw [getBlockHeight, getBlockHeight, h]

/-- What is known about every state of a run whose transactions satisfy `V` under their
ids. -/
structure Regular (env : Env) (V : Hash → Transaction → Prop) (s : Storage) : Prop where
  sound : s.Sound env
  worked : s.Worked env
  carried : Carried env V s

/-- The chain has lost the miner transaction of its block at height `b`. -/
def StuckAt (env : Env) (b : Nat) (s : Storage) : Prop :=
  0 < b ∧ ∃ bent body, s.entries[b]? = some bent ∧ s.blocksByHash bent.hash = some body ∧
    s.ledger.transactions ((getTransactionHash env.crypto body.minerTx).getD nullHash) = none

theorem StuckAt.lt {b : Nat} {s : Storage} (h : StuckAt env b s) : b < s.entries.length := by
  obtain ⟨-, bent, body, hbent, -⟩ := h
  exact (List.getElem?_eq_some_iff.mp hbent).1

section Pop

variable {s s' : Storage} {bent : BlockchainEntry} {body : Block} {popped : Bool}

theorem popBlockFromBlockchain_stuck (hbent : s.entries.getLast? = some bent)
    (hbody : s.blocksByHash bent.hash = some body)
    (hgone : s.ledger.transactions
      ((getTransactionHash env.crypto body.minerTx).getD nullHash) = none) :
    Returns (s.popBlockFromBlockchain env now) fun r => r.1 = false := by
  refine (popBlockFromBlockchain_steps s).mono fun r hr => ?_
  cases hr with
  | short => rfl
  | stuck => rfl
  | purged hlength hlast hbl hpurge =>
    obtain rfl := Option.some.inj (hbent.symm.trans hlast)
    obtain rfl := Option.some.inj (hbody.symm.trans hbl)
    rw [purgeBlockDataFromBlockchain, if_neg (lt_irrefl _)] at hpurge
    have hmem := List.mem_append_right (List.take body.txHashes.length body.txHashes).reverse
      (List.mem_singleton_self ((getTransactionHash env.crypto body.minerTx).getD nullHash))
    cases (purgeTransactions_lost (s := { s with poppingBlock := true }) hmem hgone).out _ hpurge

theorem popBlockFromBlockchain_gone (hV : Rehashes env.crypto V) (hchain : s.ChainOk)
    (hall : s.AllTxs V) (hlength : 2 ≤ s.entries.length)
    (hbent : s.entries.getLast? = some bent) (hbody : s.blocksByHash bent.hash = some body)
    (hminer : ∀ tx, V ((getTransactionHash env.crypto body.minerTx).getD nullHash) tx →
      isCoinbase tx.toTransactionPrefix = true) :
    Returns (s.popBlockFromBlockchain env now) fun r => r.1 = false →
      r.2.ledger.transactions
        ((getTransactionHash env.crypto body.minerTx).getD nullHash) = none := by
  have hindexed : (s.blocksIndex bent.hash).isNone = false := by
    rw [List.getLast?_eq_getElem?] at hbent
    rw [hchain.indexed _ bent hbent]
    rfl
  have hall' : AllTxs V { s with poppingBlock := true } := hall.congr rfl rfl
  refine (popBlockFromBlockchain_steps s).mono fun r hr hfailed => ?_
  cases hr with
  | short hshort => omega
  | stuck _ hlast hbl hpurge =>
    obtain rfl := Option.some.inj (hbent.symm.trans hlast)
    obtain rfl := Option.some.inj (hbody.symm.trans hbl)
    rw [purgeBlockDataFromBlockchain, if_neg (lt_irrefl _)] at hpurge
    have hgone := (purgeTransactions_gone hV hminer _ hall').out _ hpurge
    exact hgone
  | purged _ hlast hbl hpurge huncount =>
    obtain rfl := Option.some.inj (hbent.symm.trans hlast)
    have hsame := (purgeBlockDataFromBlockchain_sameChain ..).out _ hpurge
    obtain ⟨ds, log, -, rfl⟩ := (uncountStatistics_frame ..).out _ huncount
    dsimp only at hsame
    rw [removeLastEntry, if_neg (by rw [hsame]; simp [hindexed])] at hfailed
    cases hfailed

end Pop

section Stuck

variable {D : Block → Prop} {s s' : Storage} {b : Nat}

theorem Regular.minerTx_unique (h : Regular env V s) (hfree : IdsApart env.crypto V) {id : Hash}
    {body : Block} (hbody : s.blocksByHash id = some body) {tx : Transaction}
    (htx : V ((getTransactionHash env.crypto body.minerTx).getD nullHash) tx) :
    tx = body.minerTx := by
  obtain ⟨hash, hhash⟩ := getTransactionHash_of_getBlockHash (h.sound.hashes id body hbody)
  have hminer := h.carried.bodies id body hbody
  rw [hhash, Option.getD_some] at htx hminer
  exact hfree _ _ _ _ htx hminer hhash

theorem StuckAt.of_pop_failed (h : Regular env V s) (hV : Rehashes env.crypto V)
    (hfree : IdsApart env.crypto V) (hlength : 2 ≤ s.entries.length)
    (hpop : s.popBlockFromBlockchain env now = .ok (false, s')) :
    StuckAt env (s'.entries.length - 1) s' := by
  have hframe := PopFrame.of_pop hpop
  obtain ⟨bent, hbent⟩ : ∃ bent, s.entries[s.entries.length - 1]? = some bent :=
    ⟨_, List.getElem?_eq_getElem (by omega)⟩
  obtain ⟨body, hbody, hheight⟩ := h.sound.chain.bodies _ bent hbent
  have hcoinbase := isCoinbase_of_getBlockHeight (b := body) (by omega)
  rw [(hframe.failed rfl).1]
  refine ⟨by omega, bent, body, ?_, ?_, ?_⟩
  · rw [(hframe.failed rfl).1, hbent]
  · rw [hframe.frame]
    exact hbody
  · rw [← List.getLast?_eq_getElem?] at hbent
    refine (popBlockFromBlockchain_gone hV h.sound.chain h.carried.allTxs hlength hbent hbody
      fun tx htx => ?_).out _ hpop rfl
    rw [h.minerTx_unique hfree hbody htx]
    exact hcoinbase

theorem StuckAt.action (h : Regular env V s) (hV : Rehashes env.crypto V)
    (hfree : IdsApart env.crypto V)
    (hD : ∀ bl, D bl → V ((getTransactionHash env.crypto bl.minerTx).getD nullHash) bl.minerTx)
    (hstuck : StuckAt env b s) (haction : Action env D now s s') : StuckAt env b s' := by
  have hgrow := haction.bodiesGrow h.sound
  obtain ⟨hpos, bent, body, hbent, hbody, hgone⟩ := hstuck
  obtain ⟨body', hbody', hheight⟩ := h.sound.chain.bodies b bent hbent
  obtain rfl : body = body' := Option.some.inj (hbody.symm.trans hbody')
  have hcoinbase : ∀ tx, V ((getTransactionHash env.crypto body.minerTx).getD nullHash) tx →
      isCoinbase tx.toTransactionPrefix = true := by
    intro tx htx
    rw [h.minerTx_unique hfree hbody htx]
    exact isCoinbase_of_getBlockHeight (by omega)
  have hlt := (List.getElem?_eq_some_iff.mp hbent).1
  have hlost : Lost V _ s := ⟨h.carried.allTxs, hgone⟩
  have hsame : ∀ {t : Storage}, BodiesGrow s t → t.entries = s.entries → t.ledger = s.ledger →
      StuckAt env b t := by
    intro t hgrow hentries hledger
    exact ⟨hpos, bent, body, by rw [hentries, hbent], hgrow _ _ hbody, by rw [hledger, hgone]⟩
  cases haction with
  | @connect bl id exit _ _ hoffered hid hfits hrun =>
    have hminer := h.carried.miner hoffered hD
    -- the new block has another height, so another miner transaction
    have hother : prevalidateMinerTransaction bl s.entries.length = true →
        (getTransactionHash env.crypto body.minerTx).getD nullHash ≠
          (getTransactionHash env.crypto bl.minerTx).getD nullHash := by
      intro hpre heq
      rw [← heq] at hminer
      have hsame := getBlockHeight_congr (h.minerTx_unique hfree hbody hminer)
      have hnew := getBlockHeight_of_prevalidate hpre
      rw [hsame] at hnew
      omega
    have hgone' : Returns (s.handleBlockToMainChain env now bl id) fun r => Lost V _ r.2 :=
      (lost_txInvariant hV hcoinbase).handleBlockToMainChain id hlost fun hpre =>
        hlost.addMiner hminer (hother hpre)
    refine ⟨hpos, bent, body, ?_, hgrow _ _ hbody, (hgone'.out _ hrun).gone⟩
    rcases h.sound.handle_cases hrun with ⟨taken, l, fee, base, prev, -, happ⟩ | ⟨-, hrej⟩
    · rw [happ.entries, List.getElem?_append_left hlt, hbent]
    · rw [hrej.frame]
      exact hbent
  | @disconnect popped _ _ hrun =>
    have hgone' := ((lost_txInvariant hV hcoinbase).popBlockFromBlockchain hlost).out _ hrun
    have hframe := PopFrame.of_pop hrun
    refine ⟨hpos, bent, body, ?_, hgrow _ _ hbody, hgone'.gone⟩
    cases popped with
    | false => rw [(hframe.failed rfl).1, hbent]
    | true =>
      have hnot : b + 1 ≠ s.entries.length := by
        intro heq
        have hlast : s.entries.getLast? = some bent := by
          rw [List.getLast?_eq_getElem?, ← heq, Nat.add_sub_cancel, hbent]
        exact Bool.noConfusion ((popBlockFromBlockchain_stuck hlast hbody hgone).out _ hrun)
      rw [(hframe.done rfl).2.1, List.getElem?_dropLast, if_pos (by omega), hbent]
  | storeBody _ _ _ => exact hsame hgrow rfl rfl
  | place _ _ _ hplace =>
    obtain ⟨-, rfl⟩ := placeAlternativeBlock_eq_ok hplace
    exact hsame hgrow rfl rfl
  | markInvalid ids hid halt =>
    rw [markBranchInvalid_eq ids (h.sound.alternatives _ _ halt).1 hid] at hgrow ⊢
    exact hsame hgrow rfl rfl
  | eraseAlternatives _ => exact hsame hgrow rfl rfl
  | logSwitchFailed _ _ => exact hsame hgrow rfl rfl
  | logPushFailed => exact hsame hgrow rfl rfl

theorem Regular.actions (h : Regular env V s) (hV : Rehashes env.crypto V)
    (hD : ∀ bl, D bl → V ((getTransactionHash env.crypto bl.minerTx).getD nullHash) bl.minerTx)
    (hrun : Actions env D now s s') : Regular env V s' := by
  induction hrun with
  | refl => exact h
  | tail _ hlast ih =>
    exact ⟨hlast.sound ih.sound, hlast.worked ih.sound ih.worked,
      ih.carried.action hV hD ih.sound hlast⟩

theorem StuckAt.actions (h : Regular env V s) (hV : Rehashes env.crypto V)
    (hfree : IdsApart env.crypto V)
    (hD : ∀ bl, D bl → V ((getTransactionHash env.crypto bl.minerTx).getD nullHash) bl.minerTx)
    (hstuck : StuckAt env b s) (hrun : Actions env D now s s') : StuckAt env b s' := by
  induction hrun with
  | refl => exact hstuck
  | tail hrun hlast ih => exact ih.action (h.actions hV hD hrun) hV hfree hD hlast

end Stuck

end Pebblecoin.Storage
