import Pebblecoin.Control.Outcome
import Pebblecoin.LedgerReplay
import Pebblecoin.MainChain

/-!
What the steps of connecting and disconnecting a block do to the ledger and the
pool, and what they leave alone.
-/

namespace Pebblecoin

open Containers Control

namespace Storage

variable {env : Env} {now : UInt64}

/-- Apart from the pool the two states are the same. -/
def SameButPool (s s' : Storage) : Prop :=
  s' = { s with pool := s'.pool }

theorem SameButPool.refl (s : Storage) : SameButPool s s := rfl

theorem poolAddTx_sameButPool (tx : Transaction) (id : Hash) (blobSize : Nat) (kept : Bool)
    (s : Storage) :
    Returns (s.poolAddTx env now tx id blobSize kept) fun r => s.SameButPool r.2.2 := by
  unfold poolAddTx
  split
  · simp [SameButPool.refl]
  split
  · simp [SameButPool.refl]
  split
  · simp [SameButPool.refl]
  split
  · simp [SameButPool.refl]
  refine Returns.bind_const fun valid => ?_
  split
  · simp [SameButPool.refl]
  split
  · simp [SameButPool.refl]
  · simp [insertIntoPool, SameButPool]

theorem returnToPool_sameButPool (tx : Transaction) (s : Storage) :
    Returns (s.returnToPool env now tx) fun r => s.SameButPool r.2 := by
  unfold returnToPool
  split
  · simp [SameButPool.refl]
  · refine Returns.bind (poolAddTx_sameButPool ..) fun r hr => ?_
    simpa using hr

/-- Purging a transaction is purging it from the ledger; besides that only the
pool changes. -/
theorem purgeTransactionFromBlockchain_spec (txId : Hash) (s : Storage) :
    Returns (s.purgeTransactionFromBlockchain env now txId) fun r =>
      r.1 = (s.ledger.purgeTransaction txId).1 ∧
        ∃ pool, r.2 = { s with ledger := (s.ledger.purgeTransaction txId).2, pool := pool } := by
  cases hentry : s.ledger.transactions txId with
  | none =>
    simp only [purgeTransactionFromBlockchain, Ledger.purgeTransaction, hentry, Returns.ok_iff,
      true_and]
    exact ⟨s.pool, rfl⟩
  | some entry =>
    cases hpurge : s.ledger.purgeTransactionData entry.tx.toTransactionPrefix true with
    | mk r ledger =>
      cases r with
      | false =>
        simp only [purgeTransactionFromBlockchain, Ledger.purgeTransaction, hentry, hpurge,
          Returns.ok_iff, true_and]
        exact ⟨s.pool, rfl⟩
      | true =>
        simp only [purgeTransactionFromBlockchain, Ledger.purgeTransaction, hentry, hpurge]
        split
        · exact Returns.ok_iff.mpr ⟨rfl, s.pool, rfl⟩
        · refine Returns.bind (Returns.map (returnToPool_sameButPool ..)) fun s' hs' => ?_
          rw [hs']
          exact Returns.ok_iff.mpr ⟨rfl, s'.pool, rfl⟩

/-- A history of a ledger whose last transaction can always be purged. -/
def Unwinds (Q : List TxRecord → Ledger → Prop) : Prop :=
  ∀ {rs : List TxRecord} {r : TxRecord} {l : Ledger}, Q (rs ++ [r]) l →
    ∃ l', l.purgeTransaction r.id = (true, l') ∧ Q rs l'

theorem purgeTransactions_spec {Q : List TxRecord → Ledger → Prop} (hQ : Unwinds Q)
    {rs : List TxRecord} (rs' : List TxRecord) {s : Storage} (h : Q (rs ++ rs') s.ledger) :
    Returns (s.purgeTransactions env now (rs'.map (·.id)).reverse) fun r =>
      r.1 = true ∧ ∃ l pool, r.2 = { s with ledger := l, pool := pool } ∧ Q rs l := by
  induction rs' using List.reverseRecOn generalizing s with
  | nil =>
    simp only [List.map_nil, List.reverse_nil, purgeTransactions, Returns.ok_iff, true_and]
    exact ⟨s.ledger, s.pool, rfl, by simpa using h⟩
  | append_singleton rs' r ih =>
    rw [← List.append_assoc] at h
    obtain ⟨l, hpurge, hl⟩ := hQ h
    rw [List.map_append, List.map_singleton, List.reverse_append, List.reverse_singleton,
      List.singleton_append, purgeTransactions]
    refine Returns.bind (purgeTransactionFromBlockchain_spec r.id s) fun x hx => ?_
    obtain ⟨hres, pool, hs⟩ := hx
    rw [hpurge] at hres hs
    refine Returns.bind (ih (s := x.2) (by rw [hs]; exact hl)) fun y hy => ?_
    obtain ⟨hres', l', pool', hs', hl'⟩ := hy
    simp only [Returns.ok_iff, hres, hres', Bool.and_self, true_and]
    exact ⟨l', pool', by rw [hs', hs], hl'⟩

theorem purgeBlockDataFromBlockchain_spec {Q : List TxRecord → Ledger → Prop} (hQ : Unwinds Q)
    (rs : List TxRecord) {miner : TxRecord} {txs : List TxRecord} {bl : Block} {count : Nat}
    {s : Storage} (hminer : (getTransactionHash env.crypto bl.minerTx).getD nullHash = miner.id)
    (hcount : count ≤ bl.txHashes.length) (hids : txs.map (·.id) = bl.txHashes.take count)
    (h : Q (rs ++ miner :: txs) s.ledger) :
    Returns (s.purgeBlockDataFromBlockchain env now bl count) fun r =>
      r.1 = true ∧ ∃ l pool, r.2 = { s with ledger := l, pool := pool } ∧ Q rs l := by
  rw [purgeBlockDataFromBlockchain, if_neg (Nat.not_lt.mpr hcount), hminer, ← hids]
  simpa using purgeTransactions_spec hQ (miner :: txs) h

end Storage

end Pebblecoin
