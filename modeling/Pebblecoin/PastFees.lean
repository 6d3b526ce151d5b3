import Pebblecoin.Control.Outcome
import Pebblecoin.Storage

/-!
The average of past fees depends only on the blocks below the given height and
their transactions.
-/

namespace Pebblecoin.Storage

open Control

def txFee (s : Storage) (id : Hash) : Nat :=
  (s.ledger.transactions id).elim 0 fun e => e.tx.getTxFee.toNat

def blockFees (s : Storage) (bent : BlockchainEntry) : Nat :=
  (s.blocksByHash bent.hash).elim 0 fun b => (b.txHashes.map s.txFee).sum

def totalFees (s : Storage) (bents : List BlockchainEntry) : Nat := (bents.map s.blockFees).sum

/-- The blocks, given newest first, that the loop uses. -/
def dayBack (endTimestamp : UInt64) (bents : List BlockchainEntry) : List BlockchainEntry :=
  bents.takeWhile fun bent => !decide (bent.timestamp < endTimestamp - 86400)

/-- The blocks that the average for a height is taken over, oldest first. -/
def dayBlocks (s : Storage) (height : Nat) (last : BlockchainEntry) : List BlockchainEntry :=
  (dayBack last.timestamp (s.entries.take height).reverse).reverse

/-- The second state has the transactions of the first. -/
def KeepsTransactions (s s' : Storage) : Prop :=
  ∀ id e, s.ledger.transactions id = some e → s'.ledger.transactions id = some e

/-- The second state has the bodies of these entries as the first has them. -/
def KeepsBodies (bents : List BlockchainEntry) (s s' : Storage) : Prop :=
  ∀ bent ∈ bents, ∀ b, s.blocksByHash bent.hash = some b → s'.blocksByHash bent.hash = some b

variable {s s' : Storage}

theorem sumTxFees_mono (htxs : s.KeepsTransactions s') {ids : List Hash} {sum r : UInt64}
    (h : s.sumTxFees ids sum = .ok r) : s'.sumTxFees ids sum = .ok r := by
  induction ids generalizing sum with
  | nil => exact h
  | cons id ids ih =>
    rw [sumTxFees] at h ⊢
    split at h
    · simp at h
    · rename_i e he
      rw [htxs id e he]
      exact ih h

theorem getBlockFees_mono (htxs : s.KeepsTransactions s') {bent : BlockchainEntry}
    (hbody : ∀ b, s.blocksByHash bent.hash = some b → s'.blocksByHash bent.hash = some b)
    {r : UInt64} (h : s.getBlockFees bent = .ok r) : s'.getBlockFees bent = .ok r := by
  obtain ⟨bl, hbl, hsum⟩ := bind_eq_ok_iff.mp h
  refine bind_eq_ok_iff.mpr ⟨bl, ?_, sumTxFees_mono htxs hsum⟩
  unfold getBlockByHash at hbl ⊢
  split at hbl
  · simp at hbl
  · rename_i b hb
    rw [hbody b hb]
    exact hbl

theorem feesOfPastDay_mono (htxs : s.KeepsTransactions s') {endTimestamp : UInt64}
    {bents : List BlockchainEntry} (hbodies : KeepsBodies bents s s') {used : Nat} {sum : UInt64}
    {r : Nat × UInt64} (h : s.feesOfPastDay endTimestamp bents used sum = .ok r) :
    s'.feesOfPastDay endTimestamp bents used sum = .ok r := by
  induction bents generalizing used sum with
  | nil => exact h
  | cons bent bents ih =>
    rw [feesOfPastDay] at h ⊢
    split_ifs at h ⊢
    · exact h
    · obtain ⟨fees, hfees, hrest⟩ := bind_eq_ok_iff.mp h
      refine bind_eq_ok_iff.mpr ⟨fees, ?_, ?_⟩
      · exact getBlockFees_mono htxs (hbodies bent (by simp)) hfees
      · exact ih (fun b hb => hbodies b (by simp [hb])) hrest

theorem averagePastBlockFees_mono {height : Nat}
    (hentries : s'.entries.take height = s.entries.take height)
    (hbodies : KeepsBodies (s.entries.take height) s s') (htxs : s.KeepsTransactions s')
    {r : UInt64} (h : s.averagePastBlockFees height = .ok r) :
    s'.averagePastBlockFees height = .ok r := by
  unfold averagePastBlockFees at h ⊢
  split_ifs at h ⊢ with hzero
  · exact h
  have hget : s'.entries[height - 1]? = s.entries[height - 1]? := by
    have hlt : height - 1 < height := by omega
    rw [← List.getElem?_take_of_lt hlt, hentries, List.getElem?_take_of_lt hlt]
  rw [hget]
  split at h
  · simp at h
  · obtain ⟨fees, hfees, hrest⟩ := bind_eq_ok_iff.mp h
    rw [hentries]
    refine bind_eq_ok_iff.mpr ⟨fees, feesOfPastDay_mono htxs ?_ hfees, hrest⟩
    exact fun b hb => hbodies b (List.mem_reverse.mp hb)

end Pebblecoin.Storage
