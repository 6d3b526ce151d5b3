import Pebblecoin.MainChainSpecs

/-!
Every transaction in the pool and in the chain has passed the checks that do not
depend on the state of the chain.
-/

namespace Pebblecoin

open Containers Control

variable {tx : Transaction} {id : Hash} {s : Storage} {kept : Bool}

/-- The part of `checkTxSemantic` that depends on the transaction alone. -/
structure Transaction.Semantic (tx : Transaction) : Prop where
  serializes : (serializeTransaction tx).isSome = true
  nonempty : tx.vin ≠ []
  inputs : checkInputsTypesSupported tx.toTransactionPrefix = true
  outputs : checkOutputsTypesSupported tx.toTransactionPrefix = true
  balanced : tx.checkInputsOutputs.isSome = true
  disjoint : tx.vin.Pairwise TxIn.Disjoint

theorem Transaction.Semantic.engaged (h : tx.Semantic) : ∀ inp ∈ tx.vin, inp.engaged = true := by
  intro inp hinp
  have := List.all_eq_true.mp h.inputs inp hinp
  cases inp <;> simp_all [TxIn.engaged]

theorem not_isCoinbase_of_supported (h : checkInputsTypesSupported tx.toTransactionPrefix = true) :
    isCoinbase tx.toTransactionPrefix = false := by
  have hall := List.all_eq_true.mp h
  unfold isCoinbase
  split
  · rename_i height hvin
    simp [hvin] at hall
  · rfl

namespace TxMemoryPool

theorem addInp_transactions (id : Hash) (kept : Bool) (inp : TxIn) (pool : TxMemoryPool) :
    (addInp id kept inp pool).2.transactions = pool.transactions := by
  unfold addInp
  split
  · rfl
  · rfl
  · dsimp only
    split_ifs <;> rfl

theorem removeInp_transactions (id : Hash) (inp : TxIn) (pool : TxMemoryPool) :
    (removeInp id inp pool).2.transactions = pool.transactions := by
  unfold removeInp
  split
  · rfl
  · rfl
  · split
    · rfl
    · split_ifs <;> rfl

theorem takeTx_eq_some {crypto : Crypto} {pool pool' : TxMemoryPool} {d : TxDetails}
    (h : pool.takeTx crypto id = some (d, pool')) :
    pool.transactions id = some d ∧
      pool'.transactions = Function.update pool.transactions id none := by
  obtain ⟨d', hd', heq⟩ := Option.map_eq_some_iff.mp h
  obtain ⟨rfl, rfl⟩ := Prod.mk.inj heq
  have hkeep : (pool.removeTransactionData crypto d'.tx).2.transactions = pool.transactions :=
    allApply_keeps (P := fun p => p.transactions = pool.transactions)
      (fun inp _ p hp => (removeInp_transactions _ inp p).trans hp) rfl
  exact ⟨hd', by rw [hkeep]⟩

end TxMemoryPool

namespace Storage

variable {env : Env} {now : UInt64}

theorem insertIntoPool_transactions (tx : Transaction) (id : Hash) (blobSize : Nat) (fee : UInt64)
    (kept : Bool) (memory : CheckMemory) (s : Storage) :
    (insertIntoPool tx id blobSize fee kept memory s).2.pool.transactions =
      Function.update s.pool.transactions id (some ⟨tx, blobSize, fee, kept⟩) :=
  allApply_keeps (P := fun p : TxMemoryPool => p.transactions =
      Function.update s.pool.transactions id (some ⟨tx, blobSize, fee, kept⟩))
    (fun inp _ p hp => (TxMemoryPool.addInp_transactions id kept inp p).trans hp) rfl

theorem poolAddTx_transactions (tx : Transaction) (id : Hash) (blobSize : Nat) (kept : Bool)
    (s : Storage) :
    Returns (s.poolAddTx env now tx id blobSize kept) fun r =>
      r.2.2.pool.transactions = s.pool.transactions ∨
        ∃ fee, tx.checkInputsOutputs = some fee ∧ r.2.2.pool.transactions =
          Function.update s.pool.transactions id (some ⟨tx, blobSize, fee, kept⟩) := by
  unfold poolAddTx
  split
  · simp
  split
  · simp
  rename_i fee hfee
  split
  · simp
  split
  · simp
  refine Returns.bind_const fun valid => ?_
  split
  · simp
  split
  · simp
  · exact Returns.ok_iff.mpr (Or.inr ⟨fee, hfee, insertIntoPool_transactions ..⟩)

/-- Every transaction of the pool and of the chain satisfies `V` under its id.
The pool keeps no coinbase and knows the fees. -/
structure AllTxs (V : Hash → Transaction → Prop) (s : Storage) : Prop where
  pool : ∀ id d, s.pool.transactions id = some d → V id d.tx ∧
    isCoinbase d.tx.toTransactionPrefix = false ∧ d.tx.checkInputsOutputs = some d.fee
  chain : ∀ id e, s.ledger.transactions id = some e → V id e.tx

/-- A transaction may go on under its own hash. -/
def Rehashes (crypto : Crypto) (V : Hash → Transaction → Prop) : Prop :=
  ∀ id tx, V id tx → V ((getTransactionHash crypto tx).getD nullHash) tx

section AllTxs

variable {V : Hash → Transaction → Prop}

theorem AllTxs.congr {s' : Storage} (h : s.AllTxs V) (hpool : s'.pool = s.pool)
    (htxs : s'.ledger.transactions = s.ledger.transactions) : s'.AllTxs V :=
  ⟨by rw [hpool]; exact h.pool, by rw [htxs]; exact h.chain⟩

theorem AllTxs.mono {V W : Hash → Transaction → Prop} (h : s.AllTxs V)
    (hsub : ∀ id tx, V id tx → W id tx) : s.AllTxs W :=
  ⟨fun k d hd => (h.pool k d hd).imp_left (hsub _ _), fun k e he => hsub _ _ (h.chain k e he)⟩

theorem AllTxs.empty : Storage.empty.AllTxs V :=
  ⟨fun _ _ h => (nomatch h), fun _ _ h => (nomatch h)⟩

theorem poolAddTx_allTxs (htx : V id tx) (blobSize : Nat) (kept : Bool) (h : s.AllTxs V) :
    Returns (s.poolAddTx env now tx id blobSize kept) fun r => r.2.2.AllTxs V := by
  by_cases hinputs : checkInputsTypesSupported tx.toTransactionPrefix = true
  · constructor
    intro r hr
    have hsame := (poolAddTx_sameButPool ..).out r hr
    refine ⟨fun k d hd => ?_, by rw [hsame]; exact h.chain⟩
    rcases (poolAddTx_transactions ..).out r hr with heq | ⟨fee, hfee, heq⟩
    · rw [heq] at hd
      exact h.pool k d hd
    · rw [heq, Function.update_apply] at hd
      split_ifs at hd with hk
      · cases hd
        exact ⟨hk ▸ htx, not_isCoinbase_of_supported hinputs, hfee⟩
      · exact h.pool k d hd
  · unfold poolAddTx
    rw [if_pos (by simp [hinputs])]
    exact Returns.ok_iff.mpr h

theorem returnToPool_allTxs (hV : Rehashes env.crypto V) (htx : V id tx) (h : s.AllTxs V) :
    Returns (s.returnToPool env now tx) fun r => r.2.AllTxs V := by
  unfold returnToPool
  split
  · exact Returns.ok_iff.mpr h
  · rename_i blob hblob
    have hself := hV id tx htx
    rw [getTransactionHash, hblob] at hself
    exact Returns.bind (poolAddTx_allTxs hself _ _ h) fun r hr => Returns.ok_iff.mpr hr

theorem handleIncomingTx_allTxs {blob : Wire.Bytes} (hblob : ∀ tx txHash prefixHash,
      parseAndValidateTxFromBlob env.crypto blob = some (tx, txHash, prefixHash) →
        s.checkTxSemantic env tx kept = true → V txHash tx) (h : s.AllTxs V) :
    Returns (s.handleIncomingTx env now blob kept) fun r => r.2.2.AllTxs V := by
  unfold handleIncomingTx
  split
  · exact Returns.ok_iff.mpr h
  split
  · exact Returns.ok_iff.mpr h
  rename_i tx txHash prefixHash hparse
  split
  · exact Returns.ok_iff.mpr h
  rename_i hsemantic
  split
  · exact Returns.ok_iff.mpr h
  · exact poolAddTx_allTxs (hblob tx txHash prefixHash hparse (by simpa using hsemantic)) _ _ h

theorem purgeTransactionFromBlockchain_allTxs (hV : Rehashes env.crypto V) (txId : Hash)
    (h : s.AllTxs V) :
    Returns (s.purgeTransactionFromBlockchain env now txId) fun r => r.2.AllTxs V := by
  cases hentry : s.ledger.transactions txId with
  | none => simpa [purgeTransactionFromBlockchain, hentry] using h
  | some entry =>
    cases hpurge : s.ledger.purgeTransactionData entry.tx.toTransactionPrefix true with
    | mk r ledger =>
      have h' : AllTxs V { s with ledger := ledger } := by
        refine h.congr rfl ?_
        rw [← (Prod.mk.inj hpurge).2]
      -- a table with one entry less satisfies it too
      have hdrop : ∀ {t : Storage} (outputs : OutputIndex), t.AllTxs V → AllTxs V { t with
          ledger := { t.ledger with
            outputs := outputs
            transactions := Function.update t.ledger.transactions txId none } } := by
        intro t outputs ht
        refine ⟨ht.pool, fun id e he => ?_⟩
        simp only [Function.update_apply] at he
        split_ifs at he
        exact ht.chain id e he
      cases r with
      | false => simpa [purgeTransactionFromBlockchain, hentry, hpurge] using h'
      | true =>
        simp only [purgeTransactionFromBlockchain, hentry, hpurge]
        split
        · exact Returns.ok_iff.mpr (hdrop _ h')
        · refine Returns.bind (Returns.map
            (returnToPool_allTxs hV (h.chain txId entry hentry) h')) fun t ht => ?_
          exact Returns.ok_iff.mpr (hdrop _ ht)

end AllTxs

/-- A coinbase, or a transaction that has passed the checks of its own. -/
def IsVetted (_ : Hash) (tx : Transaction) : Prop :=
  isCoinbase tx.toTransactionPrefix = true ∨ tx.Semantic

abbrev Vetted (s : Storage) : Prop := s.AllTxs IsVetted

theorem isVetted_rehashes (crypto : Crypto) : Rehashes crypto IsVetted := fun _ _ h => h

theorem Vetted.semantic (h : s.Vetted) {d : TxDetails} (hd : s.pool.transactions id = some d) :
    d.tx.Semantic := by
  obtain ⟨hvetted, hcoinbase, -⟩ := h.pool id d hd
  exact hvetted.resolve_left (by simp [hcoinbase])

theorem semantic_of_checkTxSemantic (h : s.checkTxSemantic env tx kept = true) : tx.Semantic := by
  simp only [checkTxSemantic] at h
  split at h
  · simp at h
  · rename_i bytes hser
    simp only [Bool.and_eq_true] at h
    obtain ⟨⟨⟨⟨⟨⟨hne, hin⟩, hout⟩, -⟩, hbal⟩, -⟩, hvalid⟩ := h
    exact ⟨by rw [hser]; rfl, by simpa using hne, hin, hout, hbal,
      TxInputCompatChecker.isTxValid_pairwise hvalid⟩

theorem isVetted_of_checkTxSemantic (id : Hash) (h : s.checkTxSemantic env tx kept = true) :
    IsVetted id tx :=
  Or.inr (semantic_of_checkTxSemantic h)

end Storage

end Pebblecoin
