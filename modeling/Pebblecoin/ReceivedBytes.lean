import Pebblecoin.BlobRoundTrip
import Pebblecoin.RunRecords

/-!
Receiving the bytes of a transaction is handling the transaction itself.
-/

namespace Pebblecoin

open Control

/-- The transaction can be written, with a list of signatures for every input. -/
structure Transaction.Written (tx : Transaction) : Prop where
  serializable : tx.serializable = true
  signaturesExpected : tx.signaturesExpected = true
  signed : tx.signatures ≠ []
  countsFit : tx.CountsFit

theorem Transaction.written_iff {tx : Transaction} : tx.Written ↔ tx.serializable = true ∧
    tx.signaturesExpected = true ∧ tx.signatures ≠ [] ∧ tx.vin.length < 2 ^ 64 ∧
      tx.vout.length < 2 ^ 64 ∧ tx.extra.length < 2 ^ 64 ∧
      ∀ inp ∈ tx.vin, inp.signatureSize < 2 ^ 64 :=
  ⟨fun ⟨hserializable, hexpected, hsigned, hvin, hvout, hextra, hoffsets⟩ =>
      ⟨hserializable, hexpected, hsigned, hvin, hvout, hextra, hoffsets⟩,
    fun ⟨hserializable, hexpected, hsigned, hvin, hvout, hextra, hoffsets⟩ =>
      ⟨hserializable, hexpected, hsigned, hvin, hvout, hextra, hoffsets⟩⟩

instance (tx : Transaction) : Decidable tx.Written := decidable_of_iff _ tx.written_iff.symm

theorem Transaction.Written.parse {tx : Transaction} (h : tx.Written) :
    parseTransaction ((serializeTransaction tx).getD []) = some tx := by
  have hback := parseTransaction_serializeTransaction h.serializable h.signaturesExpected h.countsFit
  have hsigs : tx.normalSignatures = tx.signatures := by rw [normalSignatures, if_neg h.signed]
  rw [serializeTransaction_eq_write h.serializable h.signaturesExpected, Option.bind_some, hsigs]
    at hback
  rw [serializeTransaction_eq_write h.serializable h.signaturesExpected, Option.getD_some, hsigs]
  exact hback

/-- Every transaction that the operation brings in has its own hash as its id. -/
def Op.Canonical (crypto : Crypto) (op : Op) : Prop :=
  ∀ p ∈ op.identified crypto, getTransactionHash crypto p.2 = some p.1

theorem Transaction.Written.canonical {tx : Transaction} (h : tx.Written) (crypto : Crypto)
    (kept : Bool) : Op.Canonical crypto (.handleIncomingTx ((serializeTransaction tx).getD []) kept) := by
  have hwritten := serializeTransaction_eq_write h.serializable h.signaturesExpected
  have hhash : getTransactionHash crypto tx =
      some (crypto.cnFastHash ((serializeTransaction tx).getD [])) := by
    rw [getTransactionHash, hwritten]
    rfl
  intro p hp
  rw [Op.identified, h.parse] at hp
  simp only [Option.toList_some, List.flatMap_cons, List.flatMap_nil, List.append_nil, hhash,
    Option.getD_some, List.mem_cons, List.not_mem_nil, or_false, or_self] at hp
  rw [hp]
  exact hhash

theorem Block.canonical {crypto : Crypto} {bl : Block}
    (h : (getTransactionHash crypto bl.minerTx).isSome = true) (fuel : Nat) :
    Op.Canonical crypto (.addNewBlock fuel bl) := by
  intro p hp
  obtain ⟨id, hid⟩ := Option.isSome_iff_exists.mp h
  rw [Op.identified, List.mem_singleton, Block.minerPair, hid, Option.getD_some] at hp
  rw [hp]
  exact hid

theorem canonicalIds_of_forall {crypto : Crypto} {genesis : Block} {ops : List (UInt64 × Op)}
    (hgenesis : (getTransactionHash crypto genesis.minerTx).isSome = true)
    (h : ∀ op ∈ ops, op.2.Canonical crypto) : Storage.CanonicalIds crypto genesis ops := by
  intro p hp
  rcases List.mem_cons.mp hp with rfl | hp
  · exact genesis.canonical hgenesis 0 _ (by simp [Op.identified])
  · obtain ⟨op, hop, hp⟩ := List.mem_flatMap.mp hp
    exact h op hop p hp

namespace Storage

section Receive

variable (env : Env) (now : UInt64)

/-- What is done with a transaction that has been read from its own bytes. -/
def handleReadTx (tx : Transaction) (keptByBlock : Bool) (s : Storage) :
    Except Interrupted (Bool × TxVerificationContext × Storage) :=
  let blob := (serializeTransaction tx).getD []
  if cryptonoteMaxTxSize < blob.length then .ok (false, ⟨false, true, false, false⟩, s)
  else if !s.checkTxSemantic env tx keptByBlock then .ok (false, ⟨false, true, false, false⟩, s)
  else if s.pool.haveTx (env.crypto.cnFastHash blob) || s.haveTx (env.crypto.cnFastHash blob) then
    .ok (true, ⟨false, false, false, false⟩, s)
  else s.poolAddTx env now tx (env.crypto.cnFastHash blob) blob.length keptByBlock

theorem handleIncomingTx_of_written {tx : Transaction} (h : tx.Written) (keptByBlock : Bool)
    (s : Storage) :
    s.handleIncomingTx env now ((serializeTransaction tx).getD []) keptByBlock =
      s.handleReadTx env now tx keptByBlock := by
  obtain ⟨p, hp⟩ : ∃ p, getTransactionPrefixHash env.crypto tx.toTransactionPrefix = some p := by
    rw [getTransactionPrefixHash, serializePrefix, if_pos h.serializable]
    exact ⟨_, rfl⟩
  rw [handleIncomingTx, handleReadTx, parseAndValidateTxFromBlob, h.parse, Option.bind_some, hp]
  rfl

/-- The transactions of a block, one after the other. -/
def receiveAll : List Transaction → Storage → Except Interrupted Storage
  | [], s => .ok s
  | tx :: txs, s => do receiveAll txs (← (·.2.2) <$> s.handleReadTx env now tx true)

/-- The operations that deliver the bytes of the transactions. -/
def deliveries (txs : List Transaction) : List (UInt64 × Op) :=
  txs.map fun tx => (now, .handleIncomingTx ((serializeTransaction tx).getD []) true)

theorem canonical_of_mem_deliveries {txs : List Transaction} (h : ∀ tx ∈ txs, tx.Written)
    {op : UInt64 × Op} (hop : op ∈ deliveries now txs) : op.2.Canonical env.crypto := by
  obtain ⟨tx, htx, rfl⟩ := List.mem_map.mp hop
  exact (h tx htx).canonical env.crypto true

theorem calls_deliveries {txs : List Transaction} (h : ∀ tx ∈ txs, tx.Written) (s : Storage) :
    s.calls env (deliveries now txs) = s.receiveAll env now txs := by
  induction txs generalizing s with
  | nil => rfl
  | cons tx txs ih =>
    rw [deliveries, List.map_cons, calls, call, handleIncomingTx_of_written env now (h tx (by simp)),
      receiveAll]
    exact bind_congr fun t => ih (fun x hx => h x (by simp [hx])) t

end Receive

end Storage

end Pebblecoin
