import Pebblecoin.Crypto
import Pebblecoin.Serialization

/-!
Reading and writing whole transactions, and their hashes.
-/

namespace Pebblecoin

open Wire Wire.Codec Serialization

/-- The serialized fields of a prefix: version, unlock time, inputs, outputs and
extra bytes. -/
abbrev PrefixFields := UInt64 × UInt64 × List TxIn × List TxOut × Bytes

namespace TransactionPrefix

def fields (tx : TransactionPrefix) : PrefixFields :=
  (tx.version, tx.unlockTime, tx.vin, tx.vout, tx.extra)

/-- Up to the current version the coin types are not transmitted: loading fills
them in. -/
def ofFields (f : PrefixFields) : TransactionPrefix where
  version := f.1
  unlockTime := f.2.1
  vin := f.2.2.1
  vout := f.2.2.2.1
  extra := f.2.2.2.2
  vinCoinTypes := f.2.2.1.map fun _ => cpXpb
  voutCoinTypes := f.2.2.2.1.map fun _ => cpXpb

/-- The tests made while loading or saving.  The versions with transmitted coin
types lie above the current version, so their branches are never entered. -/
def serializable (tx : TransactionPrefix) : Bool :=
  tx.version ≤ currentTransactionVersion && tx.hasValidCoinTypes && tx.hasValidInOutTypes

end TransactionPrefix

def prefixCodec : Codec PrefixFields :=
  (varint64.pair (varint64.pair ((vector txIn tagged_nonEmpty).pair
    ((vector txOut txOut_nonEmpty).pair byteVector)))).guarded
      fun f => (TransactionPrefix.ofFields f).serializable

/-- The signatures follow the prefix without any count: their number is read off
the inputs. -/
def signaturesCodec (vin : List TxIn) : Codec (List (List Signature)) :=
  sequence (vin.map fun inp => sequence (List.replicate inp.signatureSize (blob 64)))

def transactionCodec : Codec (PrefixFields × List (List Signature)) :=
  prefixCodec.dep fun f => signaturesCodec f.2.2.1

namespace Transaction

def ofFields (p : PrefixFields × List (List Signature)) : Transaction :=
  { TransactionPrefix.ofFields p.1 with signatures := p.2 }

/-- Signatures may be left out when no input has any. -/
def signaturesExpected (tx : Transaction) : Bool :=
  if tx.signatures = [] then tx.vin.all (·.signatureSize = 0)
  else tx.signatures.map List.length = tx.vin.map TxIn.signatureSize

end Transaction

def serializePrefix (tx : TransactionPrefix) : Option Bytes :=
  if tx.serializable then some (prefixCodec.write tx.fields) else none

def serializeTransaction (tx : Transaction) : Option Bytes :=
  if tx.serializable && tx.signaturesExpected then
    some (prefixCodec.write tx.fields ++ (tx.signatures.flatten.map Blob.bytes).flatten)
  else none

theorem serializable_of_isSome {tx : Transaction} (h : (serializeTransaction tx).isSome = true) :
    tx.serializable = true := by
  rw [serializeTransaction, Option.isSome_ite, Bool.and_eq_true] at h
  exact h.1

/-- The blob is read to its very end. -/
def parseTransaction (blob : Bytes) : Option Transaction :=
  match transactionCodec.read blob with
  | some (p, []) => some (Transaction.ofFields p)
  | _ => none

section Hashes

variable (crypto : Crypto)

def getTransactionPrefixHash (tx : TransactionPrefix) : Option Hash :=
  (serializePrefix tx).map crypto.cnFastHash

def getTransactionHash (tx : Transaction) : Option Hash :=
  (serializeTransaction tx).map crypto.cnFastHash

/-- The transaction with the hash of the received bytes and its prefix hash. -/
def parseAndValidateTxFromBlob (blob : Bytes) : Option (Transaction × Hash × Hash) :=
  (parseTransaction blob).bind fun tx =>
    (getTransactionPrefixHash crypto tx.toTransactionPrefix).map fun prefixHash =>
      (tx, crypto.cnFastHash blob, prefixHash)

end Hashes

/-- Every integer of the blob is complete, fits its width and has no superfluous
zero group, and every set of votes is listed in increasing order. -/
def CanonicallyEncoded (blob : Bytes) : Prop :=
  ∃ p, transactionCodec.strict blob = some (p, [])

theorem signaturesCodec_write {vin : List TxIn} {sigs : List (List Signature)}
    (h : (signaturesCodec vin).valid sigs) :
    (signaturesCodec vin).write sigs = (sigs.flatten.map Blob.bytes).flatten := by
  -- one input's signatures are written one after the other
  have hone : ∀ n (l : List Signature), (sequence (List.replicate n (blob 64))).valid l →
      (sequence (List.replicate n (blob 64))).write l = (l.map Blob.bytes).flatten := by
    intro n
    induction n with
    | zero =>
      intro l hl
      obtain rfl : l = [] := hl
      rfl
    | succ n ih =>
      intro l hl
      rw [List.replicate_succ] at hl ⊢
      cases l with
      | nil => exact hl.elim
      | cons sig l =>
        change sig.bytes ++ _ = _
        rw [ih l hl.2]
        rfl
  rw [signaturesCodec] at h ⊢
  induction vin generalizing sigs with
  | nil =>
    obtain rfl : sigs = [] := h
    rfl
  | cons inp vin ih =>
    cases sigs with
    | nil => exact h.elim
    | cons l sigs =>
      change (sequence _).write l ++ (sequence _).write sigs = _
      rw [hone _ l h.1, ih h.2]
      simp

theorem signaturesCodec_lengths {vin : List TxIn} {sigs : List (List Signature)}
    (h : (signaturesCodec vin).valid sigs) :
    sigs.map List.length = vin.map TxIn.signatureSize := by
  rw [signaturesCodec] at h
  induction vin generalizing sigs with
  | nil =>
    obtain rfl : sigs = [] := h
    rfl
  | cons inp vin ih =>
    cases sigs with
    | nil => exact h.elim
    | cons l sigs =>
      have hl : l.length = inp.signatureSize := by
        simpa using length_of_sequence_valid h.1
      rw [List.map_cons, List.map_cons, hl, ih h.2]

theorem serializeTransaction_ofFields {p : PrefixFields × List (List Signature)}
    (h : transactionCodec.valid p) :
    serializeTransaction (Transaction.ofFields p) = some (transactionCodec.write p) := by
  obtain ⟨⟨-, hprefix⟩, hsigs⟩ := h
  have hlengths := signaturesCodec_lengths hsigs
  have hexpected : (Transaction.ofFields p).signaturesExpected = true := by
    unfold Transaction.signaturesExpected
    split_ifs with hempty
    · have : (p.1.2.2.1).map TxIn.signatureSize = [] := by
        rw [← hlengths, show p.2 = [] from hempty]
        rfl
      rw [List.map_eq_nil_iff] at this
      simp [Transaction.ofFields, TransactionPrefix.ofFields, this]
    · exact decide_eq_true hlengths
  have hserializable : (Transaction.ofFields p).serializable = true := hprefix
  rw [serializeTransaction, hserializable, hexpected]
  change some (prefixCodec.write p.1 ++ _) = some (prefixCodec.write p.1 ++ _)
  rw [signaturesCodec_write hsigs]
  rfl

theorem parseTransaction_eq_some {blob : Bytes} {tx : Transaction}
    (h : parseTransaction blob = some tx) :
    ∃ p, transactionCodec.read blob = some (p, []) ∧ tx = Transaction.ofFields p := by
  unfold parseTransaction at h
  split at h
  · rename_i p hp
    exact ⟨p, hp, (Option.some.inj h).symm⟩
  · cases h

/-- A received transaction is written back as it came exactly when it came in its
canonical encoding. -/
theorem serializeTransaction_parse_iff {blob : Bytes} {tx : Transaction}
    (h : parseTransaction blob = some tx) :
    serializeTransaction tx = some blob ↔ CanonicallyEncoded blob := by
  obtain ⟨p, hread, rfl⟩ := parseTransaction_eq_some h
  have hvalid := transactionCodec.valid_of_read hread
  rw [serializeTransaction_ofFields hvalid, Option.some.injEq]
  constructor
  · rintro rfl
    exact ⟨p, by simpa using transactionCodec.strict_write [] hvalid⟩
  · rintro ⟨q, hq⟩
    have hqp : (q, ([] : Bytes)) = (p, []) :=
      Option.some.inj ((transactionCodec.read_of_strict hq).symm.trans hread)
    obtain rfl : q = p := (Prod.mk.inj hqp).1
    simpa using (transactionCodec.eq_write_of_strict hq).symm

theorem parseAndValidateTxFromBlob_eq_some {crypto : Crypto} {blob : Bytes} {tx : Transaction}
    {txHash prefixHash : Hash}
    (h : parseAndValidateTxFromBlob crypto blob = some (tx, txHash, prefixHash)) :
    parseTransaction blob = some tx ∧ txHash = crypto.cnFastHash blob := by
  obtain ⟨tx', hparse, hrest⟩ := Option.bind_eq_some_iff.mp h
  obtain ⟨_, -, heq⟩ := Option.map_eq_some_iff.mp hrest
  obtain ⟨rfl, rfl, -⟩ : tx' = tx ∧ crypto.cnFastHash blob = txHash ∧ _ = prefixHash := by
    simpa using heq
  exact ⟨hparse, rfl⟩

theorem getTransactionHash_of_canonicallyEncoded {crypto : Crypto} {blob : Bytes}
    {tx : Transaction} {txHash prefixHash : Hash}
    (h : parseAndValidateTxFromBlob crypto blob = some (tx, txHash, prefixHash))
    (hcanonical : CanonicallyEncoded blob) : getTransactionHash crypto tx = some txHash := by
  obtain ⟨hparse, rfl⟩ := parseAndValidateTxFromBlob_eq_some h
  rw [getTransactionHash, (serializeTransaction_parse_iff hparse).mpr hcanonical, Option.map_some]

theorem reported_id_iff_canonicallyEncoded (crypto : Crypto) {blob : Bytes}
    {tx : Transaction} {txHash prefixHash : Hash}
    (h : parseAndValidateTxFromBlob crypto blob = some (tx, txHash, prefixHash)) :
    (serializeTransaction tx = some blob ∧ getTransactionHash crypto tx = some txHash) ↔
      CanonicallyEncoded blob := by
  obtain ⟨hparse, -⟩ := parseAndValidateTxFromBlob_eq_some h
  rw [← serializeTransaction_parse_iff hparse]
  refine ⟨And.left, fun hserialize => ⟨hserialize, ?_⟩⟩
  exact getTransactionHash_of_canonicallyEncoded h
    ((serializeTransaction_parse_iff hparse).mp hserialize)

/-- A ring of two keys is spent, and another key votes for two delegates. -/
def ballotTransaction : Transaction where
  version := 2
  unlockTime := 3
  extra := [1, 2]
  vin := [.toKey ⟨5, [0, 300], Blob.ofNat 32 1⟩,
    .vote ⟨⟨7, [2], Blob.ofNat 32 2⟩, 1, Containers.OrdSet.ofElems [4, 300]⟩]
  vout := [⟨4, .toKey (Blob.ofNat 32 3)⟩]
  vinCoinTypes := [cpXpb, cpXpb]
  voutCoinTypes := [cpXpb]
  signatures := [[Blob.ofNat 64 1, Blob.ofNat 64 2], [Blob.ofNat 64 3]]

def ballotBlob : Bytes := (serializeTransaction ballotTransaction).getD []

theorem parseAndValidate_ballotBlob :
    parseAndValidateTxFromBlob sampleCrypto ballotBlob =
      some (ballotTransaction, sampleCrypto.cnFastHash ballotBlob,
        (getTransactionPrefixHash sampleCrypto ballotTransaction.toTransactionPrefix).getD nullHash) ∧
      serializeTransaction ballotTransaction = some ballotBlob := by
  decide +kernel

theorem reported_id_ballotTransaction :
    ∃ txHash prefixHash,
      parseAndValidateTxFromBlob sampleCrypto ballotBlob =
          some (ballotTransaction, txHash, prefixHash) ∧
        ((serializeTransaction ballotTransaction = some ballotBlob ∧
            getTransactionHash sampleCrypto ballotTransaction = some txHash) ↔
          CanonicallyEncoded ballotBlob) ∧
        CanonicallyEncoded ballotBlob := by
  obtain ⟨hparse, hserialize⟩ := parseAndValidate_ballotBlob
  refine ⟨_, _, hparse, reported_id_iff_canonicallyEncoded sampleCrypto hparse, ?_⟩
  exact (serializeTransaction_parse_iff (parseAndValidateTxFromBlob_eq_some hparse).1).mp hserialize

/-- A version 1 transaction without inputs, outputs and extra bytes. -/
def emptyTransaction : Transaction where
  version := 1
  unlockTime := 0
  extra := []
  vin := []
  vout := []
  vinCoinTypes := []
  voutCoinTypes := []
  signatures := []

/-- The count of extra bytes is missing: the blob is accepted, written back with
one byte more and reported under a second id. -/
theorem reported_id_of_truncated_blob :
    ∃ txHash prefixHash,
      parseAndValidateTxFromBlob sampleCrypto [1, 0, 0, 0] =
          some (emptyTransaction, txHash, prefixHash) ∧
        serializeTransaction emptyTransaction = some [1, 0, 0, 0, 0] ∧
        getTransactionHash sampleCrypto emptyTransaction ≠ some txHash := by
  refine ⟨sampleCrypto.cnFastHash [1, 0, 0, 0], sampleCrypto.cnFastHash [1, 0, 0, 0, 0], ?_⟩
  decide +kernel

end Pebblecoin
