import Pebblecoin.BlockEncoding
import Mathlib.Data.List.Perm.Subperm
import Mathlib.Data.List.Nodup

/-!
Whatever can be written to a blob is read back from it.
-/

namespace Pebblecoin

open Containers Wire Wire.Codec Serialization

namespace Serialization

@[simp] theorem varint64_valid (n : UInt64) : varint64.valid n := n.toNat_lt

@[simp] theorem varint16_valid (n : UInt16) : varint16.valid n := n.toNat_lt

@[simp] theorem varint8_valid (n : UInt8) : varint8.valid n := n.toNat_lt

@[simp] theorem uint16_valid (n : UInt16) : uint16.valid n := encodeLE_length 2 n.toNat

@[simp] theorem uint32_valid (n : UInt32) : uint32.valid n := encodeLE_length 4 n.toNat

@[simp] theorem blob_valid {n : Nat} (b : Blob n) : (blob n).valid b := b.size_eq

theorem byteVector_valid_iff {bs : Bytes} : byteVector.valid bs ↔ bs.length < 2 ^ 64 := by
  rw [byteVector, vector_valid_iff]
  exact ⟨And.left, fun h => ⟨h, fun _ _ => trivial⟩⟩

theorem votes_valid (votes : DelegateVotes) : (Codec.set uint16 uint16_nonEmpty).valid votes := by
  have hsubset : votes.toList.map (·.1.toNat) ⊆ List.range (2 ^ 16) := by
    intro n hn
    obtain ⟨p, -, rfl⟩ := List.mem_map.mp hn
    exact List.mem_range.mpr p.1.toNat_lt
  have hnodup : (votes.toList.map (·.1.toNat)).Nodup := by
    rw [List.Nodup, List.pairwise_map]
    exact votes.sorted.imp fun hlt => (UInt16.lt_iff_toNat_lt.mp hlt).ne
  have hlength := (List.subperm_of_subset hnodup hsubset).length_le
  rw [List.length_map, List.length_range] at hlength
  exact set_valid_iff.mpr ⟨lt_of_le_of_lt hlength (by norm_num), fun p _ => uint16_valid p.1⟩

theorem txinToKey_valid {inp : TxinToKey} (h : inp.keyOffsets.length < 2 ^ 64) :
    txinToKey.valid inp :=
  ⟨varint64_valid _, vector_valid_iff.mpr ⟨h, fun _ _ => varint64_valid _⟩, blob_valid _⟩

theorem txIn_valid {inp : TxIn} (hversion : inp.minimumTxVersion ≤ currentTransactionVersion)
    (hsize : inp.signatureSize < 2 ^ 64) : txIn.valid inp := by
  cases inp with
  | gen height => exact ⟨_, rfl, height, rfl, varint64_valid _⟩
  | toKey inp => exact ⟨_, rfl, inp, rfl, txinToKey_valid hsize⟩
  | registerDelegate inp =>
    exact ⟨_, rfl, inp, rfl, varint16_valid _, varint64_valid _, blob_valid _, blob_valid _⟩
  | vote inp =>
    exact ⟨_, rfl, inp, rfl, txinToKey_valid hsize, varint16_valid _, votes_valid _⟩
  | _ => exact absurd hversion (of_decide_eq_false rfl)

theorem txOut_valid {out : TxOut} (hversion : out.minimumTxVersion ≤ currentTransactionVersion) :
    txOut.valid out := by
  obtain ⟨amount, target⟩ := out
  cases target with
  | toKey key => exact ⟨varint64_valid _, _, rfl, key, rfl, blob_valid _⟩
  | _ => exact absurd hversion (of_decide_eq_false rfl)

end Serialization

namespace TransactionPrefix

/-- Every vector of the transaction has a length that is a machine integer. -/
structure CountsFit (tx : TransactionPrefix) : Prop where
  vin : tx.vin.length < 2 ^ 64
  vout : tx.vout.length < 2 ^ 64
  extra : tx.extra.length < 2 ^ 64
  keyOffsets : ∀ inp ∈ tx.vin, inp.signatureSize < 2 ^ 64

theorem coinType_eq {ct : CoinType} {version : UInt64} (hversion : version ≤ currentTransactionVersion)
    (h : ct.isValidTxVersion version = true) : ct = cpXpb := by
  have hmin : ct.minimumTxVersion ≤ currentTransactionVersion := (of_decide_eq_true h).trans hversion
  rw [CoinType.minimumTxVersion] at hmin
  split_ifs at hmin with hcontract hcurrency
  · exact absurd hmin (by decide)
  · exact absurd hmin (by decide)
  · push Not at hcontract hcurrency
    obtain ⟨currency, contractType, backedBy⟩ := ct
    obtain ⟨rfl, rfl⟩ := hcontract
    obtain rfl : currency = currencyXpb := hcurrency
    rfl

theorem eq_replicate_of_forall {α : Type} {cts : List CoinType} {l : List α}
    (hlength : l.length = cts.length) (h : ∀ ct ∈ cts, ct = cpXpb) :
    l.map (fun _ => cpXpb) = cts := by
  rw [List.map_const', hlength]
  exact (List.eq_replicate_of_mem h).symm

theorem ofFields_fields {tx : TransactionPrefix} (h : tx.serializable = true) :
    ofFields tx.fields = tx := by
  simp only [serializable, hasValidCoinTypes, Bool.and_eq_true, decide_eq_true_eq,
    List.all_eq_true] at h
  obtain ⟨⟨hversion, ⟨⟨hvin, hvout⟩, hins⟩, houts⟩, -⟩ := h
  have hvinTypes := eq_replicate_of_forall hvin fun ct hct => coinType_eq hversion (hins ct hct)
  have hvoutTypes := eq_replicate_of_forall hvout fun ct hct => coinType_eq hversion (houts ct hct)
  obtain ⟨version, unlockTime, extra, vin, vout, vinCoinTypes, voutCoinTypes⟩ := tx
  simp only [ofFields, fields] at hvinTypes hvoutTypes ⊢
  rw [hvinTypes, hvoutTypes]

theorem prefixCodec_valid {tx : TransactionPrefix} (h : tx.serializable = true)
    (hfits : tx.CountsFit) : prefixCodec.valid tx.fields := by
  have hofFields := ofFields_fields h
  have htypes := h
  simp only [serializable, hasValidInOutTypes, Bool.and_eq_true, decide_eq_true_eq,
    List.all_eq_true] at htypes
  obtain ⟨⟨hversion, -⟩, hvin, hvout⟩ := htypes
  refine ⟨⟨varint64_valid _, varint64_valid _, ?_, ?_, byteVector_valid_iff.mpr hfits.extra⟩, ?_⟩
  · refine vector_valid_iff.mpr ⟨hfits.vin, fun inp hinp => ?_⟩
    exact txIn_valid ((hvin inp hinp).trans hversion) (hfits.keyOffsets inp hinp)
  · refine vector_valid_iff.mpr ⟨hfits.vout, fun out hout => ?_⟩
    exact txOut_valid ((hvout out hout).trans hversion)
  · change (ofFields tx.fields).serializable = true
    rwa [hofFields]

end TransactionPrefix

theorem signaturesCodec_valid {vin : List TxIn} {sigs : List (List Signature)}
    (h : sigs.map List.length = vin.map TxIn.signatureSize) : (signaturesCodec vin).valid sigs := by
  rw [signaturesCodec]
  induction vin generalizing sigs with
  | nil => simpa [Wire.Codec.sequence] using h
  | cons inp vin ih =>
    cases sigs with
    | nil => simp at h
    | cons l sigs =>
      obtain ⟨hl, hsigs⟩ : l.length = inp.signatureSize ∧
        sigs.map List.length = vin.map TxIn.signatureSize := by simpa using h
      refine ⟨sequence_replicate_valid_iff.mpr ⟨hl, fun _ _ => blob_valid _⟩, ih hsigs⟩

namespace Transaction

/-- One list of signatures for each input, also where they may be left out. -/
def normalSignatures (tx : Transaction) : List (List Signature) :=
  if tx.signatures = [] then tx.vin.map fun _ => [] else tx.signatures

theorem normalSignatures_lengths {tx : Transaction} (h : tx.signaturesExpected = true) :
    tx.normalSignatures.map List.length = tx.vin.map TxIn.signatureSize := by
  rw [signaturesExpected] at h
  rw [normalSignatures]
  split_ifs at h ⊢ with hempty
  · rw [List.map_map]
    refine List.map_congr_left fun inp hinp => ?_
    exact (of_decide_eq_true (List.all_eq_true.mp h inp hinp)).symm
  · exact of_decide_eq_true h

theorem flatten_normalSignatures (tx : Transaction) :
    tx.normalSignatures.flatten = tx.signatures.flatten := by
  rw [normalSignatures]
  split_ifs with hempty
  · simp [hempty]
  · rfl

theorem codec_valid {tx : Transaction} (h : tx.serializable = true)
    (hsigs : tx.signaturesExpected = true) (hfits : tx.CountsFit) :
    transactionCodec.valid (tx.fields, tx.normalSignatures) :=
  ⟨TransactionPrefix.prefixCodec_valid h hfits,
    signaturesCodec_valid (normalSignatures_lengths hsigs)⟩

theorem ofFields_normal {tx : Transaction} (h : tx.serializable = true) :
    ofFields (tx.fields, tx.normalSignatures) = { tx with signatures := tx.normalSignatures } := by
  have hfields := TransactionPrefix.ofFields_fields h
  rw [ofFields, hfields]

theorem serializeTransaction_eq_write {tx : Transaction} (h : tx.serializable = true)
    (hsigs : tx.signaturesExpected = true) :
    serializeTransaction tx = some (transactionCodec.write (tx.fields, tx.normalSignatures)) := by
  have hwrite := signaturesCodec_write (signaturesCodec_valid (normalSignatures_lengths hsigs))
  rw [serializeTransaction, h, hsigs]
  change _ = some (prefixCodec.write tx.fields ++ (signaturesCodec tx.vin).write tx.normalSignatures)
  rw [hwrite, flatten_normalSignatures]
  rfl

theorem parseTransaction_serializeTransaction {tx : Transaction} (h : tx.serializable = true)
    (hsigs : tx.signaturesExpected = true) (hfits : tx.CountsFit) :
    (serializeTransaction tx).bind parseTransaction =
      some { tx with signatures := tx.normalSignatures } := by
  have hread := transactionCodec.read_of_strict
    (transactionCodec.strict_write [] (codec_valid h hsigs hfits))
  rw [List.append_nil] at hread
  rw [serializeTransaction_eq_write h hsigs, Option.bind_some, parseTransaction, hread,
    ← ofFields_normal h]

end Transaction

/-- The serialized fields of a block.  The nonce and the signer with the
signature are there or not, depending on the version. -/
abbrev BlockFields := UInt8 × UInt8 × UInt64 × Hash × List UInt32 ×
  (PrefixFields × List (List Signature)) × List Hash × List (DelegateId × Signature)

def blockCodec : Codec BlockFields :=
  (varint8.guarded (· ≤ currentBlockMajorVersion)).dep fun majorVersion =>
    varint8.pair (varint64.pair ((blob 32).pair
      ((sequence (if majorVersion ≤ powBlockMajorVersion then [uint32] else [])).pair
        (transactionCodec.pair ((vector (blob 32) blob32_nonEmpty).pair
          (sequence (if dposBlockMajorVersion ≤ majorVersion then [varint16.pair (blob 64)]
            else [])))))))

def serializeBlock (b : Block) : Option Bytes := do
  let header ← serializeBlockHeader b.toBlockHeader
  let minerTx ← serializeTransaction b.minerTx
  some (header ++ minerTx ++ (vector (blob 32) blob32_nonEmpty).write b.txHashes ++
    if dposBlockMajorVersion ≤ b.majorVersion then
      varint16.write b.signingDelegateId ++ b.dposSig.bytes
    else [])

namespace Block

/-- Fields that are not in the blob keep the value they have in the object that
is read into. -/
def ofFields (into : Block) (f : BlockFields) : Block where
  majorVersion := f.1
  minorVersion := f.2.1
  timestamp := f.2.2.1
  prevId := f.2.2.2.1
  nonce := f.2.2.2.2.1.headD into.nonce
  minerTx := Transaction.ofFields f.2.2.2.2.2.1
  txHashes := f.2.2.2.2.2.2.1
  signingDelegateId := (f.2.2.2.2.2.2.2.map Prod.fst).headD into.signingDelegateId
  dposSig := (f.2.2.2.2.2.2.2.map Prod.snd).headD into.dposSig

end Block

def parseBlock (into : Block) (blob : Bytes) : Option Block :=
  match blockCodec.read blob with
  | some (f, []) => some (Block.ofFields into f)
  | _ => none

namespace Block

def fields (b : Block) : BlockFields :=
  (b.majorVersion, b.minorVersion, b.timestamp, b.prevId,
    if b.majorVersion ≤ powBlockMajorVersion then [b.nonce] else [],
    (b.minerTx.fields, b.minerTx.normalSignatures), b.txHashes,
    if dposBlockMajorVersion ≤ b.majorVersion then [(b.signingDelegateId, b.dposSig)] else [])

/-- What comes through of a block: all but the nonce of a delegate block and the
signer and signature of a proof-of-work block. -/
def carriedInto (b into : Block) : Block where
  majorVersion := b.majorVersion
  minorVersion := b.minorVersion
  timestamp := b.timestamp
  prevId := b.prevId
  nonce := if isPowBlock b then b.nonce else into.nonce
  minerTx := { b.minerTx with signatures := b.minerTx.normalSignatures }
  txHashes := b.txHashes
  signingDelegateId := if isPosBlock b then b.signingDelegateId else into.signingDelegateId
  dposSig := if isPosBlock b then b.dposSig else into.dposSig

/-- The block and its coinbase have versions that can be written, with a list of
signatures for each input that needs one. -/
structure Writable (b : Block) : Prop where
  version : b.majorVersion ≤ currentBlockMajorVersion
  minerTx : b.minerTx.serializable = true
  signatures : b.minerTx.signaturesExpected = true
  minerTxFits : b.minerTx.CountsFit
  txHashesFit : b.txHashes.length < 2 ^ 64

theorem nonce_valid (b : Block) :
    (sequence (if b.majorVersion ≤ powBlockMajorVersion then [uint32] else [])).valid
      (if b.majorVersion ≤ powBlockMajorVersion then [b.nonce] else []) := by
  split
  · exact ⟨uint32_valid _, rfl⟩
  · rfl

theorem signer_valid (b : Block) :
    (sequence (if dposBlockMajorVersion ≤ b.majorVersion then [varint16.pair (blob 64)]
      else [])).valid (if dposBlockMajorVersion ≤ b.majorVersion then
        [(b.signingDelegateId, b.dposSig)] else []) := by
  split
  · exact ⟨⟨varint16_valid _, blob_valid _⟩, rfl⟩
  · rfl

theorem nonce_write (b : Block) :
    (sequence (if b.majorVersion ≤ powBlockMajorVersion then [uint32] else [])).write
      (if b.majorVersion ≤ powBlockMajorVersion then [b.nonce] else []) =
    if b.majorVersion ≤ powBlockMajorVersion then Codec.encodeLE 4 b.nonce.toNat else [] := by
  split
  · exact List.append_nil _
  · rfl

theorem signer_write (b : Block) :
    (sequence (if dposBlockMajorVersion ≤ b.majorVersion then [varint16.pair (blob 64)]
      else [])).write (if dposBlockMajorVersion ≤ b.majorVersion then
        [(b.signingDelegateId, b.dposSig)] else []) =
    if dposBlockMajorVersion ≤ b.majorVersion then
      varint16.write b.signingDelegateId ++ b.dposSig.bytes else [] := by
  split
  · exact List.append_nil _
  · rfl

theorem Writable.codec_valid {b : Block} (h : b.Writable) : blockCodec.valid b.fields :=
  ⟨⟨varint8_valid _, decide_eq_true h.version⟩, varint8_valid _, varint64_valid _,
    blob_valid _, nonce_valid b, Transaction.codec_valid h.minerTx h.signatures h.minerTxFits,
    vector_valid_iff.mpr ⟨h.txHashesFit, fun _ _ => blob_valid _⟩, signer_valid b⟩

theorem Writable.serializeBlock_eq {b : Block} (h : b.Writable) :
    serializeBlock b = some (blockCodec.write b.fields) := by
  have hminer := Transaction.serializeTransaction_eq_write h.minerTx h.signatures
  rw [serializeBlock, serializeBlockHeader, if_pos h.version, hminer]
  change some _ = some _
  congr 1
  change _ = varint8.write b.majorVersion ++ (varint8.write b.minorVersion ++
    (varint64.write b.timestamp ++ (b.prevId.bytes ++ (_ ++ (_ ++ (_ ++ _))))))
  rw [← nonce_write, ← signer_write]
  simp only [List.append_assoc]
  rfl

theorem ofFields_fields (into : Block) {b : Block} (h : b.Writable) :
    ofFields into b.fields = b.carriedInto into := by
  have hminer := Transaction.ofFields_normal h.minerTx
  simp only [ofFields, fields, carriedInto, hminer, isPowBlock, isPosBlock, decide_eq_true_eq,
    Block.mk.injEq, BlockHeader.mk.injEq, true_and]
  refine ⟨?_, ?_, ?_⟩
  · split <;> rfl
  · split <;> rfl
  · split <;> rfl

end Block

/-- Every transaction and every block that can be written is read back from its
blob. -/
theorem read_written :
    (∀ tx : Transaction, tx.serializable = true → tx.signaturesExpected = true → tx.CountsFit →
      (serializeTransaction tx).bind parseTransaction =
        some { tx with signatures := tx.normalSignatures }) ∧
    ∀ b into : Block, b.Writable →
      (serializeBlock b).bind (parseBlock into) = some (b.carriedInto into) := by
  refine ⟨fun tx h hsigs hfits => Transaction.parseTransaction_serializeTransaction h hsigs hfits,
    fun b into h => ?_⟩
  have hread := blockCodec.read_of_strict (blockCodec.strict_write [] h.codec_valid)
  rw [List.append_nil] at hread
  rw [h.serializeBlock_eq, Option.bind_some, parseBlock, hread, ← Block.ofFields_fields into h]

/-- A delegate block with the given nonce. -/
def sampleNonceBlock (nonce : UInt32) : Block where
  majorVersion := 2
  minorVersion := 0
  timestamp := 100
  prevId := nullHash
  nonce := nonce
  minerTx := { ballotTransaction with vin := [.gen 1], vinCoinTypes := [cpXpb], signatures := [[]] }
  txHashes := [nullHash]
  signingDelegateId := 7
  dposSig := Blob.ofNat 64 9

theorem sampleNonceBlock_writable (nonce : UInt32) : (sampleNonceBlock nonce).Writable := by
  refine ⟨of_decide_eq_true rfl, rfl, rfl, ⟨?_, ?_, ?_, ?_⟩, ?_⟩
  all_goals simp [sampleNonceBlock, ballotTransaction, TxIn.signatureSize]

theorem read_written_of_sampleNonceBlock :
    (serializeTransaction ballotTransaction).bind parseTransaction = some ballotTransaction ∧
      (serializeBlock (sampleNonceBlock 0)).bind (parseBlock (sampleNonceBlock 0)) =
        some ((sampleNonceBlock 0).carriedInto (sampleNonceBlock 0)) := by
  refine ⟨?_, read_written.2 _ _ (sampleNonceBlock_writable 0)⟩
  refine read_written.1 ballotTransaction (by decide) (by decide) ⟨?_, ?_, ?_, ?_⟩
  all_goals simp [ballotTransaction, TxIn.signatureSize]

/-- The nonce of a delegate block is lost. -/
theorem nonce_of_delegate_block_lost :
    (serializeBlock (sampleNonceBlock 5)).bind (parseBlock (sampleNonceBlock 0)) ≠
      some (sampleNonceBlock 5) ∧
    (serializeBlock (sampleNonceBlock 5)).isSome = true := by
  decide +kernel

end Pebblecoin
