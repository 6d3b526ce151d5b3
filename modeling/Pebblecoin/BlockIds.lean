import Pebblecoin.BlobRoundTrip
import Pebblecoin.Containers.PairTree

/-!
The id of a block binds its header, the hash of its coinbase, its transaction
hashes and, for a delegate block, its signer and signature.
-/

namespace Pebblecoin

open Containers Wire Wire.Codec Serialization

section Tree

variable (crypto : Crypto)

theorem hashPairs_eq (l : List Hash) : hashPairs crypto l = joinPairs (hashPair crypto) l := by
  induction l using hashPairs.induct with
  | case1 a b rest ih => simp only [hashPairs, joinPairs, ih]
  | case2 l h =>
    rcases l with _ | ⟨a, _ | ⟨b, rest⟩⟩
    · simp [hashPairs, joinPairs]
    · simp [hashPairs, joinPairs]
    · exact absurd rfl (h a b rest)

theorem singleton_treeHashRows {rows : Nat} {l : List Hash} (h : l.length = 2 ^ (rows + 1)) :
    [treeHashRows crypto rows l] = joinRows (hashPair crypto) (rows + 1) l := by
  induction rows generalizing l with
  | zero =>
    obtain ⟨a, b, rfl⟩ := List.length_eq_two.mp h
    simp [treeHashRows, joinRows, joinPairs]
  | succ rows ih =>
    have hhalf : (joinPairs (hashPair crypto) l).length = 2 ^ (rows + 1) := by
      rw [length_joinPairs, h, pow_succ]
      omega
    rw [treeHashRows, hashPairs_eq, ih hhalf]
    rfl

/-- The row of the tree that is full. -/
def fullRow (hashes : List Hash) : List Hash :=
  let single := 2 * 2 ^ Nat.log2 (hashes.length - 1) - hashes.length
  hashes.take single ++ joinPairs (hashPair crypto) (hashes.drop single)

/-- The pairs that are hashed on the way to the root. -/
def treePairs (hashes : List Hash) : List (Hash × Hash) :=
  match hashes with
  | [] | [_] => []
  | [a, b] => [(a, b)]
  | _ =>
    let log := Nat.log2 (hashes.length - 1)
    joined (hashes.drop (2 * 2 ^ log - hashes.length)) ++
      joinedInRows (hashPair crypto) log (fullRow crypto hashes)

variable {crypto}

theorem first_row {n : Nat} (h : 3 ≤ n) :
    1 ≤ Nat.log2 (n - 1) ∧ 2 ^ Nat.log2 (n - 1) < n ∧ n ≤ 2 * 2 ^ Nat.log2 (n - 1) := by
  have hle := Nat.log2_self_le (n := n - 1) (by omega)
  have hlt := Nat.lt_log2_self (n := n - 1)
  rw [pow_succ] at hlt
  refine ⟨?_, by omega, by omega⟩
  by_contra hzero
  have : Nat.log2 (n - 1) = 0 := by omega
  rw [this] at hlt
  omega

theorem length_fullRow {hashes : List Hash} (h : 3 ≤ hashes.length) :
    (fullRow crypto hashes).length = 2 ^ Nat.log2 (hashes.length - 1) := by
  obtain ⟨-, hlow, hhigh⟩ := first_row h
  rw [fullRow, List.length_append, List.length_take, length_joinPairs, List.length_drop]
  omega

theorem singleton_treeHash {hashes : List Hash} (h : 3 ≤ hashes.length) :
    [treeHash crypto hashes] =
      joinRows (hashPair crypto) (Nat.log2 (hashes.length - 1)) (fullRow crypto hashes) := by
  obtain ⟨hlog, -⟩ := first_row h
  have hlength : (fullRow crypto hashes).length = 2 ^ (Nat.log2 (hashes.length - 1) - 1 + 1) := by
    rw [length_fullRow h, Nat.sub_add_cancel hlog]
  have hroot := singleton_treeHashRows crypto hlength
  rw [Nat.sub_add_cancel hlog] at hroot
  rw [← hroot]
  match hashes, h with
  | a :: b :: c :: rest, _ => simp only [treeHash, hashPairs_eq, fullRow]

theorem fullRow_inj {l l' : List Hash} (hlength : l.length = l'.length)
    (hapart : Apart (hashPair crypto) (joined (l.drop (2 * 2 ^ Nat.log2 (l.length - 1) - l.length)))
      (joined (l'.drop (2 * 2 ^ Nat.log2 (l'.length - 1) - l'.length))))
    (h : fullRow crypto l = fullRow crypto l') : l = l' := by
  rw [← hlength] at hapart
  rw [fullRow, fullRow, ← hlength] at h
  obtain ⟨htake, hjoin⟩ := List.append_inj h (by simp [hlength])
  have hdrop := joinPairs_inj (by simp [hlength]) hapart hjoin
  rw [← List.take_append_drop _ l, htake, hdrop, List.take_append_drop]

/-- The tree hash uses every leaf: over lists of the same length it collides only
where the pairs on the way do. -/
theorem treeHash_inj {l l' : List Hash} (hlength : l.length = l'.length)
    (hapart : Apart (hashPair crypto) (treePairs crypto l) (treePairs crypto l'))
    (h : treeHash crypto l = treeHash crypto l') : l = l' := by
  match l, l', hlength with
  | [], [], _ => rfl
  | [a], [a'], _ => exact congrArg (fun x => [x]) h
  | [a, b], [a', b'], _ =>
    have hpair := hapart (a, b) (by simp [treePairs]) (a', b') (by simp [treePairs]) h
    obtain ⟨rfl, rfl⟩ := Prod.mk.inj hpair
    rfl
  | a :: b :: c :: rest, a' :: b' :: c' :: rest', hlength =>
    have hroot : [treeHash crypto (a :: b :: c :: rest)] =
        [treeHash crypto (a' :: b' :: c' :: rest')] := by rw [h]
    rw [singleton_treeHash (by simp), singleton_treeHash (by simp), ← hlength] at hroot
    have hrow := joinRows_inj (by rw [length_fullRow (by simp), length_fullRow (by simp), hlength])
      (fun p hp q hq => hapart p (List.mem_append_right _ hp) q
        (List.mem_append_right _ (hlength ▸ hq))) hroot
    exact fullRow_inj hlength (fun p hp q hq => hapart p (List.mem_append_left _ hp) q
      (List.mem_append_left _ hq)) hrow

end Tree

theorem Wire.Codec.write_inj {α : Type} (c : Codec α) {a b : α} (ha : c.valid a) (hb : c.valid b)
    (h : c.write a = c.write b) : a = b := by
  have hread := c.strict_write [] ha
  rw [h, c.strict_write [] hb] at hread
  exact (Prod.mk.inj (Option.some.inj hread)).1.symm

/-- The fields of the hashing blob: those of the header, the root of the tree,
the number of hashes in it and the signer with the signature. -/
abbrev HashingFields := UInt8 × UInt8 × UInt64 × Hash × List UInt32 × Hash × Nat ×
  List (DelegateId × Signature)

def hashingCodec : Codec HashingFields :=
  (varint8.guarded (· ≤ currentBlockMajorVersion)).dep fun majorVersion =>
    varint8.pair (varint64.pair ((blob 32).pair
      ((sequence (if majorVersion ≤ powBlockMajorVersion then [uint32] else [])).pair
        ((blob 32).pair ((varint 64 width64_pos width64_le).pair
          (sequence (if dposBlockMajorVersion ≤ majorVersion then [varint16.pair (blob 64)]
            else [])))))))

def Block.hashingFields (b : Block) (treeRootHash : Hash) : HashingFields :=
  (b.majorVersion, b.minorVersion, b.timestamp, b.prevId,
    if b.majorVersion ≤ powBlockMajorVersion then [b.nonce] else [], treeRootHash,
    b.txHashes.length + 1,
    if dposBlockMajorVersion ≤ b.majorVersion then [(b.signingDelegateId, b.dposSig)] else [])

section BlockId

variable {crypto : Crypto} {b b' : Block}

theorem hashingCodec_valid (root : Hash) (hversion : b.majorVersion ≤ currentBlockMajorVersion)
    (hcount : b.txHashes.length + 1 < 2 ^ 64) : hashingCodec.valid (b.hashingFields root) :=
  ⟨⟨varint8_valid _, decide_eq_true hversion⟩, varint8_valid _, varint64_valid _, blob_valid _,
    Block.nonce_valid b, blob_valid _, hcount, Block.signer_valid b⟩

theorem hashingCodec_write (b : Block) (root : Hash) :
    hashingCodec.write (b.hashingFields root) =
      writeVarint b.majorVersion.toNat ++ (writeVarint b.minorVersion.toNat ++
        (writeVarint b.timestamp.toNat ++ (b.prevId.bytes ++
          ((if b.majorVersion ≤ powBlockMajorVersion then encodeLE 4 b.nonce.toNat else []) ++
            (root.bytes ++ (writeVarint (b.txHashes.length + 1) ++
              if dposBlockMajorVersion ≤ b.majorVersion then
                varint16.write b.signingDelegateId ++ b.dposSig.bytes else [])))))) := by
  rw [← Block.nonce_write, ← Block.signer_write]
  rfl

theorem getBlockHashingBlob_eq_some {bl : Bytes} (h : getBlockHashingBlob crypto b false = some bl) :
    ∃ coinbase, getTransactionHash crypto b.minerTx = some coinbase ∧
      b.majorVersion ≤ currentBlockMajorVersion ∧
      bl = hashingCodec.write (b.hashingFields (treeHash crypto (coinbase :: b.txHashes))) := by
  obtain ⟨header, hheader, h⟩ := Option.bind_eq_some_iff.mp h
  obtain ⟨root, hroot, h⟩ := Option.bind_eq_some_iff.mp h
  obtain ⟨coinbase, hcoinbase, rfl⟩ := Option.map_eq_some_iff.mp hroot
  rw [serializeBlockHeader] at hheader
  by_cases hversion : b.majorVersion ≤ currentBlockMajorVersion
  · refine ⟨coinbase, hcoinbase, hversion, ?_⟩
    rw [if_pos hversion] at hheader
    obtain rfl := Option.some.inj hheader
    obtain rfl := Option.some.inj h
    rw [hashingCodec_write]
    simp only [isPosBlock, decide_eq_true_eq, Bool.false_eq_true, if_false, List.append_assoc]
    rfl
  · rw [if_neg hversion] at hheader
    cases hheader

/-- The strings that are hashed for the id of a block, apart from the coinbase. -/
def hashedStrings (crypto : Crypto) (b : Block) : List Bytes :=
  ((getBlockHashingBlob crypto b false).map fun bl => writeVarint bl.length ++ bl).toList ++
    (((getTransactionHash crypto b.minerTx).map fun coinbase =>
      treePairs crypto (coinbase :: b.txHashes)).getD []).map fun p => p.1.bytes ++ p.2.bytes

/-- The blocks agree in everything the id stands for. -/
structure SameIdentified (crypto : Crypto) (b b' : Block) : Prop where
  majorVersion : b.majorVersion = b'.majorVersion
  minorVersion : b.minorVersion = b'.minorVersion
  timestamp : b.timestamp = b'.timestamp
  prevId : b.prevId = b'.prevId
  nonce : isPowBlock b = true → b.nonce = b'.nonce
  coinbase : getTransactionHash crypto b.minerTx = getTransactionHash crypto b'.minerTx
  txHashes : b.txHashes = b'.txHashes
  signer : isPosBlock b = true →
    b.signingDelegateId = b'.signingDelegateId ∧ b.dposSig = b'.dposSig

theorem blob_append_inj {n : Nat} {a b a' b' : Blob n}
    (h : a.bytes ++ b.bytes = a'.bytes ++ b'.bytes) : (a, b) = (a', b') := by
  obtain ⟨ha, hb⟩ := List.append_inj h (by rw [a.size_eq, a'.size_eq])
  obtain ⟨a, _⟩ := a
  obtain ⟨b, _⟩ := b
  obtain ⟨a', _⟩ := a'
  obtain ⟨b', _⟩ := b'
  obtain rfl : a = a' := ha
  obtain rfl : b = b' := hb
  rfl

theorem writeVarintAux_length_le (fuel n : Nat) : (writeVarintAux fuel n).length ≤ fuel + 1 := by
  induction fuel generalizing n with
  | zero => exact le_rfl
  | succ fuel ih =>
    rw [writeVarintAux]
    split_ifs
    · simpa using ih _
    · simp

theorem length_hashingCodec_write (b : Block) (root : Hash) :
    (hashingCodec.write (b.hashingFields root)).length < 2 ^ 64 := by
  have hvarint (n : Nat) : (writeVarint n).length ≤ 10 := writeVarintAux_length_le 9 n
  have hnonce : (if b.majorVersion ≤ powBlockMajorVersion then
      encodeLE 4 b.nonce.toNat else []).length ≤ 4 := by
    split <;> simp
  have hsigner : (if dposBlockMajorVersion ≤ b.majorVersion then
      varint16.write b.signingDelegateId ++ b.dposSig.bytes else []).length ≤ 74 := by
    split
    · rw [List.length_append, b.dposSig.size_eq]
      exact Nat.add_le_add (hvarint b.signingDelegateId.toNat) le_rfl
    · simp
  have hmajor := hvarint b.majorVersion.toNat
  have hminor := hvarint b.minorVersion.toNat
  have htime := hvarint b.timestamp.toNat
  have hcount := hvarint (b.txHashes.length + 1)
  have hprev := b.prevId.size_eq
  have hroot := root.size_eq
  simp only [hashingCodec_write, List.length_append]
  omega

theorem string_inj {bl bl' : Bytes} (hbl : bl.length < 2 ^ 64) (hbl' : bl'.length < 2 ^ 64)
    (h : writeVarint bl.length ++ bl = writeVarint bl'.length ++ bl') : bl = bl' :=
  Codec.string.write_inj ⟨hbl, rfl⟩ ⟨hbl', rfl⟩ h

theorem sameIdentified_of_fields {root root' : Hash}
    (h : b.hashingFields root = b'.hashingFields root') :
    root = root' ∧ b.txHashes.length = b'.txHashes.length ∧
      (getTransactionHash crypto b.minerTx = getTransactionHash crypto b'.minerTx →
        b.txHashes = b'.txHashes → SameIdentified crypto b b') := by
  simp only [Block.hashingFields, Prod.mk.injEq] at h
  obtain ⟨hmajor, hminor, htime, hprev, hnonce, hroot, hcount, hsigner⟩ := h
  refine ⟨hroot, by omega, fun hcoinbase htxs =>
    ⟨hmajor, hminor, htime, hprev, fun hpow => ?_, hcoinbase, htxs, fun hpos => ?_⟩⟩
  · rw [← hmajor, if_pos (of_decide_eq_true hpow), if_pos (of_decide_eq_true hpow)] at hnonce
    exact (List.cons.inj hnonce).1
  · rw [← hmajor, if_pos (of_decide_eq_true hpos), if_pos (of_decide_eq_true hpos)] at hsigner
    exact Prod.mk.inj (List.cons.inj hsigner).1

/-- Blocks with the same id are the same in all that is hashed, or two strings
hashed for them collide. -/
theorem sameIdentified_or_collision {id : Hash} (h : getBlockHash crypto b = some id)
    (h' : getBlockHash crypto b' = some id) (hcount : b.txHashes.length + 1 < 2 ^ 64)
    (hcount' : b'.txHashes.length + 1 < 2 ^ 64) :
    SameIdentified crypto b b' ∨ ∃ x ∈ hashedStrings crypto b, ∃ y ∈ hashedStrings crypto b',
      x ≠ y ∧ crypto.cnFastHash x = crypto.cnFastHash y := by
  by_cases hcollision : ∃ x ∈ hashedStrings crypto b, ∃ y ∈ hashedStrings crypto b',
      x ≠ y ∧ crypto.cnFastHash x = crypto.cnFastHash y
  · exact .inr hcollision
  push Not at hcollision
  have hinj : ∀ x ∈ hashedStrings crypto b, ∀ y ∈ hashedStrings crypto b',
      crypto.cnFastHash x = crypto.cnFastHash y → x = y :=
    fun x hx y hy heq => by_contra fun hne => hcollision x hx y hy hne heq
  obtain ⟨bl, hbl, rfl⟩ := Option.map_eq_some_iff.mp h
  obtain ⟨bl', hbl', hid⟩ := Option.map_eq_some_iff.mp h'
  obtain ⟨coinbase, hcoinbase, hversion, rfl⟩ := getBlockHashingBlob_eq_some hbl
  obtain ⟨coinbase', hcoinbase', hversion', rfl⟩ := getBlockHashingBlob_eq_some hbl'
  have hblob := hinj _ (by simp [hashedStrings, hbl]) _ (by simp [hashedStrings, hbl']) hid.symm
  have hfields := hashingCodec.write_inj (hashingCodec_valid _ hversion hcount)
    (hashingCodec_valid _ hversion' hcount')
    (string_inj (length_hashingCodec_write _ _) (length_hashingCodec_write _ _) hblob)
  obtain ⟨hroot, hlength, hsame⟩ := sameIdentified_of_fields hfields
  have hleaves : coinbase :: b.txHashes = coinbase' :: b'.txHashes := by
    refine treeHash_inj (by simpa using hlength) (fun p hp q hq heq => ?_) hroot
    refine blob_append_inj (hinj _ ?_ _ ?_ heq)
    · exact List.mem_append_right _ (List.mem_map.mpr ⟨p, by simpa [hcoinbase] using hp, rfl⟩)
    · exact List.mem_append_right _ (List.mem_map.mpr ⟨q, by simpa [hcoinbase'] using hq, rfl⟩)
  obtain ⟨rfl, htxs⟩ := List.cons.inj hleaves
  exact .inl (hsame (hcoinbase.trans hcoinbase'.symm) htxs)

end BlockId

/-- The nonce of a delegate block is not part of its id. -/
theorem sameIdentified_or_collision_of_sampleNonceBlock :
    ∃ id, getBlockHash sampleCrypto (sampleNonceBlock 0) = some id ∧
      getBlockHash sampleCrypto (sampleNonceBlock 5) = some id ∧
      (SameIdentified sampleCrypto (sampleNonceBlock 0) (sampleNonceBlock 5) ∨
        ∃ x ∈ hashedStrings sampleCrypto (sampleNonceBlock 0),
          ∃ y ∈ hashedStrings sampleCrypto (sampleNonceBlock 5),
            x ≠ y ∧ sampleCrypto.cnFastHash x = sampleCrypto.cnFastHash y) := by
  have hsome : (getBlockHash sampleCrypto (sampleNonceBlock 0)).isSome = true := by decide +kernel
  have heq : getBlockHash sampleCrypto (sampleNonceBlock 5) =
      getBlockHash sampleCrypto (sampleNonceBlock 0) := by decide +kernel
  obtain ⟨id, hid⟩ := Option.isSome_iff_exists.mp hsome
  exact ⟨id, hid, heq.trans hid,
    sameIdentified_or_collision hid (heq.trans hid) (by decide) (by decide)⟩

end Pebblecoin
