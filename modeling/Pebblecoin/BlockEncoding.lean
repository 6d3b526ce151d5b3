import Pebblecoin.Amounts
import Pebblecoin.TransactionEncoding

/-!
Block headers, the tree hash over a block's transactions and the block id.
-/

namespace Pebblecoin

open Wire Serialization

def isPowBlock (b : Block) : Bool := b.majorVersion ≤ powBlockMajorVersion
def isPosBlock (b : Block) : Bool := dposBlockMajorVersion ≤ b.majorVersion

theorem isPowBlock_eq_not_isPosBlock (b : Block) : isPowBlock b = !isPosBlock b := by
  rw [isPowBlock, isPosBlock, ← decide_not]
  congr 1
  simp only [powBlockMajorVersion, dposBlockMajorVersion, UInt8.le_iff_toNat_le, eq_iff_iff]
  change b.majorVersion.toNat ≤ 1 ↔ ¬ 2 ≤ b.majorVersion.toNat
  omega

/-- The nonce belongs to proof-of-work blocks only. -/
def serializeBlockHeader (b : BlockHeader) : Option Bytes :=
  if b.majorVersion ≤ currentBlockMajorVersion then
    some (varint8.write b.majorVersion ++ varint8.write b.minorVersion ++
      varint64.write b.timestamp ++ b.prevId.bytes ++
      if b.majorVersion ≤ powBlockMajorVersion then Codec.encodeLE 4 b.nonce.toNat else [])
  else none

section Hashes

variable (crypto : Crypto)

def hashPair (a b : Hash) : Hash :=
  crypto.cnFastHash (a.bytes ++ b.bytes)

/-- Replace neighbouring hashes by the hash of the pair. -/
def hashPairs : List Hash → List Hash
  | a :: b :: rest => hashPair crypto a b :: hashPairs rest
  | l => l

/-- Halve the row until two hashes are left. -/
def treeHashRows : (rows : Nat) → List Hash → Hash
  | 0, l => hashPair crypto (l.getD 0 nullHash) (l.getD 1 nullHash)
  | rows + 1, l => treeHashRows rows (hashPairs crypto l)

/-- The first row is shortened to a power of two by pairing up its tail. -/
def treeHash (hashes : List Hash) : Hash :=
  match hashes with
  | [] => nullHash
  | [h] => h
  | [a, b] => hashPair crypto a b
  | _ =>
    let log := Nat.log2 (hashes.length - 1)
    let single := 2 * 2 ^ log - hashes.length
    treeHashRows crypto (log - 1)
      (hashes.take single ++ hashPairs crypto (hashes.drop single))

def getTxTreeHash (b : Block) : Option Hash :=
  (getTransactionHash crypto b.minerTx).map fun h => treeHash crypto (h :: b.txHashes)

def getBlockHashingBlob (b : Block) (forDposSig : Bool) : Option Bytes := do
  let header ← serializeBlockHeader b.toBlockHeader
  let treeRootHash ← getTxTreeHash crypto b
  let count := writeVarint (b.txHashes.length + 1)
  let signer :=
    if isPosBlock b then
      varint16.write b.signingDelegateId ++ if forDposSig then [] else b.dposSig.bytes
    else []
  some (header ++ treeRootHash.bytes ++ count ++ signer)

/-- The hashing blob is hashed as a string, with its length in front. -/
def getBlockHash (b : Block) : Option Hash :=
  (getBlockHashingBlob crypto b false).map fun bl =>
    crypto.cnFastHash (writeVarint bl.length ++ bl)

def getBlockPrefixHash (b : Block) : Option Hash :=
  (getBlockHashingBlob crypto b true).map fun bl =>
    crypto.cnFastHash (writeVarint bl.length ++ bl)

def checkDposBlockSig (b : Block) (delegateAddr : AccountPublicAddress) : Bool :=
  isPosBlock b && (getBlockPrefixHash crypto b).any fun prefixHash =>
    crypto.checkSignature prefixHash delegateAddr.spendPublicKey b.dposSig

end Hashes

theorem getTransactionHash_of_getBlockHash {crypto : Crypto} {b : Block} {id : Hash}
    (h : getBlockHash crypto b = some id) :
    ∃ hash, getTransactionHash crypto b.minerTx = some hash := by
  obtain ⟨blob, hblob, -⟩ := Option.map_eq_some_iff.mp h
  obtain ⟨header, -, hrest⟩ := Option.bind_eq_some_iff.mp hblob
  obtain ⟨root, hroot, -⟩ := Option.bind_eq_some_iff.mp hrest
  obtain ⟨hash, hhash, -⟩ := Option.map_eq_some_iff.mp hroot
  exact ⟨hash, hhash⟩

end Pebblecoin
