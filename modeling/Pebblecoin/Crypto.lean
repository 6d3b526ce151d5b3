import Pebblecoin.Basic

/-!
The cryptographic primitives the program calls.  Nothing is assumed about them
here; a statement that needs a property of one of them takes it as a hypothesis.
-/

namespace Pebblecoin

open Wire

structure Crypto where
  cnFastHash : Bytes → Hash
  checkKey : PublicKey → Bool
  checkSignature : Hash → PublicKey → Signature → Bool
  checkRingSignature : Hash → KeyImage → List PublicKey → List Signature → Bool
  /-- The proof-of-work hash of a block's hashing blob; none if boulderhash is disabled. -/
  boulderhash : (version : Nat) → Bytes → Option Hash
  /-- The base58 text of an address. -/
  addressAsString : AccountPublicAddress → Bytes

/-- An instance to evaluate the model with: every check passes, the hash reads
the bytes as digits in base 257 and the proof-of-work hash is zero. -/
def sampleCrypto : Crypto where
  cnFastHash bs := Blob.ofNat 32 (bs.foldl (fun acc b => (acc * 257 + b.toNat + 1) % 2 ^ 256) 0)
  checkKey _ := true
  checkSignature _ _ _ := true
  checkRingSignature _ _ _ _ := true
  boulderhash _ _ := some nullHash
  addressAsString addr := addr.spendPublicKey.bytes

end Pebblecoin
