import Pebblecoin.Containers.OrdMap
import Pebblecoin.Wire.Varint

/-!
The data types of transactions and blocks.
-/

namespace Pebblecoin

open Containers Wire

/-- A byte string of fixed length. -/
structure Blob (n : Nat) where
  bytes : Bytes
  size_eq : bytes.length = n
deriving DecidableEq

namespace Blob

/-- The low `n` bytes of a number, lowest byte first. -/
def ofNat (n value : Nat) : Blob n :=
  ⟨(List.range n).map fun i => UInt8.ofNat (value / 256 ^ i), by simp⟩

def null (n : Nat) : Blob n :=
  ⟨List.replicate n 0, by simp⟩

end Blob

abbrev Hash := Blob 32
abbrev PublicKey := Blob 32
abbrev KeyImage := Blob 32
abbrev Signature := Blob 64

def nullHash : Hash := Blob.null 32
def nullPkey : PublicKey := Blob.null 32

abbrev DelegateId := UInt16
abbrev DelegateVotes := OrdSet DelegateId

def currencyXpb : UInt64 := 77
def currencyNA : UInt64 := 254
def backedByNA : UInt64 := 255

def vanillaTransactionVersion : UInt64 := 1
def dposTransactionVersion : UInt64 := 2
def currencyTransactionVersion : UInt64 := 3
def contractTransactionVersion : UInt64 := 4
def currentTransactionVersion : UInt64 := dposTransactionVersion

inductive CoinContractType where
  | notContract
  | backingCoin
  | contractCoin
  | contractTypeNA
deriving DecidableEq, Repr

structure CoinType where
  currency : UInt64
  contractType : CoinContractType
  backedByCurrency : UInt64
deriving DecidableEq, Repr

namespace CoinType

def minimumTxVersion (ct : CoinType) : UInt64 :=
  if ct.contractType ≠ .notContract ∨ ct.backedByCurrency ≠ backedByNA then
    contractTransactionVersion
  else if ct.currency ≠ currencyXpb then currencyTransactionVersion
  else vanillaTransactionVersion

def isValidTxVersion (ct : CoinType) (version : UInt64) : Bool :=
  ct.minimumTxVersion ≤ version

end CoinType

def cpXpb : CoinType := ⟨currencyXpb, .notContract, backedByNA⟩
def cpNA : CoinType := ⟨currencyNA, .contractTypeNA, backedByNA⟩

structure TxoutToScript where
  keys : List PublicKey
  script : Bytes
deriving DecidableEq

inductive TxoutTarget where
  | toScript (out : TxoutToScript)
  | toScripthash (hash : Hash)
  | toKey (key : PublicKey)
deriving DecidableEq

structure TxOut where
  amount : UInt64
  target : TxoutTarget
deriving DecidableEq

structure AccountPublicAddress where
  spendPublicKey : PublicKey
  viewPublicKey : PublicKey
deriving DecidableEq

structure TxinToScript where
  prev : Hash
  prevout : UInt64
  sigset : Bytes
deriving DecidableEq

structure TxinToScripthash where
  prev : Hash
  prevout : UInt64
  script : TxoutToScript
  sigset : Bytes
deriving DecidableEq

structure TxinToKey where
  amount : UInt64
  keyOffsets : List UInt64
  kImage : KeyImage
deriving DecidableEq

structure TxinMint where
  currency : UInt64
  description : Bytes
  decimals : UInt64
  amount : UInt64
  remintKey : PublicKey
deriving DecidableEq

structure TxinRemint where
  currency : UInt64
  amount : UInt64
  newRemintKey : PublicKey
  sig : Signature
deriving DecidableEq

structure TxinCreateContract where
  contract : UInt64
  description : Bytes
  gradingKey : PublicKey
  feeScale : UInt32
  expiryBlock : UInt64
  defaultGrade : UInt32
deriving DecidableEq

structure TxinMintContract where
  contract : UInt64
  backedByCurrency : UInt64
  amount : UInt64
deriving DecidableEq

structure TxinGradeContract where
  contract : UInt64
  grade : UInt32
  feeAmounts : OrdMap UInt64 UInt64
  sig : Signature
deriving DecidableEq

structure TxinResolveBcCoins where
  contract : UInt64
  isBackingCoins : UInt8
  backingCurrency : UInt64
  sourceAmount : UInt64
  gradedAmount : UInt64
deriving DecidableEq

structure TxinFuseBcCoins where
  contract : UInt64
  backingCurrency : UInt64
  amount : UInt64
deriving DecidableEq

structure TxinRegisterDelegate where
  delegateId : DelegateId
  registrationFee : UInt64
  delegateAddress : AccountPublicAddress
deriving DecidableEq

structure TxinVote where
  ink : TxinToKey
  seq : UInt16
  votes : DelegateVotes
deriving DecidableEq

inductive TxIn where
  | gen (height : UInt64)
  | toScript (inp : TxinToScript)
  | toScripthash (inp : TxinToScripthash)
  | toKey (inp : TxinToKey)
  | mint (inp : TxinMint)
  | remint (inp : TxinRemint)
  | createContract (inp : TxinCreateContract)
  | mintContract (inp : TxinMintContract)
  | gradeContract (inp : TxinGradeContract)
  | resolveBcCoins (inp : TxinResolveBcCoins)
  | fuseBcCoins (inp : TxinFuseBcCoins)
  | registerDelegate (inp : TxinRegisterDelegate)
  | vote (inp : TxinVote)
deriving DecidableEq

namespace TxIn

/-- The version 666 stands for "no version allows it". -/
def minimumTxVersion : TxIn → UInt64
  | gen _ | toKey _ => vanillaTransactionVersion
  | mint _ | remint _ => currencyTransactionVersion
  | createContract _ | mintContract _ | gradeContract _ | resolveBcCoins _ | fuseBcCoins _ =>
    contractTransactionVersion
  | registerDelegate _ | vote _ => dposTransactionVersion
  | toScript _ | toScripthash _ => 666

def signatureSize : TxIn → Nat
  | toKey inp => inp.keyOffsets.length
  | vote inp => inp.ink.keyOffsets.length
  | _ => 0

end TxIn

def TxOut.minimumTxVersion (out : TxOut) : UInt64 :=
  match out.target with
  | .toKey _ => vanillaTransactionVersion
  | _ => 666

structure TransactionPrefix where
  version : UInt64
  unlockTime : UInt64
  extra : Bytes
  vin : List TxIn
  vout : List TxOut
  vinCoinTypes : List CoinType
  voutCoinTypes : List CoinType
deriving DecidableEq

namespace TransactionPrefix

def hasValidCoinTypes (tx : TransactionPrefix) : Bool :=
  tx.vin.length = tx.vinCoinTypes.length && tx.vout.length = tx.voutCoinTypes.length &&
    tx.vinCoinTypes.all (·.isValidTxVersion tx.version) &&
    tx.voutCoinTypes.all (·.isValidTxVersion tx.version)

def hasValidInOutTypes (tx : TransactionPrefix) : Bool :=
  tx.vin.all (·.minimumTxVersion ≤ tx.version) && tx.vout.all (·.minimumTxVersion ≤ tx.version)

end TransactionPrefix

structure Transaction extends TransactionPrefix where
  signatures : List (List Signature)
deriving DecidableEq

def powBlockMajorVersion : UInt8 := 1
def dposBlockMajorVersion : UInt8 := 2
def currentBlockMajorVersion : UInt8 := dposBlockMajorVersion

structure BlockHeader where
  majorVersion : UInt8
  minorVersion : UInt8
  timestamp : UInt64
  prevId : Hash
  nonce : UInt32
deriving DecidableEq

structure Block extends BlockHeader where
  minerTx : Transaction
  txHashes : List Hash
  signingDelegateId : DelegateId
  dposSig : Signature
deriving DecidableEq

end Pebblecoin
