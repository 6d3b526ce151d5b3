import Pebblecoin.TxInputCompatChecker
import Pebblecoin.ValidateTx

/-!
The transaction pool and the way of a received transaction into it.
-/

namespace Pebblecoin

open Control Wire

def defaultFee : UInt64 := 10000000
def cryptonoteCoinbaseBlobReservedSize : UInt64 := 600

def checkInputsTypesSupported (tx : TransactionPrefix) : Bool :=
  tx.vin.all fun
    | .toKey _ | .registerDelegate _ | .vote _ => true
    | _ => false

def checkOutputsTypesSupported (tx : TransactionPrefix) : Bool :=
  tx.vout.all fun out =>
    match out.target with
    | .toKey _ => true
    | _ => false

def checkOutsValid (crypto : Crypto) (tx : TransactionPrefix) : Bool :=
  tx.vout.all fun out =>
    decide (0 < out.amount) &&
      match out.target with
      | .toKey key => crypto.checkKey key
      | _ => false

structure TxVerificationContext where
  shouldBeRelayed : Bool
  verificationFailed : Bool
  verificationImpossible : Bool
  addedToPool : Bool
deriving DecidableEq, Repr

/-- What an input is indexed by in the pool. -/
inductive TxinInfo where
  | invalid
  | noConflict
  | keyImage (k : KeyImage)

def getTxinInfo : TxIn → TxinInfo
  | .toKey inp => .keyImage inp.kImage
  | .gen _ | .toScript _ | .toScripthash _ => .invalid
  | _ => .noConflict

namespace TxMemoryPool

def haveTx (pool : TxMemoryPool) (id : Hash) : Bool :=
  (pool.transactions id).isSome

def addInp (txId : Hash) (keptByBlock : Bool) (inp : TxIn) (pool : TxMemoryPool) :
    Bool × TxMemoryPool :=
  match getTxinInfo inp with
  | .invalid => (false, pool)
  | .noConflict => (true, pool)
  | .keyImage k =>
    let infoSet := (pool.txinInfos k).getD ∅
    -- A set that fails a check is not empty, so it was there before the lookup.
    if !keptByBlock && decide (infoSet ≠ ∅) then (false, pool)
    else if txId ∈ infoSet then (false, pool)
    else
      (true, { pool with
        txinInfos := Function.update pool.txinInfos k (some (insert txId infoSet)) })

def removeInp (txId : Hash) (inp : TxIn) (pool : TxMemoryPool) : Bool × TxMemoryPool :=
  match getTxinInfo inp with
  | .invalid => (false, pool)
  | .noConflict => (true, pool)
  | .keyImage k =>
    match pool.txinInfos k with
    | none => (false, pool)
    | some infoSet =>
      if txId ∈ infoSet then
        let rest := infoSet.erase txId
        (true, { pool with
          txinInfos :=
            Function.update pool.txinInfos k (if rest = ∅ then none else some rest) })
      else (false, pool)

def checkCanAddInp (pool : TxMemoryPool) (inp : TxIn) : Bool :=
  match getTxinInfo inp with
  | .invalid => false
  | .noConflict => true
  | .keyImage k => (pool.txinInfos k).isNone

def checkCanAddTx (pool : TxMemoryPool) (tx : TransactionPrefix) : Bool :=
  tx.vin.all pool.checkCanAddInp

/-- The infos are looked up under the hash of the transaction, which need not be
the id it was received under. -/
def removeTransactionData (crypto : Crypto) (tx : Transaction) (pool : TxMemoryPool) :
    Bool × TxMemoryPool :=
  allApply (removeInp ((getTransactionHash crypto tx).getD nullHash)) tx.vin pool

def takeTx (crypto : Crypto) (id : Hash) (pool : TxMemoryPool) :
    Option (TxDetails × TxMemoryPool) :=
  (pool.transactions id).map fun details =>
    let rest := (pool.removeTransactionData crypto details.tx).2
    (details, { rest with transactions := Function.update rest.transactions id none })

end TxMemoryPool

namespace Storage

section Pool

variable (env : Env) (now : UInt64)

/-- Enter the transaction under its id, then its inputs. -/
def insertIntoPool (tx : Transaction) (id : Hash) (blobSize : Nat) (fee : UInt64)
    (keptByBlock : Bool) (memory : CheckMemory) (s : Storage) : Bool × Storage :=
  let pool := { s.pool with
    transactions :=
      Function.update s.pool.transactions id (some ⟨tx, blobSize, fee, keptByBlock⟩)
    memory := Function.update s.pool.memory id memory }
  let r := allApply (TxMemoryPool.addInp id keptByBlock) tx.vin pool
  (r.1, { s with pool := r.2 })

/-- What is remembered about a transaction on its way into the pool. -/
def entryMemory (tx : Transaction) (valid : Bool) (s : Storage) : CheckMemory :=
  if valid then
    let height := s.maxUsedBlockHeight env now tx 0
    ⟨height, s.getBlockIdByHeight height, 0, nullHash⟩
  else ⟨0, nullHash, 0, nullHash⟩

def poolAddTx (tx : Transaction) (id : Hash) (blobSize : Nat) (keptByBlock : Bool) (s : Storage) :
    Except Interrupted (Bool × TxVerificationContext × Storage) :=
  if !checkInputsTypesSupported tx.toTransactionPrefix ||
      !checkOutputsTypesSupported tx.toTransactionPrefix then
    .ok (false, ⟨false, true, false, false⟩, s)
  else
    match tx.checkInputsOutputs with
    | none => .ok (false, ⟨false, true, false, false⟩, s)
    | some fee =>
      if !keptByBlock && decide (fee < defaultFee) then
        .ok (true, ⟨false, false, false, false⟩, s)
      else if !keptByBlock && !s.pool.checkCanAddTx tx.toTransactionPrefix then
        .ok (false, ⟨false, true, false, false⟩, s)
      else do
        let valid ← s.reading (s.validateTx env now tx false)
        if !valid && !keptByBlock then .ok (false, ⟨false, true, false, false⟩, s)
        else if s.pool.haveTx id then .ok (false, ⟨false, false, false, false⟩, s)
        else
          let (added, s') := insertIntoPool tx id blobSize fee keptByBlock
            (s.entryMemory env now tx valid) s
          .ok (added,
            ⟨valid && decide (defaultFee ≤ fee), !added, !valid, true⟩, s')

/-- A transaction goes back to the pool under its own hash. -/
def returnToPool (tx : Transaction) (s : Storage) : Except Interrupted (Bool × Storage) :=
  match serializeTransaction tx with
  | none => .ok (false, s)
  | some blob => do
    let (added, _, s') ← s.poolAddTx env now tx (env.crypto.cnFastHash blob) blob.length true
    .ok (added, s')

def checkTxSemantic (tx : Transaction) (keptByBlock : Bool) (s : Storage) : Bool :=
  match serializeTransaction tx with
  | none => false
  | some blob =>
    !tx.vin.isEmpty && checkInputsTypesSupported tx.toTransactionPrefix &&
      checkOutputsTypesSupported tx.toTransactionPrefix &&
      checkOutsValid env.crypto tx.toTransactionPrefix && tx.checkInputsOutputs.isSome &&
      (keptByBlock || decide (UInt64.ofNat blob.length <
        s.currentBlockCumulSzLimit - cryptonoteCoinbaseBlobReservedSize)) &&
      TxInputCompatChecker.isTxValid tx.toTransactionPrefix

def handleIncomingTx (blob : Bytes) (keptByBlock : Bool) (s : Storage) :
    Except Interrupted (Bool × TxVerificationContext × Storage) :=
  if cryptonoteMaxTxSize < blob.length then .ok (false, ⟨false, true, false, false⟩, s)
  else
    match parseAndValidateTxFromBlob env.crypto blob with
    | none => .ok (false, ⟨false, true, false, false⟩, s)
    | some (tx, txHash, _) =>
      if !s.checkTxSemantic env tx keptByBlock then .ok (false, ⟨false, true, false, false⟩, s)
      else if s.pool.haveTx txHash || s.haveTx txHash then
        .ok (true, ⟨false, false, false, false⟩, s)
      else s.poolAddTx env now tx txHash blob.length keptByBlock

end Pool

end Storage

end Pebblecoin
