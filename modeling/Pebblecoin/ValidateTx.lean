import Pebblecoin.ContractGrading
import Pebblecoin.Storage

/-!
The checks of a transaction's inputs against the current state of the storage.
-/

namespace Pebblecoin

open Wire Containers

def currencyDescriptionMaxSize : Nat := 256
def contractDescriptionMaxSize : Nat := 1024
def lockedTxAllowedDeltaBlocks : Nat := 1

/-- The part of an input that names outputs. -/
def TxIn.ink : TxIn → Option TxinToKey
  | .toKey inp => some inp
  | .vote inp => some inp.ink
  | _ => none

/-- Running sums, in machine arithmetic. -/
def relativeOutputOffsetsToAbsolute (offsets : List UInt64) : List UInt64 :=
  go 0 offsets
where
  go (last : UInt64) : List UInt64 → List UInt64
    | [] => []
    | offset :: rest => (last + offset) :: go (last + offset) rest

namespace Storage

section Checks

variable (env : Env) (now : UInt64) (s : Storage)

def isTxSpendtimeUnlocked (unlockTime : UInt64) : Bool :=
  if unlockTime.toNat < cryptonoteMaxBlockNumber then
    unlockTime.toNat ≤ s.getCurrentBlockchainHeight + lockedTxAllowedDeltaBlocks - 1
  else
    unlockTime ≤ now + UInt64.ofNat (env.config.difficultyTarget * lockedTxAllowedDeltaBlocks)

/-- The key of one referenced output, if the output may be spent. -/
def handleOutput (type : CoinType) (out : Hash × Nat) : Option PublicKey := do
  let entry ← s.ledger.transactions out.1
  let txOut ← entry.tx.vout[out.2]?
  if entry.tx.outCp out.2 ≠ type then none
  else if s.isTxSpendtimeUnlocked env now entry.tx.unlockTime then
    match txOut.target with
    | .toKey key => some key
    | _ => none
  else none

def scanOutputkeysForIndexes (type : CoinType) (inp : TxinToKey) : Option (List PublicKey) :=
  (relativeOutputOffsetsToAbsolute inp.keyOffsets).mapM fun i => do
    let out ← (s.ledger.outputs (type, inp.amount))[i.toNat]?
    s.handleOutput env now type out

/-- The flag that would skip ring signatures inside the checkpoint zone is never
set, so they are always checked. -/
def checkTxInToKey (tx : Transaction) (i : Nat) (inp : TxinToKey) : Bool :=
  !inp.keyOffsets.isEmpty && decide (i < tx.signatures.length) &&
    !s.ledger.spentKeys inp.kImage &&
    match s.scanOutputkeysForIndexes env now (tx.inCp i) inp with
    | none => false
    | some keys =>
      decide (inp.keyOffsets.length = keys.length) &&
        decide ((tx.signatures.getD i []).length = keys.length) &&
        (getTransactionPrefixHash env.crypto tx.toTransactionPrefix).any fun prefixHash =>
          env.crypto.checkRingSignature prefixHash inp.kImage keys (tx.signatures.getD i [])

def checkDescription (maxSize : Nat) (description : Bytes) : Bool :=
  description.isEmpty ||
    (decide (description.length ≤ maxSize) && !s.ledger.usedCurrencyDescriptions description)

def checkTxInMint (tx : Transaction) (i : Nat) (inp : TxinMint) : Bool :=
  decide (256 ≤ inp.currency) &&
    decide (tx.inCp i = ⟨inp.currency, .notContract, backedByNA⟩) &&
    (decide (inp.remintKey = nullPkey) || env.crypto.checkKey inp.remintKey) &&
    decide (0 < inp.amount) &&
    (s.ledger.currencies inp.currency).isNone && (s.ledger.contracts inp.currency).isNone &&
    s.checkDescription currencyDescriptionMaxSize inp.description

def checkTxInRemint (tx : Transaction) (i : Nat) (inp : TxinRemint) : Bool :=
  decide (256 ≤ inp.currency) &&
    decide (tx.inCp i = ⟨inp.currency, .notContract, backedByNA⟩) &&
    (decide (inp.newRemintKey = nullPkey) || env.crypto.checkKey inp.newRemintKey) &&
    decide (0 < inp.amount) &&
    match s.ledger.currencies inp.currency with
    | none => false
    | some ci =>
      decide (ci.remintKey ≠ nullPkey) &&
        !addAmountWouldOverflow ci.totalAmountMinted inp.amount &&
        env.crypto.checkSignature (inp.getPrefixHash env.crypto) ci.remintKey inp.sig

def checkTxInCreateContract (tx : Transaction) (i : Nat) (inp : TxinCreateContract) : Bool :=
  decide (256 ≤ inp.contract) && decide (tx.inCp i = cpNA) &&
    (decide (inp.gradingKey ≠ nullPkey) && env.crypto.checkKey inp.gradingKey) &&
    decide (s.getCurrentBlockchainHeight < inp.expiryBlock.toNat) &&
    decide (inp.expiryBlock.toNat < cryptonoteMaxBlockNumber) &&
    decide (inp.feeScale ≤ gradeScaleMax) && decide (inp.defaultGrade ≤ gradeScaleMax) &&
    (s.ledger.currencies inp.contract).isNone && (s.ledger.contracts inp.contract).isNone &&
    s.checkDescription contractDescriptionMaxSize inp.description

def checkTxInMintContract (tx : Transaction) (i : Nat) (inp : TxinMintContract) : Bool :=
  decide (tx.inCp i = cpNA) && decide (256 ≤ inp.contract) &&
    match s.ledger.contracts inp.contract with
    | none => false
    | some ci =>
      !ci.isGraded && decide (s.getCurrentBlockchainHeight < ci.expiryBlock.toNat) &&
        !addAmountWouldOverflow (ci.totalAmountMinted inp.backedByCurrency) inp.amount &&
        (decide (inp.backedByCurrency = currencyXpb) ||
          ((s.ledger.contracts inp.backedByCurrency).isNone &&
            (s.ledger.currencies inp.backedByCurrency).isSome))

def checkTxInGradeContract (tx : Transaction) (i : Nat) (inp : TxinGradeContract) : Bool :=
  decide (tx.inCp i = cpNA) && decide (256 ≤ inp.contract) &&
    decide (inp.grade ≤ gradeScaleMax) &&
    match s.ledger.contracts inp.contract with
    | none => false
    | some ci =>
      (inp.feeAmounts.toList.all fun item =>
        decide (item.1 = currencyXpb) || (s.ledger.currencies item.1).isSome) &&
        !ci.isGraded && decide (s.getCurrentBlockchainHeight < ci.expiryBlock.toNat) &&
        (inp.feeAmounts.toList.all fun item =>
          decide (item.2 ≠ 0) &&
            decide (item.2 = calculateTotalFee (ci.totalAmountMinted item.1) ci.feeScale)) &&
        env.crypto.checkSignature (inp.getPrefixHash env.crypto) ci.gradingKey inp.sig

/-- The grade and the fee scale to resolve coins with, once the contract is
graded or has expired. -/
def getGradeFee (ci : ContractInfo) (currentBlockchainHeight : Nat) : Option (UInt32 × UInt32) :=
  if ci.isGraded then some (ci.grade, ci.feeScale)
  else if currentBlockchainHeight < ci.expiryBlock.toNat then none
  else some (ci.defaultGrade, 0)

def checkTxInResolveBcCoins (tx : Transaction) (i : Nat) (inp : TxinResolveBcCoins) : Bool :=
  decide (tx.inCp i = ⟨inp.backingCurrency, .notContract, backedByNA⟩) &&
    decide (256 ≤ inp.contract) &&
    match s.ledger.contracts inp.contract with
    | none => false
    | some ci =>
      (decide (inp.isBackingCoins = 0) || decide (inp.isBackingCoins = 1)) &&
        match getGradeFee ci s.getCurrentBlockchainHeight with
        | none => false
        | some (grade, feeScale) =>
          let correctAmount :=
            if inp.isBackingCoins ≠ 0 then gradeBackingAmount inp.sourceAmount grade feeScale
            else gradeContractAmount inp.sourceAmount grade feeScale
          decide (inp.gradedAmount = correctAmount) && decide (0 < correctAmount)

def checkTxInFuseBcCoins (tx : Transaction) (i : Nat) (inp : TxinFuseBcCoins) : Bool :=
  decide (tx.inCp i = ⟨inp.backingCurrency, .notContract, backedByNA⟩) &&
    decide (256 ≤ inp.contract) &&
    match s.ledger.contracts inp.contract with
    | none => false
    | some ci =>
      !ci.isGraded && decide (s.getCurrentBlockchainHeight < ci.expiryBlock.toNat) &&
        !subAmountWouldUnderflow (ci.totalAmountMinted inp.backingCurrency) inp.amount

/-- While a block is popped it still counts as the last entry, so the fee is
taken for its own height. -/
def registrationForHeight : Nat :=
  if s.poppingBlock then s.entries.length - 1 else s.entries.length

def checkTxInRegisterDelegate (inp : TxinRegisterDelegate) : Except Thrown Bool :=
  if s.getCurrentBlockchainHeight < env.config.dposRegistrationStartBlock then .ok false
  else if inp.delegateId = 0 then .ok false
  else if s.ledger.delegates.contains inp.delegateId then .ok false
  else if s.ledger.delegates.toList.any fun item =>
      decide (item.2.publicAddress = inp.delegateAddress) then .ok false
  else do
    let average ← s.averagePastBlockFees s.registrationForHeight
    let requiredFee := max (average * dposRegistrationFeeMultiple) dposMinRegistrationFee
    if inp.registrationFee < requiredFee then .ok false
    else .ok (env.crypto.checkKey inp.delegateAddress.spendPublicKey &&
      env.crypto.checkKey inp.delegateAddress.viewPublicKey)

def checkTxInVote (tx : Transaction) (i : Nat) (inp : TxinVote) : Bool :=
  decide (env.config.dposRegistrationStartBlock ≤ s.getCurrentBlockchainHeight) &&
    decide (tx.inCp i = cpXpb) &&
    decide (inp.votes.elems.length ≤ env.config.dposNumDelegates) &&
    !s.ledger.spentKeys inp.ink.kImage &&
    decide (inp.seq.toNat = (s.ledger.voteHistories inp.ink.kImage).length) &&
    (inp.votes.elems.all fun id =>
      match s.ledger.delegates.find? id with
      | none => false
      | some info => !addAmountWouldOverflow info.totalVotes inp.ink.amount) &&
    s.checkTxInToKey env now tx i inp.ink

def checkTxInput (tx : Transaction) (i : Nat) : TxIn → Except Thrown Bool
  | .toKey inp => .ok (s.checkTxInToKey env now tx i inp)
  | .gen _ => .ok true
  | .mint inp => .ok (s.checkTxInMint env tx i inp)
  | .remint inp => .ok (s.checkTxInRemint env tx i inp)
  | .createContract inp => .ok (s.checkTxInCreateContract env tx i inp)
  | .mintContract inp => .ok (s.checkTxInMintContract tx i inp)
  | .gradeContract inp => .ok (s.checkTxInGradeContract env tx i inp)
  | .resolveBcCoins inp => .ok (s.checkTxInResolveBcCoins tx i inp)
  | .fuseBcCoins inp => .ok (s.checkTxInFuseBcCoins tx i inp)
  | .registerDelegate inp => s.checkTxInRegisterDelegate env inp
  | .vote inp => .ok (s.checkTxInVote env now tx i inp)
  | .toScript _ | .toScripthash _ => .ok false

/-- The inputs from index `i` on; the first that fails ends the check. -/
def checkTxInputsFrom (tx : Transaction) : (i : Nat) → List TxIn → Except Thrown Bool
  | _, [] => .ok true
  | i, inp :: ins => do
    if ← s.checkTxInput env now tx i inp then checkTxInputsFrom tx (i + 1) ins else .ok false

/-- The prefix is hashed before any input is looked at. -/
def checkTxInputs (tx : Transaction) : Except Thrown Bool :=
  match getTransactionPrefixHash env.crypto tx.toTransactionPrefix with
  | none => .error .prefixNotSerializable
  | some _ => s.checkTxInputsFrom env now tx 0 tx.vin

def checkTxOutputs (tx : Transaction) : Bool :=
  tx.vout.all fun out =>
    match out.target with
    | .toKey _ => true
    | _ => false

def validateTx (tx : Transaction) (isMinerTx : Bool) : Except Thrown Bool :=
  if !isMinerTx && tx.checkInputsOutputs.isNone then .ok false
  else do
    if ← s.checkTxInputs env now tx then .ok (checkTxOutputs tx) else .ok false

/-!
While the inputs are checked, the height of the block of the last output that each
of them refers to is collected.  The collected height is left behind by a check
that fails as well.
-/

def maxHeightOfOutputkeys (type : CoinType) (inp : TxinToKey) (height : Nat) : Nat :=
  match s.scanOutputkeysForIndexes env now type inp with
  | none => height
  | some _ =>
    match (relativeOutputOffsetsToAbsolute inp.keyOffsets).getLast?.bind fun i => do
        let out ← (s.ledger.outputs (type, inp.amount))[i.toNat]?
        s.ledger.transactions out.1 with
    | none => height
    | some entry => max height entry.keeperBlockHeight

def maxHeightOfToKey (tx : Transaction) (i : Nat) (inp : TxinToKey) (height : Nat) : Nat :=
  if inp.keyOffsets.isEmpty || decide (tx.signatures.length ≤ i) ||
      s.ledger.spentKeys inp.kImage then height
  else s.maxHeightOfOutputkeys env now (tx.inCp i) inp height

def maxHeightOfVote (tx : Transaction) (i : Nat) (inp : TxinVote) (height : Nat) : Nat :=
  if decide (env.config.dposRegistrationStartBlock ≤ s.getCurrentBlockchainHeight) &&
      decide (tx.inCp i = cpXpb) &&
      decide (inp.votes.elems.length ≤ env.config.dposNumDelegates) &&
      !s.ledger.spentKeys inp.ink.kImage &&
      decide (inp.seq.toNat = (s.ledger.voteHistories inp.ink.kImage).length) &&
      (inp.votes.elems.all fun id =>
        match s.ledger.delegates.find? id with
        | none => false
        | some info => !addAmountWouldOverflow info.totalVotes inp.ink.amount) then
    s.maxHeightOfToKey env now tx i inp.ink height
  else height

def maxHeightOfInput (tx : Transaction) (i : Nat) (height : Nat) : TxIn → Nat
  | .toKey inp => s.maxHeightOfToKey env now tx i inp height
  | .vote inp => s.maxHeightOfVote env now tx i inp height
  | _ => height

def maxHeightOfInputsFrom (tx : Transaction) : (i : Nat) → List TxIn → Nat → Nat
  | _, [], height => height
  | i, inp :: ins, height =>
    let height := s.maxHeightOfInput env now tx i height inp
    match s.checkTxInput env now tx i inp with
    | .ok true => maxHeightOfInputsFrom tx (i + 1) ins height
    | _ => height

/-- The height that `validateTx` leaves for a transaction that is not a miner
transaction, if `height` was there before. -/
def maxUsedBlockHeight (tx : Transaction) (height : Nat) : Nat :=
  if tx.checkInputsOutputs.isNone then height
  else s.maxHeightOfInputsFrom env now tx 0 tx.vin 0

end Checks

end Storage

end Pebblecoin
