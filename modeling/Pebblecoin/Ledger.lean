import Pebblecoin.Amounts
import Pebblecoin.Control.AllApply
import Pebblecoin.Crypto

/-!
The tables that the transactions of the main chain write: what one input adds
and what its removal takes back.
-/

namespace Pebblecoin

open Containers Control Wire

structure TransactionChainEntry where
  tx : Transaction
  keeperBlockHeight : Nat
  blobSize : Nat
  globalOutputIndexes : List Nat
deriving DecidableEq

structure CurrencyInfo where
  currency : UInt64
  description : Bytes
  decimals : UInt64
  totalAmountMinted : UInt64
  remintKeyHistory : List PublicKey
deriving DecidableEq

def CurrencyInfo.remintKey (ci : CurrencyInfo) : PublicKey :=
  ci.remintKeyHistory.getLastD nullPkey

structure ContractInfo where
  contract : UInt64
  description : Bytes
  gradingKey : PublicKey
  feeScale : UInt32
  expiryBlock : UInt64
  defaultGrade : UInt32
  /-- By backing currency; an untouched currency counts zero. -/
  totalAmountMinted : UInt64 → UInt64
  isGraded : Bool
  grade : UInt32

structure DelegateInfo where
  delegateId : DelegateId
  publicAddress : AccountPublicAddress
  addressAsString : Bytes
  totalVotes : UInt64
  processedBlocks : UInt64
  missedBlocks : UInt64
  feesReceived : UInt64
deriving DecidableEq

/-- What the map's index operator creates for a missing key. -/
def DelegateInfo.zero : DelegateInfo where
  delegateId := 0
  publicAddress := ⟨nullPkey, nullPkey⟩
  addressAsString := []
  totalVotes := 0
  processedBlocks := 0
  missedBlocks := 0
  feesReceived := 0

structure VoteInstance where
  votingForHeight : Nat
  expectedVote : UInt64
  votes : OrdMap DelegateId UInt64
deriving DecidableEq

abbrev Delegates := OrdMap DelegateId DelegateInfo

/-- The entry of a delegate, as the index operator sees it. -/
def Delegates.get (ds : Delegates) (id : DelegateId) : DelegateInfo :=
  (ds.find? id).getD DelegateInfo.zero

/-- Change an entry through the index operator, which creates it if missing. -/
def Delegates.modify (ds : Delegates) (id : DelegateId) (f : DelegateInfo → DelegateInfo) :
    Delegates :=
  ds.insert id (f (ds.get id))

/-- The tables that inputs write.  Empty vectors and zero entries that lookups
leave behind are not distinguished from missing ones. -/
structure InputTables where
  spentKeys : KeyImage → Bool
  currencies : UInt64 → Option CurrencyInfo
  contracts : UInt64 → Option ContractInfo
  usedCurrencyDescriptions : Bytes → Bool
  delegates : Delegates
  voteHistories : KeyImage → List VoteInstance

abbrev OutputIndex := CoinType × UInt64 → List (Hash × Nat)

structure Ledger extends InputTables where
  outputs : OutputIndex
  transactions : Hash → Option TransactionChainEntry

def Ledger.empty : Ledger where
  spentKeys _ := false
  outputs _ := []
  transactions _ := none
  currencies _ := none
  contracts _ := none
  usedCurrencyDescriptions _ := false
  delegates := OrdMap.empty
  voteHistories _ := []

def maxVote : UInt64 := 0xffffffffffffffff

def reapplyVote (item : DelegateId × UInt64) (ds : Delegates) : Bool × Delegates :=
  match ds.find? item.1 with
  | none => (false, ds)
  | some info =>
    if addAmountWouldOverflow info.totalVotes item.2 then (false, ds)
    else if info.totalVotes + item.2 ≤ maxVote then
      (true, ds.insert item.1 { info with totalVotes := info.totalVotes + item.2 })
    else (false, ds)

def reapplyVotes (inst : VoteInstance) (ds : Delegates) : Bool × Delegates :=
  allApply reapplyVote inst.votes.toList ds

def applyVote (amount : UInt64) (id : DelegateId) (s : OrdMap DelegateId UInt64 × Delegates) :
    Bool × (OrdMap DelegateId UInt64 × Delegates) :=
  let total := (s.2.get id).totalVotes
  if addAmountWouldOverflow total amount then (false, s)
  else
    let effective := if maxVote < total + amount then maxVote - total else amount
    (true, s.1.insert id effective,
      s.2.modify id fun info => { info with totalVotes := info.totalVotes + effective })

/-- The vote is recorded for the next block's height. -/
def applyVotes (height : Nat) (popping : Bool) (amount : UInt64) (forDelegates : DelegateVotes)
    (ds : Delegates) : Bool × (VoteInstance × Delegates) :=
  if popping then (false, ⟨height, amount, OrdMap.empty⟩, ds)
  else
    let r := allApply (applyVote amount) forDelegates.elems (OrdMap.empty, ds)
    (r.1, ⟨height, amount, r.2.1⟩, r.2.2)

def unapplyVote (expectedVote : UInt64) (enforceEffectiveAmount : Bool)
    (item : DelegateId × UInt64) (ds : Delegates) : Bool × Delegates :=
  match ds.find? item.1 with
  | none => (false, ds)
  | some info =>
    if enforceEffectiveAmount && (expectedVote ≠ 0 && (expectedVote < item.2 ||
        (item.2 < expectedVote && info.totalVotes ≠ maxVote))) then (false, ds)
    else
      match subAmount info.totalVotes item.2 with
      | none => (false, ds)
      | some total => (true, ds.insert item.1 { info with totalVotes := total })

def unapplyVotes (inst : VoteInstance) (enforceEffectiveAmount : Bool) (ds : Delegates) :
    Bool × Delegates :=
  allApply (unapplyVote inst.expectedVote enforceEffectiveAmount) inst.votes.toList.reverse ds

/-- Run a change of the delegate table if the vote history has a last entry. -/
def onLastVote (history : List VoteInstance) (change : VoteInstance → Delegates → Bool × Delegates)
    (ds : Delegates) : Bool × Delegates :=
  match history.getLast? with
  | none => (true, ds)
  | some inst => change inst ds

namespace InputTables

def addToKey (inp : TxinToKey) (l : InputTables) : Bool × InputTables :=
  match onLastVote (l.voteHistories inp.kImage) (unapplyVotes · false) l.delegates with
  | (false, ds) => (false, { l with delegates := ds })
  | (true, ds) =>
    if l.spentKeys inp.kImage then (false, { l with delegates := ds })
    else
      (true, { l with
        delegates := ds
        spentKeys := Function.update l.spentKeys inp.kImage true })

def useDescription (description : Bytes) (l : InputTables) : InputTables :=
  if description = [] then l
  else { l with
    usedCurrencyDescriptions := Function.update l.usedCurrencyDescriptions description true }

def addMint (inp : TxinMint) (l : InputTables) : Bool × InputTables :=
  (true, useDescription inp.description { l with
    currencies := Function.update l.currencies inp.currency
      (some ⟨inp.currency, inp.description, inp.decimals, inp.amount, [inp.remintKey]⟩) })

def addRemint (inp : TxinRemint) (l : InputTables) : Bool × InputTables :=
  let ci := (l.currencies inp.currency).getD ⟨0, [], 0, 0, []⟩
  let ci := { ci with remintKeyHistory := ci.remintKeyHistory ++ [inp.newRemintKey] }
  let store (ci : CurrencyInfo) : InputTables :=
    { l with currencies := Function.update l.currencies inp.currency (some ci) }
  match addAmount ci.totalAmountMinted inp.amount with
  | none => (false, store ci)
  | some total => (true, store { ci with totalAmountMinted := total })

def addCreateContract (inp : TxinCreateContract) (l : InputTables) : Bool × InputTables :=
  (true, useDescription inp.description { l with
    contracts := Function.update l.contracts inp.contract
      (some ⟨inp.contract, inp.description, inp.gradingKey, inp.feeScale, inp.expiryBlock,
        inp.defaultGrade, fun _ => 0, false, 0⟩) })

/-- The contract entry as the index operator sees it. -/
def contractEntry (l : InputTables) (contract : UInt64) : ContractInfo :=
  (l.contracts contract).getD ⟨0, [], nullPkey, 0, 0, 0, fun _ => 0, false, 0⟩

def setContract (l : InputTables) (contract : UInt64) (ci : ContractInfo) : InputTables :=
  { l with contracts := Function.update l.contracts contract (some ci) }

/-- Change the minted total of one backing currency; on failure the index
operator may still have created the contract's entry. -/
def changeMinted (l : InputTables) (contract currency : UInt64) (ci : ContractInfo)
    (total : Option UInt64) : Bool × InputTables :=
  match total with
  | none => (false, l.setContract contract ci)
  | some total =>
    (true, l.setContract contract
      { ci with totalAmountMinted := Function.update ci.totalAmountMinted currency total })

def addMintContract (inp : TxinMintContract) (l : InputTables) : Bool × InputTables :=
  let ci := l.contractEntry inp.contract
  l.changeMinted inp.contract inp.backedByCurrency ci
    (addAmount (ci.totalAmountMinted inp.backedByCurrency) inp.amount)

def addGradeContract (inp : TxinGradeContract) (l : InputTables) : Bool × InputTables :=
  (true, l.setContract inp.contract
    { l.contractEntry inp.contract with isGraded := true, grade := inp.grade })

def addFuseBcCoins (inp : TxinFuseBcCoins) (l : InputTables) : Bool × InputTables :=
  let ci := l.contractEntry inp.contract
  l.changeMinted inp.contract inp.backingCurrency ci
    (subAmount (ci.totalAmountMinted inp.backingCurrency) inp.amount)

def newDelegate (crypto : Crypto) (inp : TxinRegisterDelegate) : DelegateInfo :=
  { DelegateInfo.zero with
    delegateId := inp.delegateId
    publicAddress := inp.delegateAddress
    addressAsString := crypto.addressAsString inp.delegateAddress }

def addRegisterDelegate (crypto : Crypto) (inp : TxinRegisterDelegate) (l : InputTables) :
    Bool × InputTables :=
  match l.delegates.find? inp.delegateId with
  | some _ => (false, l)
  | none =>
    (true, { l with
      delegates := l.delegates.insert inp.delegateId (newDelegate crypto inp) })

def addVote (height : Nat) (popping : Bool) (inp : TxinVote) (l : InputTables) : Bool × InputTables :=
  let ki := inp.ink.kImage
  if l.spentKeys ki then (false, l)
  else
    match onLastVote (l.voteHistories ki) (unapplyVotes · false) l.delegates with
    | (false, ds) => (false, { l with delegates := ds })
    | (true, ds) =>
      match applyVotes height popping inp.ink.amount inp.votes ds with
      | (false, _, ds) => (false, { l with delegates := ds })
      | (true, inst, ds) =>
        (true, { l with
          delegates := ds
          voteHistories := Function.update l.voteHistories ki (l.voteHistories ki ++ [inst]) })

/-- One input is entered; it was checked before. -/
def addInput (crypto : Crypto) (height : Nat) (popping : Bool) :
    TxIn → InputTables → Bool × InputTables
  | .toKey inp => addToKey inp
  | .gen _ => fun l => (true, l)
  | .mint inp => addMint inp
  | .remint inp => addRemint inp
  | .createContract inp => addCreateContract inp
  | .mintContract inp => addMintContract inp
  | .gradeContract inp => addGradeContract inp
  | .resolveBcCoins _ => fun l => (true, l)
  | .fuseBcCoins inp => addFuseBcCoins inp
  | .registerDelegate inp => addRegisterDelegate crypto inp
  | .vote inp => addVote height popping inp
  | .toScript _ | .toScripthash _ => fun l => (false, l)

def purgeToKey (inp : TxinToKey) (l : InputTables) : Bool × InputTables :=
  if l.spentKeys inp.kImage then
    let r := onLastVote (l.voteHistories inp.kImage) reapplyVotes l.delegates
    (r.1, { l with
      spentKeys := Function.update l.spentKeys inp.kImage false
      delegates := r.2 })
  else (false, l)

/-- Give a description free again; an empty one was never taken. -/
def freeDescription (description : Bytes) (l : InputTables) : Option InputTables :=
  if description = [] then some l
  else if l.usedCurrencyDescriptions description then
    some { l with
      usedCurrencyDescriptions := Function.update l.usedCurrencyDescriptions description false }
  else none

def purgeMint (inp : TxinMint) (l : InputTables) : Bool × InputTables :=
  match l.currencies inp.currency with
  | none => (false, l)
  | some ci =>
    if ci.description ≠ inp.description ∨ ci.decimals ≠ inp.decimals ∨
        ci.totalAmountMinted ≠ inp.amount ∨ ci.remintKey ≠ inp.remintKey ∨
        ci.remintKeyHistory.length ≠ 1 then (false, l)
    else
      match freeDescription inp.description l with
      | none => (false, l)
      | some l => (true, { l with currencies := Function.update l.currencies inp.currency none })

def purgeRemint (inp : TxinRemint) (l : InputTables) : Bool × InputTables :=
  match l.currencies inp.currency with
  | none => (false, l)
  | some ci =>
    if ci.remintKey ≠ inp.newRemintKey then (false, l)
    else
      let ci := { ci with remintKeyHistory := ci.remintKeyHistory.dropLast }
      let store (ci : CurrencyInfo) : InputTables :=
        { l with currencies := Function.update l.currencies inp.currency (some ci) }
      match subAmount ci.totalAmountMinted inp.amount with
      | none => (false, store ci)
      | some total => (true, store { ci with totalAmountMinted := total })

def purgeCreateContract (inp : TxinCreateContract) (l : InputTables) : Bool × InputTables :=
  match l.contracts inp.contract with
  | none => (false, l)
  | some ci =>
    if ci.contract ≠ inp.contract ∨ ci.description ≠ inp.description ∨
        ci.gradingKey ≠ inp.gradingKey ∨ ci.feeScale ≠ inp.feeScale ∨
        ci.expiryBlock ≠ inp.expiryBlock ∨ ci.defaultGrade ≠ inp.defaultGrade then (false, l)
    else if ci.isGraded ∨ ci.grade ≠ 0 then (false, l)
    else
      match freeDescription inp.description l with
      | none => (false, l)
      | some l => (true, { l with contracts := Function.update l.contracts inp.contract none })

def purgeMintContract (inp : TxinMintContract) (l : InputTables) : Bool × InputTables :=
  match l.contracts inp.contract with
  | none => (false, l)
  | some ci =>
    l.changeMinted inp.contract inp.backedByCurrency ci
      (subAmount (ci.totalAmountMinted inp.backedByCurrency) inp.amount)

def purgeGradeContract (inp : TxinGradeContract) (l : InputTables) : Bool × InputTables :=
  match l.contracts inp.contract with
  | none => (false, l)
  | some ci =>
    if ci.isGraded then (true, l.setContract inp.contract { ci with isGraded := false, grade := 0 })
    else (false, l)

def purgeFuseBcCoins (inp : TxinFuseBcCoins) (l : InputTables) : Bool × InputTables :=
  match l.contracts inp.contract with
  | none => (false, l)
  | some ci =>
    l.changeMinted inp.contract inp.backingCurrency ci
      (addAmount (ci.totalAmountMinted inp.backingCurrency) inp.amount)

def purgeRegisterDelegate (inp : TxinRegisterDelegate) (l : InputTables) : Bool × InputTables :=
  match l.delegates.find? inp.delegateId with
  | none => (false, l)
  | some _ => (true, { l with delegates := l.delegates.erase inp.delegateId })

def purgeVote (inp : TxinVote) (l : InputTables) : Bool × InputTables :=
  let ki := inp.ink.kImage
  match (l.voteHistories ki).getLast? with
  | none => (false, l)
  | some inst =>
    if inp.seq.toNat ≠ (l.voteHistories ki).length - 1 then (false, l)
    else if inst.expectedVote ≠ inp.ink.amount then (false, l)
    else if inst.votes.toList.any (fun item => !inp.votes.contains item.1) then (false, l)
    else if inp.votes.elems.any (fun id => !inst.votes.contains id) then (false, l)
    else
      match unapplyVotes inst true l.delegates with
      | (false, ds) => (false, { l with delegates := ds })
      | (true, ds) =>
        let history := (l.voteHistories ki).dropLast
        let r := onLastVote history reapplyVotes ds
        (r.1, { l with
          delegates := r.2
          voteHistories := Function.update l.voteHistories ki history })

def purgeInput : TxIn → InputTables → Bool × InputTables
  | .toKey inp => purgeToKey inp
  | .gen _ => fun l => (true, l)
  | .mint inp => purgeMint inp
  | .remint inp => purgeRemint inp
  | .createContract inp => purgeCreateContract inp
  | .mintContract inp => purgeMintContract inp
  | .gradeContract inp => purgeGradeContract inp
  | .resolveBcCoins _ => fun l => (true, l)
  | .fuseBcCoins inp => purgeFuseBcCoins inp
  | .registerDelegate inp => purgeRegisterDelegate inp
  | .vote inp => purgeVote inp
  | .toScript _ | .toScripthash _ => fun l => (false, l)

/-- The first input that fails, with the tables it failed on. -/
def firstFailure (crypto : Crypto) (height : Nat) (popping : Bool) :
    List TxIn → InputTables → Option (TxIn × InputTables)
  | [], _ => none
  | inp :: ins, l =>
    match addInput crypto height popping inp l with
    | (true, l') => firstFailure crypto height popping ins l'
    | (false, _) => some (inp, l)

/-- The previous vote could be taken back but the new one would overflow. -/
def voteWouldOverflow (height : Nat) (popping : Bool) : TxIn × InputTables → Bool
  | (.vote inp, l) =>
    match onLastVote (l.voteHistories inp.ink.kImage) (unapplyVotes · false) l.delegates with
    | (false, _) => false
    | (true, ds) => !(applyVotes height popping inp.ink.amount inp.votes ds).1
  | _ => false

end InputTables

namespace Ledger

/-- The outputs of a transaction still to be entered, from index `i` on: the new
index and the global indexes given out. -/
def pushOutputs (tx : TransactionPrefix) (txId : Hash) :
    (i : Nat) → List TxOut → OutputIndex → OutputIndex × List Nat
  | _, [], outputs => (outputs, [])
  | i, out :: outs, outputs =>
    let key := (tx.outCp i, out.amount)
    let r := pushOutputs tx txId (i + 1) outs
      (Function.update outputs key (outputs key ++ [(txId, i)]))
    (r.1, (outputs key).length :: r.2)

/-- Take the outputs off again, the last one first; `outs` is reversed and its
head has index `outs.length - 1`. -/
def popOutputs (tx : TransactionPrefix) (txId : Hash) :
    (outs : List TxOut) → OutputIndex → Bool × OutputIndex
  | [], outputs => (true, outputs)
  | out :: outs, outputs =>
    let key := (tx.outCp outs.length, out.amount)
    if (outputs key).getLast? = some (txId, outs.length) then
      popOutputs tx txId outs (Function.update outputs key (outputs key).dropLast)
    else (false, outputs)

inductive AddTxExit where
  | added
  /-- "add_transaction_input_visitor failed", with the cause if it was a vote. -/
  | inputsFailed (voteOverflow : Bool)
  | alreadyInBlockchain
deriving DecidableEq, Repr

/-- The inputs are taken back in reverse order up to the first failure; without
`strictCheck` a failure is not reported. -/
def purgeTransactionData (tx : TransactionPrefix) (strictCheck : Bool) (l : Ledger) :
    Bool × Ledger :=
  let r := allApply InputTables.purgeInput tx.vin.reverse l.toInputTables
  (r.1 || !strictCheck, { l with toInputTables := r.2 })

def addTransactionFromBlock (crypto : Crypto) (popping : Bool) (tx : Transaction) (txId : Hash)
    (height : Nat) (l : Ledger) : AddTxExit × Ledger :=
  match allApply (InputTables.addInput crypto height popping) tx.vin l.toInputTables with
  | (false, tables) =>
    (.inputsFailed ((InputTables.firstFailure crypto height popping tx.vin l.toInputTables).any
      (InputTables.voteWouldOverflow height popping)),
      (purgeTransactionData tx.toTransactionPrefix false { l with toInputTables := tables }).2)
  | (true, tables) =>
    if (l.transactions txId).isSome then
      (.alreadyInBlockchain, { l with toInputTables := tables })
    else
      let r := pushOutputs tx.toTransactionPrefix txId 0 tx.vout l.outputs
      (.added,
        { toInputTables := tables
          outputs := r.1
          transactions := Function.update l.transactions txId (some ⟨tx, height, 0, r.2⟩) })

end Ledger

end Pebblecoin
