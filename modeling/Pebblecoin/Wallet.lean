import Pebblecoin.BlockEncoding
import Pebblecoin.TxExtra

/-!
What a wallet keeps of the chain that it has scanned, how a new block is taken over
and how the blocks from a height on are given up again.
-/

namespace Pebblecoin

open Containers Wire

/-- The keys of an account, as far as scanning needs them. -/
structure AccountKeys where
  /-- The one-time key of an output, if the transaction key can be used. -/
  derivePublicKey : (txPubKey : PublicKey) → (outputIndex : Nat) → Option PublicKey
  generateKeyImage : (txPubKey : PublicKey) → (outputIndex : Nat) → KeyImage
  createtime : UInt64

structure TransferDetails where
  blockHeight : Nat
  fromMinerTx : Bool
  tx : Transaction
  internalOutputIndex : Nat
  globalOutputIndex : UInt64
  spent : Bool
  /-- No transaction as long as the transfer is not spent. -/
  spentByTx : Option Transaction
  keyImage : KeyImage
deriving DecidableEq

structure PaymentDetails where
  txHash : Hash
  amount : UInt64
  blockHeight : Nat
  unlockTime : UInt64
  sent : Bool
deriving DecidableEq

structure UnconfirmedTransferDetails where
  tx : Transaction
  change : UInt64
  sentTime : UInt64
deriving DecidableEq

/-- The mixins that were chosen for one transfer of a batch. -/
abbrev FakeOuts := List (UInt64 × PublicKey)

structure VotingBatch where
  transferIndices : List Nat
  fakeOuts : List FakeOuts
  voteHistory : List DelegateVotes

structure VotesInfo where
  batches : List VotingBatch
  transferBatchMap : Nat → Option Nat

structure Wallet2 where
  blockchain : List Hash
  localBcHeight : Nat
  unconfirmedTxs : Hash → Option UnconfirmedTransferDetails
  transfers : List TransferDetails
  /-- In the order in which they were found. -/
  payments : List (Hash × PaymentDetails)
  keyImages : KeyImage → Option Nat
  votesInfo : VotesInfo

inductive WalletError where
  | accOutsLookupError
  | getOutIndicesError
  | outIndicesSizeMismatch
  | wrongOutInTransaction
  | keyImageKeyMismatch
  | wrongHeight
  | keyImageNotFound
  | fileSaveError
  | noConnectionToDaemon
  | getBlocksError
  | wrongStartHeight
  | splitStartsFromFirstBlock
deriving DecidableEq, Repr

/-- A block as the daemon sends it. -/
structure BlockCompleteEntry where
  block : Block
  txs : List Transaction

/-- What happens outside of the wallet during one attempt to pull blocks. -/
structure Session where
  connected : Bool
  /-- The global output indexes of a transaction, if the daemon knows them. -/
  outputIndexes : Hash → Option (List UInt64)
  storeSucceeds : Bool

namespace Wallet2

section Transactions

variable (crypto : Crypto) (keys : AccountKeys)

def txId (tx : Transaction) : Hash := (getTransactionHash crypto tx).getD nullHash

def processUnconfirmed (tx : Transaction) (w : Wallet2) : Wallet2 :=
  { w with unconfirmedTxs := Function.update w.unconfirmedTxs (txId crypto tx) none }

def isOutToAcc (outKey txPubKey : PublicKey) (outputIndex : Nat) : Bool :=
  decide (keys.derivePublicKey txPubKey outputIndex = some outKey)

/-- The outputs from index `i` on that belong to the account, and what they are worth. -/
def lookupAccOuts (txPubKey : PublicKey) : (i : Nat) → List TxOut → Option (List Nat × UInt64)
  | _, [] => some ([], 0)
  | i, out :: outs =>
    match out.target with
    | .toKey key =>
      (lookupAccOuts txPubKey (i + 1) outs).map fun (found, money) =>
        if isOutToAcc keys key txPubKey i then (i :: found, out.amount + money)
        else (found, money)
    | _ => none

/-- The transfer that an output brings. -/
def newTransfer (tx : Transaction) (txPubKey : PublicKey) (height : Nat) (isMinerTx : Bool)
    (indexes : List UInt64) (o : Nat) : TransferDetails where
  blockHeight := height
  fromMinerTx := isMinerTx
  tx := tx
  internalOutputIndex := o
  globalOutputIndex := indexes.getD o 0
  spent := false
  spentByTx := none
  keyImage := keys.generateKeyImage txPubKey o

def receive (td : TransferDetails) (w : Wallet2) : Wallet2 :=
  { w with
    transfers := w.transfers ++ [td]
    keyImages := Function.update w.keyImages td.keyImage (some w.transfers.length) }

def receiveOuts (tx : Transaction) (txPubKey : PublicKey) (height : Nat) (isMinerTx : Bool)
    (indexes : List UInt64) : List Nat → Wallet2 → Option WalletError × Wallet2
  | [], w => (none, w)
  | o :: outs, w =>
    match tx.vout[o]? with
    | none => (some .wrongOutInTransaction, w)
    | some out =>
      let td := newTransfer keys tx txPubKey height isMinerTx indexes o
      if (keys.derivePublicKey txPubKey o).map TxoutTarget.toKey = some out.target then
        receiveOuts tx txPubKey height isMinerTx indexes outs (w.receive td)
      else (some .keyImageKeyMismatch, { w with transfers := w.transfers ++ [td] })

def markSpent (tx : Transaction) (td : TransferDetails) : TransferDetails :=
  { td with spent := true, spentByTx := some tx }

/-- Mark the transfers whose key images are spent, and add up the amounts. -/
def spendIns (tx : Transaction) : List TxIn → UInt64 → Wallet2 → UInt64 × Wallet2
  | [], money, w => (money, w)
  | .toKey inp :: ins, money, w =>
    match w.keyImages inp.kImage with
    | none => spendIns tx ins money w
    | some i =>
      spendIns tx ins (money + inp.amount)
        { w with transfers := w.transfers.modify i (markSpent tx) }
  | _ :: ins, money, w => spendIns tx ins money w

def recordPayment (tx : Transaction) (height : Nat) (extraNonce : Option Bytes)
    (got spent : UInt64) (w : Wallet2) : Wallet2 :=
  match extraNonce.bind getPaymentIdFromTxExtraNonce with
  | none => w
  | some paymentId =>
    let received := if spent < got then got - spent else 0
    let sent := if got < spent then spent - got else 0
    if (0 < received ∨ 0 < sent) ∧ nullHash ≠ paymentId then
      { w with payments := w.payments ++
          [(paymentId, ⟨txId crypto tx, received, height, tx.unlockTime, decide (0 < sent)⟩)] }
    else w

/-- The outputs of the account, once it is known that there are some. -/
def takeOuts (session : Session) (tx : Transaction) (txPubKey : PublicKey) (height : Nat)
    (isMinerTx : Bool) (outs : List Nat) (w : Wallet2) : Option WalletError × Wallet2 :=
  match session.outputIndexes (txId crypto tx) with
  | none => (some .getOutIndicesError, w)
  | some indexes =>
    if indexes.length ≠ tx.vout.length then (some .outIndicesSizeMismatch, w)
    else receiveOuts keys tx txPubKey height isMinerTx indexes outs w

def processNewTransaction (session : Session) (tx : Transaction) (height : Nat)
    (isMinerTx : Bool) (w : Wallet2) : Option WalletError × Wallet2 :=
  let w := w.processUnconfirmed crypto tx
  let fields := (parseTxExtra tx.extra).2
  match findTxExtraPubKey fields with
  | none => (none, w)
  | some txPubKey =>
    match lookupAccOuts keys txPubKey 0 tx.vout with
    | none => (some .accOutsLookupError, w)
    | some (outs, got) =>
      let taken := if outs ≠ [] ∧ got ≠ 0 then
          w.takeOuts crypto keys session tx txPubKey height isMinerTx outs
        else (none, w)
      match taken with
      | (some e, w) => (some e, w)
      | (none, w) =>
        let (spent, w) := w.spendIns tx tx.vin 0
        (none, w.recordPayment crypto tx height (findTxExtraNonce fields) got spent)

end Transactions

section Blocks

variable (crypto : Crypto) (keys : AccountKeys) (session : Session)

def blockId (b : Block) : Hash := (getBlockHash crypto b).getD nullHash

def processTransactions (height : Nat) : List Transaction → Wallet2 → Option WalletError × Wallet2
  | [], w => (none, w)
  | tx :: txs, w =>
    match w.processNewTransaction crypto keys session tx height false with
    | (some e, w) => (some e, w)
    | (none, w) => processTransactions height txs w

/-- A block that is more than a day older than the account is not looked into. -/
def scanBlock (entry : BlockCompleteEntry) (height : Nat) (w : Wallet2) :
    Option WalletError × Wallet2 :=
  if keys.createtime < entry.block.timestamp + 60 * 60 * 24 then
    match w.processNewTransaction crypto keys session entry.block.minerTx height true with
    | (some e, w) => (some e, w)
    | (none, w) => w.processTransactions crypto keys session height entry.txs
  else (none, w)

def processNewBlockchainEntry (entry : BlockCompleteEntry) (blId : Hash) (height : Nat)
    (w : Wallet2) : Option WalletError × Wallet2 :=
  if height ≠ w.blockchain.length then (some .wrongHeight, w)
  else
    match w.scanBlock crypto keys session entry height with
    | (some e, w) => (some e, w)
    | (none, w) =>
      let w := { w with
        blockchain := w.blockchain ++ [blId], localBcHeight := w.localBcHeight + 1 }
      if w.localBcHeight % 1000 = 0 ∧ !session.storeSucceeds then (some .fileSaveError, w)
      else (none, w)

end Blocks

/-- Drop a transfer from a batch, together with what was chosen for it. -/
def eraseFromBatch (i : Nat) : List Nat → List FakeOuts → List Nat × List FakeOuts
  | [], fakeOuts => ([], fakeOuts)
  | j :: js, fakeOuts =>
    let (js, rest) := eraseFromBatch i js fakeOuts.tail
    if j = i then (js, rest) else (j :: js, fakeOuts.take 1 ++ rest)

def eraseTransfer (i : Nat) (v : VotesInfo) : VotesInfo where
  batches := v.batches.map fun batch =>
    let (indices, fakeOuts) := eraseFromBatch i batch.transferIndices batch.fakeOuts
    { batch with transferIndices := indices, fakeOuts := fakeOuts }
  transferBatchMap := Function.update v.transferBatchMap i none

/-- Forget the key images of the transfers from index `i` on. -/
def detachTransfers : (i : Nat) → List TransferDetails → Wallet2 → Option WalletError × Wallet2
  | _, [], w => (none, w)
  | i, td :: tds, w =>
    match w.keyImages td.keyImage with
    | none => (some .keyImageNotFound, w)
    | some _ => detachTransfers (i + 1) tds
        { w with
          keyImages := Function.update w.keyImages td.keyImage none
          votesInfo := eraseTransfer i w.votesInfo }

def detachBlockchain (height : Nat) (w : Wallet2) : Option WalletError × Wallet2 :=
  let iStart := w.transfers.findIdx fun td => decide (height ≤ td.blockHeight)
  match w.detachTransfers iStart (w.transfers.drop iStart) with
  | (some e, w) => (some e, w)
  | (none, w) =>
    (none, { w with
      transfers := w.transfers.take iStart
      blockchain := w.blockchain.take height
      localBcHeight := w.localBcHeight - (w.blockchain.length - height)
      payments := w.payments.filter fun p => decide (p.2.blockHeight < height) })

/-- A wallet that has found nothing yet. -/
def bareWallet (c : List Hash) : Wallet2 where
  blockchain := c
  localBcHeight := c.length
  unconfirmedTxs _ := none
  transfers := []
  payments := []
  keyImages _ := none
  votesInfo := ⟨[], fun _ => none⟩

/-- The ten last blocks, then blocks at distances that double. -/
def shortChainHistoryLoop (blockchain : List Hash) :
    (fuel i multiplier backOffset : Nat) → List Hash
  | 0, _, _, _ => []
  | fuel + 1, i, multiplier, backOffset =>
    if backOffset < blockchain.length then
      blockchain.getD (blockchain.length - backOffset) nullHash ::
        if i < 10 then shortChainHistoryLoop blockchain fuel (i + 1) multiplier (backOffset + 1)
        else shortChainHistoryLoop blockchain fuel (i + 1) (multiplier * 2)
          (backOffset + multiplier * 2)
    else []

/-- The loop never gets to the genesis block, which is added at the end. -/
def getShortChainHistory (blockchain : List Hash) : List Hash :=
  if blockchain.isEmpty then []
  else shortChainHistoryLoop blockchain blockchain.length 0 1 1 ++ [blockchain.headD nullHash]

end Wallet2

end Pebblecoin
