import Pebblecoin.Containers.Drawing
import Pebblecoin.TxBuilder
import Pebblecoin.ValidateTx
import Pebblecoin.WalletBalance

/-!
How a wallet builds a transaction: the transfers and the voting batches that it
selects to spend and to vote with, and what it writes down once the transaction is sent.
-/

namespace Pebblecoin

open Containers Wire

def defaultTxSpendableAge : Nat := 10
def maxVoteInputsPerTx : Nat := 30
def maxDustsPerTx : Nat := 5

inductive BuilderError where
  | notInProgress
  | notFinalized
  | zeroDestination
  | txSumOverflow
  | nonXpbSend
  | noConnectionToDaemon
  | daemonBusy
  | getRandomOutsError
  | wrongAmountsCount
  | notEnoughOutsToMix
  | outputIndexTooLarge
  | transferNotXpb
  | randomFromEmptyList
  | weightedTransferLogicFailed
  | noVoteHistory
  | invalidTransferIndex
  | invalidBatchIndex
  | notEnoughFakeOuts
  | outputNotToKey
  | notEnoughMoney (available money fee scantyOuts : UInt64)
  | invalidDust
  | txNotConstructed
  | wrongFakeOutsCount
  | voteNotAdded
  | spendDoesNotExist
  | batchSpendDoesNotExist
  | batchChangeDoesNotExist
  | votesNotDifferent
  | voteTransferDoesNotExist
  | transferAlreadyInBatch
  | getKeyImageSeqsError
  | notFinalizable
deriving DecidableEq, Repr

/-- What all calls of a wallet share. -/
structure WalletEnv where
  crypto : Crypto
  keys : AccountKeys
  accountAddress : AccountPublicAddress
  difficultyTarget : Nat
  sign : RingSigner

structure TxDustPolicy where
  dustThreshold : UInt64
  addToFee : Bool
  addrForDust : AccountPublicAddress

/-- The destinations and the change are split into outputs; the rest is dust. -/
abbrev SplitStrategy := List TxDestinationEntry → (change : TxDestinationEntry) →
  (dustThreshold : UInt64) → List TxDestinationEntry × UInt64

/-- What happens outside of the wallet during one call.  The numbers that are drawn, the
requests to the daemon and the shuffles of a call are counted. -/
structure CallSession where
  now : UInt64
  rand : Nat → UInt64
  randomOuts : Nat → (amounts : List UInt64) → (outsCount : Nat) → Except BuilderError (List FakeOuts)
  shuffle : Nat → List Nat → List Nat

structure SendCall where
  dsts : List TxDestinationEntry
  fee : UInt64
  minFakeOuts : Nat
  fakeOutputsCount : Nat
  split : SplitStrategy
  dustPolicy : TxDustPolicy

structure VoteCall where
  minFakeOuts : Nat
  fakeOutsCount : Nat
  dustPolicy : TxDustPolicy
  numVotes : UInt64
  desiredVotes : DelegateVotes
  delegatesPerVote : UInt64

structure NewBatchVoteInfo where
  transferIs : List Nat
  fakeOuts : List FakeOuts
  votes : DelegateVotes

structure ChangeBatchVoteInfo where
  batchI : Nat
  votes : DelegateVotes

inductive WalletTxBuilderState where
  | inProgress
  | finalized
deriving DecidableEq

structure WalletTxBuilder where
  state : WalletTxBuilderState
  txb : TxBuilder
  spendTransferIs : List Nat
  spendBatchIs : List Nat
  newBatchVotes : List NewBatchVoteInfo
  changeBatchVotes : List ChangeBatchVoteInfo
  /-- The change of all calls, and the sum of what it was after each of them. -/
  allChange : UInt64
  xpbChange : UInt64
  scantyOutsAmount : UInt64

namespace TransferDetails

/-- Reading an output that is not there is undefined in the source. -/
def amountD (td : TransferDetails) : UInt64 := td.amount.getD 0

end TransferDetails

namespace Wallet2

def transferAmount (w : Wallet2) (i : Nat) : UInt64 := (w.transfers[i]?.map (·.amountD)).getD 0

def isTxSpendtimeUnlocked (env : WalletEnv) (now : UInt64) (w : Wallet2) (unlockTime : UInt64) :
    Bool :=
  if unlockTime.toNat < cryptonoteMaxBlockNumber then
    unlockTime.toNat ≤ w.blockchain.length + lockedTxAllowedDeltaBlocks - 1
  else unlockTime ≤ now + UInt64.ofNat (env.difficultyTarget * lockedTxAllowedDeltaBlocks)

def isTransferUnlocked (env : WalletEnv) (now : UInt64) (w : Wallet2) (td : TransferDetails) : Bool :=
  w.isTxSpendtimeUnlocked env now td.tx.unlockTime &&
    decide (td.blockHeight + defaultTxSpendableAge ≤ w.blockchain.length)

/-- Zero stands for no batch. -/
def batchIndex (w : Wallet2) (i : Nat) : Nat := (w.votesInfo.transferBatchMap i).getD 0

/-- Reading the map with brackets puts a zero where nothing was. -/
def lookUpBatches (is : List Nat) (w : Wallet2) : Wallet2 :=
  { w with
    votesInfo := { w.votesInfo with
      transferBatchMap := fun i =>
        if is.contains i then some (w.batchIndex i) else w.votesInfo.transferBatchMap i } }

def batchSpent (w : Wallet2) : List Nat → Except BuilderError Bool
  | [] => .ok true
  | i :: is =>
    match w.transfers[i]? with
    | none => .error .invalidTransferIndex
    | some td => if td.spent then batchSpent w is else .ok false

def batchAmount (w : Wallet2) : List Nat → Except BuilderError UInt64
  | [] => .ok 0
  | i :: is =>
    match w.transfers[i]? with
    | none => .error .invalidTransferIndex
    | some td => (fun rest => if td.spent then rest else td.amountD + rest) <$> batchAmount w is

def getFakeOutputs (session : CallSession) (request : Nat) (amounts : List UInt64)
    (minFakeOuts fakeOutputsCount : Nat) : Except BuilderError (List FakeOuts) :=
  if amounts.isEmpty ∨ fakeOutputsCount = 0 then .ok (amounts.map fun _ => [])
  else do
    let outs ← session.randomOuts request amounts (fakeOutputsCount + 1)
    if outs.length ≠ amounts.length then .error .wrongAmountsCount
    else if outs.any fun amountOuts => amountOuts.length < minFakeOuts then .error .notEnoughOutsToMix
    else .ok outs

end Wallet2

namespace WalletTxBuilder

def initTx (txkey : TxKey) (unlockTime : UInt64) (extra : Bytes) : WalletTxBuilder where
  state := .inProgress
  txb := TxBuilder.init txkey unlockTime extra
  spendTransferIs := []
  spendBatchIs := []
  newBatchVotes := []
  changeBatchVotes := []
  allChange := 0
  xpbChange := 0
  scantyOutsAmount := 0

def transferBeingSpent (b : WalletTxBuilder) (i : Nat) : Bool := b.spendTransferIs.contains i

def batchBeingSpent (b : WalletTxBuilder) (i : Nat) : Bool := b.spendBatchIs.contains i

section Selection

variable (env : WalletEnv) (session : CallSession) (w : Wallet2) (b : WalletTxBuilder)

def getFakeOutputs (request : Nat) (transferIs : List Nat) (minFakeOuts fakeOutsCount : Nat) :
    Except BuilderError (List FakeOuts) := do
  let amounts ← transferIs.mapM fun idx =>
    match w.transfers[idx]? with
    | none => .error .invalidTransferIndex
    | some td =>
      if td.tx.vout.length ≤ td.internalOutputIndex then .error .outputIndexTooLarge
      else if td.cp ≠ some cpXpb then .error .transferNotXpb
      else .ok td.amountD
  Wallet2.getFakeOutputs session request amounts minFakeOuts fakeOutsCount

/-- The transfers that have enough outputs to mix with, and the amount of the others. -/
def filterScantyOuts (request : Nat) (transferIndices : List Nat) (minFakeOuts : Nat) :
    Except BuilderError (List Nat × UInt64) :=
  if minFakeOuts = 0 then .ok (transferIndices, 0)
  else do
    let fakeOuts ← getFakeOutputs session w request transferIndices 0 minFakeOuts
    let enough := fun p : Nat × FakeOuts => decide (minFakeOuts ≤ p.2.length)
    let pairs := transferIndices.zip fakeOuts
    .ok ((pairs.filter enough).map Prod.fst,
      ((pairs.filter fun p => !enough p).map fun p => w.transferAmount p.1).sum)

/-- The transfers for which the map of the batches is read. -/
def unusedTransfers (extra : TransferDetails → Bool) : List Nat :=
  (List.range w.transfers.length).filter fun i =>
    w.transfers[i]?.any fun td =>
      decide (td.cp = some cpXpb) && !td.spent && w.isTransferUnlocked env session.now td &&
        !b.transferBeingSpent i && extra td

/-- Those of them that are in no batch. -/
def unbatchedTransfers (extra : TransferDetails → Bool) : List Nat :=
  (unusedTransfers env session w b extra).filter fun i => decide (w.batchIndex i = 0)

/-- Drawing the number fails if all amounts are zero. -/
def popRandomWeightedTransfer (random : UInt64) (indices : List Nat) :
    Except BuilderError (Nat × List Nat) :=
  if indices.isEmpty then .error .randomFromEmptyList
  else
    let sum := (indices.map w.transferAmount).sum
    if sum = 0 then .error .weightedTransferLogicFailed
    else match popWeighted w.transferAmount (random % sum) indices with
      | none => .error .weightedTransferLogicFailed
      | some r => .ok r

/-- The pool gets smaller with each round, so its length bounds their number. -/
def voteLoop (numVotes : UInt64) :
    (rounds : Nat) → (pool picked : List Nat) → (foundVotes : UInt64) →
      Except BuilderError (List Nat × UInt64)
  | 0, _, picked, foundVotes => .ok (picked, foundVotes)
  | rounds + 1, pool, picked, foundVotes =>
    if foundVotes < numVotes ∧ !pool.isEmpty then do
      let (idx, pool) ← popRandomWeightedTransfer w (session.rand picked.length) pool
      let picked := picked ++ [idx]
      let foundVotes := foundVotes + w.transferAmount idx
      if maxVoteInputsPerTx ≤ picked.length then .ok (picked, foundVotes)
      else voteLoop numVotes rounds pool picked foundVotes
    else .ok (picked, foundVotes)

/-- The transfers, what they are worth, and the amount that could not be mixed.
Dusts are not voted with. -/
def selectTransfersForVotes (numVotes dust : UInt64) (minFakeOuts : Nat) :
    Except BuilderError ((List Nat × UInt64) × UInt64) := do
  let unused := unbatchedTransfers env session w b fun td => decide (dust < td.amountD)
  let (unused, scanty) ← filterScantyOuts session w 0 unused minFakeOuts
  let found ← voteLoop session w numVotes unused.length unused [] 0
  .ok (found, scanty)

def popRandomValue (random : UInt64) (vec : List Nat) : Option (Nat × List Nat) :=
  popAt (random.toNat % vec.length) vec

/-- Dusts first, but not more than `maxDusts` of them. -/
def popForSpend (random : UInt64) (numDusts : Nat) (dusts transfers : List Nat) :
    Option (Nat × List Nat × List Nat × Nat) :=
  if !dusts.isEmpty ∧ numDusts < maxDustsPerTx then
    (popRandomValue random dusts).map fun (idx, dusts) => (idx, dusts, transfers, numDusts + 1)
  else (popRandomValue random transfers).map fun (idx, transfers) => (idx, dusts, transfers, numDusts)

def spendLoop (neededMoney : UInt64) :
    (rounds numDusts : Nat) → (dusts transfers picked : List Nat) → (foundMoney : UInt64) →
      List Nat × UInt64
  | 0, _, _, _, picked, foundMoney => (picked, foundMoney)
  | rounds + 1, numDusts, dusts, transfers, picked, foundMoney =>
    if foundMoney < neededMoney then
      match popForSpend (session.rand picked.length) numDusts dusts transfers with
      | none => (picked, foundMoney)
      | some (idx, dusts, transfers, numDusts) =>
        spendLoop neededMoney rounds numDusts dusts transfers (picked ++ [idx])
          (foundMoney + w.transferAmount idx)
    else (picked, foundMoney)

def selectTransfersForSpend (neededMoney dust : UInt64) (minFakeOuts : Nat) :
    Except BuilderError ((List Nat × UInt64) × UInt64) := do
  let unused := unbatchedTransfers env session w b fun _ => true
  let isDust := fun i => decide (w.transferAmount i ≤ dust)
  let (transfers, scanty) ← filterScantyOuts session w 0 (unused.filter fun i => !isDust i) minFakeOuts
  let (dusts, scantyDusts) ← filterScantyOuts session w 1 (unused.filter isDust) minFakeOuts
  .ok (spendLoop session w neededMoney (dusts.length + transfers.length) 0 dusts transfers [] 0,
    scanty + scantyDusts)

/-- The batches from index `i` on that are neither spent nor being spent, with the keys
they are sorted by.  A batch without a key is not used. -/
def batchInfos (sortKey : VotingBatch → Except BuilderError (Option UInt64)) :
    (i : Nat) → List VotingBatch → Except BuilderError (List (UInt64 × Nat))
  | _, [] => .ok []
  | i, batch :: batches =>
    if batch.voteHistory.isEmpty then .error .noVoteHistory
    else do
      let spent ← w.batchSpent batch.transferIndices
      if spent || b.batchBeingSpent i then batchInfos sortKey (i + 1) batches
      else
        match ← sortKey batch with
        | none => batchInfos sortKey (i + 1) batches
        | some key => ((key, i) :: ·) <$> batchInfos sortKey (i + 1) batches

def infoLe (inf inf' : UInt64 × Nat) : Bool :=
  decide (inf.1 < inf'.1) || (decide (inf.1 = inf'.1) && decide (inf.2 ≤ inf'.2))

/-- At least one batch, if there is one, and more until the amount is reached. -/
def takeBatches (amount : UInt64) :
    List (UInt64 × Nat) → (picked : List Nat) → (found : UInt64) →
      Except BuilderError (List Nat × UInt64)
  | [], picked, found => .ok (picked, found)
  | inf :: infos, picked, found =>
    match w.votesInfo.batches[inf.2]? with
    | none => .error .invalidBatchIndex
    | some batch => do
      let found := found + (← w.batchAmount batch.transferIndices)
      if amount ≤ found then .ok (picked ++ [inf.2], found)
      else takeBatches amount infos (picked ++ [inf.2]) found

def setSub (votes unwanted : DelegateVotes) : DelegateVotes :=
  OrdSet.ofElems (votes.elems.filter fun id => !unwanted.contains id)

def setAnd (votes wanted : DelegateVotes) : DelegateVotes :=
  OrdSet.ofElems (votes.elems.filter fun id => wanted.contains id)

def setOr (votes more : DelegateVotes) : DelegateVotes := OrdSet.ofElems (votes.elems ++ more.elems)

/-- The batches whose last votes are not all wanted, the most important ones first. -/
def selectBatchesForVotes (numVotes : UInt64) (votingSet : DelegateVotes) :
    Except BuilderError (List Nat × UInt64) := do
  let infos ← batchInfos w b
    (fun batch =>
      let numUnwanted := (setSub (batch.voteHistory.getLastD OrdMap.empty) votingSet).elems.length
      if numUnwanted = 0 then .ok none
      else (fun amount => some (amount * UInt64.ofNat numUnwanted)) <$>
        w.batchAmount batch.transferIndices)
    1 (w.votesInfo.batches.drop 1)
  takeBatches w numVotes (infos.insertionSort fun inf inf' => infoLe inf' inf) [] 0

def selectBatchesForSpend (neededMoney : UInt64) : Except BuilderError (List Nat × UInt64) := do
  let infos ← batchInfos w b (fun batch => some <$> w.batchAmount batch.transferIndices)
    1 (w.votesInfo.batches.drop 1)
  takeBatches w neededMoney (infos.insertionSort fun inf inf' => infoLe inf inf') [] 0

def getTxPubKeyFromExtra (tx : Transaction) : PublicKey :=
  (findTxExtraPubKey (parseTxExtra tx.extra).2).getD nullPkey

/-- The outputs that are mixed in, without the real one.  One is taken even if none is
asked for. -/
def mixedOuts (fakes : FakeOuts) (globalOutputIndex : UInt64) (fakeOutputsCount : Nat) : FakeOuts :=
  ((fakes.insertionSort fun a b => a.1 ≤ b.1).filter fun oe => decide (globalOutputIndex ≠ oe.1)).take
    (max fakeOutputsCount 1)

def prepareInput (fakeOutputsCount idx : Nat) (fakes : FakeOuts) :
    Except BuilderError TxSourceEntry :=
  match w.transfers[idx]? with
  | none => .error .invalidTransferIndex
  | some td =>
    match td.tx.vout[td.internalOutputIndex]? with
    | some ⟨_, .toKey key⟩ =>
      let mixed := mixedOuts fakes td.globalOutputIndex fakeOutputsCount
      let before := mixed.takeWhile fun oe => decide (oe.1 < td.globalOutputIndex)
      .ok
        { outputs := before ++ (td.globalOutputIndex, key) :: mixed.drop before.length
          realOutput := before.length
          realOutTxKey := getTxPubKeyFromExtra td.tx
          realOutputInTxIndex := td.internalOutputIndex
          cp := td.tx.outCp td.internalOutputIndex
          amountIn := td.amountD
          amountOut := td.amountD
          transfer := idx }
    | _ => .error .outputNotToKey

/-- A transfer for which there are no fake outputs is not mixed. -/
def prepareInputs (fakeOutputsCount : Nat) :
    List Nat → List FakeOuts → Except BuilderError (List TxSourceEntry)
  | [], _ => .ok []
  | idx :: idxs, fakeOutputs => do
    let src ← prepareInput w fakeOutputsCount idx (fakeOutputs.headD [])
    (src :: ·) <$> prepareInputs fakeOutputsCount idxs fakeOutputs.tail

/-- The members of a batch that are not spent, with the outputs they were mixed with. -/
def unspentMembers : List Nat → List FakeOuts → Except BuilderError (List Nat × List FakeOuts)
  | [], _ => .ok ([], [])
  | idx :: idxs, fakeOuts =>
    match w.transfers[idx]? with
    | none => .error .invalidTransferIndex
    | some td =>
      if td.spent then unspentMembers idxs fakeOuts.tail
      else
        match fakeOuts with
        | [] => .error .notEnoughFakeOuts
        | fakes :: fakeOuts =>
          (fun rest => (idx :: rest.1, fakes :: rest.2)) <$> unspentMembers idxs fakeOuts

def prepareBatch (batchIdx : Nat) : Except BuilderError (List TxSourceEntry) :=
  match w.votesInfo.batches[batchIdx]? with
  | none => .error .invalidBatchIndex
  | some batch => do
    let (selected, fakeOutputs) ← unspentMembers w batch.transferIndices batch.fakeOuts
    prepareInputs w 999999 selected fakeOutputs

end Selection

def addNeeded (cp : CoinType) (amount : UInt64) : List (CoinType × UInt64) → List (CoinType × UInt64)
  | [] => [(cp, amount)]
  | item :: items =>
    if item.1 = cp then (cp, item.2 + amount) :: items else item :: addNeeded cp amount items

def calculateNeededMoney (dests : List TxDestinationEntry) (fee : UInt64) :
    Except BuilderError (List (CoinType × UInt64)) :=
  dests.foldlM
    (fun needed dt =>
      if dt.amount = 0 then .error .zeroDestination
      else
        let needed := addNeeded dt.cp dt.amount needed
        if (needed.lookup dt.cp).getD 0 < dt.amount then .error .txSumOverflow else .ok needed)
    [(cpXpb, fee)]

section Calls

variable (env : WalletEnv) (session : CallSession) (w : Wallet2)

/-- The transfers and, if they are not enough, the batches that are spent; what they are
worth, and the amount that could not be mixed. -/
def selectForSpend (call : SendCall) (neededMoney : UInt64) (b : WalletTxBuilder) :
    Except BuilderError (List Nat × List Nat × UInt64 × UInt64) := do
  let ((transferIs, found), scanty) ←
    selectTransfersForSpend env session w b neededMoney call.dustPolicy.dustThreshold call.minFakeOuts
  if found < neededMoney then do
    let missing := neededMoney - found
    let (batchIs, batchFound) ← selectBatchesForSpend w b missing
    if batchFound < missing then
      .error (.notEnoughMoney (found + batchFound) (neededMoney - call.fee) call.fee
        (b.scantyOutsAmount + scanty))
    else .ok (transferIs, batchIs, found + batchFound, scanty)
  else .ok (transferIs, [], found, scanty)

def prepareBatches : List Nat → Except BuilderError (List TxSourceEntry)
  | [] => .ok []
  | idx :: idxs => do
    let sources ← prepareBatch w idx
    (sources ++ ·) <$> prepareBatches idxs

def changeDest (foundMoney neededMoney : UInt64) : TxDestinationEntry :=
  if neededMoney < foundMoney then ⟨cpXpb, foundMoney - neededMoney, env.accountAddress⟩
  else ⟨cpXpb, 0, ⟨nullPkey, nullPkey⟩⟩

def splitDests (call : SendCall) (foundMoney neededMoney : UInt64) :
    Except BuilderError (List TxDestinationEntry) :=
  let (dests, dust) :=
    call.split call.dsts (changeDest env foundMoney neededMoney) call.dustPolicy.dustThreshold
  if call.dustPolicy.dustThreshold < dust then .error .invalidDust
  else if 0 < dust ∧ !call.dustPolicy.addToFee then
    .ok (dests ++ [⟨cpXpb, dust, call.dustPolicy.addrForDust⟩])
  else .ok dests

/-- Only the main currency can be sent. -/
def addSendNeeded (call : SendCall) (needed : List (CoinType × UInt64)) (b : WalletTxBuilder) :
    Except BuilderError WalletTxBuilder :=
  match needed with
  | [(_, neededMoney)] => do
    let (transferIs, batchIs, foundMoney, scanty) ← selectForSpend env session w call neededMoney b
    let fakeOutputs ←
      getFakeOutputs session w 2 transferIs call.minFakeOuts call.fakeOutputsCount
    let transferSources ← prepareInputs w call.fakeOutputsCount transferIs fakeOutputs
    let batchSources ← prepareBatches w batchIs
    let dests ← splitDests env call foundMoney neededMoney
    match b.txb.addSend env.keys (transferSources ++ batchSources) dests with
    | none => .error .txNotConstructed
    | some txb =>
      let allChange := b.allChange + (foundMoney - neededMoney)
      .ok { b with
        txb := txb
        spendTransferIs := b.spendTransferIs ++ transferIs
        spendBatchIs := b.spendBatchIs ++ batchIs
        allChange := allChange
        xpbChange := b.xpbChange + allChange
        scantyOutsAmount := b.scantyOutsAmount + scanty }
  | _ => .error .nonXpbSend

/-- What the call returns or throws, and the wallet after it. -/
def addSend (call : SendCall) (b : WalletTxBuilder) : Except BuilderError WalletTxBuilder × Wallet2 :=
  if b.state ≠ .inProgress then (.error .notInProgress, w)
  else
    match calculateNeededMoney call.dsts call.fee with
    | .error e => (.error e, w)
    | .ok needed =>
      (addSendNeeded env session w call needed b,
        w.lookUpBatches (unusedTransfers env session w b fun _ => true))

/-- The number is cut down to a signed one of 32 bits. -/
def randomSubset (shuffled : List Nat) (s : DelegateVotes) (subsetSize : UInt64) : DelegateVotes :=
  let subsetSize := subsetSize.toUInt32.toBitVec.toInt
  if subsetSize ≤ 0 then OrdMap.empty
  else OrdSet.ofElems ((shuffled.take subsetSize.toNat).filterMap (s.elems[·]?))

def addNewBatch (call : VoteCall) (transferIs : List Nat) (b : WalletTxBuilder) :
    Except BuilderError WalletTxBuilder := do
  let newVotes := randomSubset (session.shuffle 0 (List.range call.desiredVotes.elems.length))
    call.desiredVotes call.delegatesPerVote
  let fakeOutputs ← getFakeOutputs session w 1 transferIs call.minFakeOuts call.fakeOutsCount
  if fakeOutputs.length ≠ transferIs.length then .error .wrongFakeOutsCount
  else do
    let sources ← prepareInputs w call.fakeOutsCount transferIs fakeOutputs
    match b.txb.addVote env.keys sources 0 newVotes with
    | none => .error .voteNotAdded
    | some txb =>
      .ok { b with
        txb := txb
        newBatchVotes := b.newBatchVotes ++ [⟨transferIs, fakeOutputs, newVotes⟩] }

/-- Keep the votes that are still wanted and fill up with other wanted ones. -/
def changeBatch (call : VoteCall) (b : WalletTxBuilder) (idx : Nat) :
    Except BuilderError WalletTxBuilder :=
  match w.votesInfo.batches[idx]? with
  | none => .error .invalidBatchIndex
  | some batch => do
    let common := setAnd (batch.voteHistory.getLastD OrdMap.empty) call.desiredVotes
    let others := setSub call.desiredVotes common
    let newVotes := setOr common
      (randomSubset (session.shuffle idx (List.range others.elems.length)) others
        (call.delegatesPerVote - UInt64.ofNat common.elems.length))
    let sources ← prepareBatch w idx
    match b.txb.addVote env.keys sources (UInt16.ofNat batch.voteHistory.length) newVotes with
    | none => .error .voteNotAdded
    | some txb =>
      .ok { b with txb := txb, changeBatchVotes := b.changeBatchVotes ++ [⟨idx, newVotes⟩] }

def changeBatches (call : VoteCall) (b : WalletTxBuilder) :
    Except BuilderError (UInt64 × WalletTxBuilder) := do
  let (batchIs, result) ← selectBatchesForVotes w b call.numVotes call.desiredVotes
  if result = 0 then .ok (0, b)
  else (result, ·) <$> batchIs.foldlM (changeBatch env session w call) b

/-- Transfers that are in no batch first, and the batches only if there are none. -/
def addVotesFor (call : VoteCall) (b : WalletTxBuilder) :
    Except BuilderError (UInt64 × WalletTxBuilder) :=
  if call.desiredVotes.elems.isEmpty then changeBatches env session w call b
  else do
    let ((transferIs, result), scanty) ← selectTransfersForVotes env session w b call.numVotes
      call.dustPolicy.dustThreshold call.minFakeOuts
    let (result, b) ←
      if result = 0 then changeBatches env session w call b
      else (result, ·) <$> addNewBatch env session w call transferIs b
    .ok (result, { b with scantyOutsAmount := b.scantyOutsAmount + scanty })

def addVotes (call : VoteCall) (b : WalletTxBuilder) :
    Except BuilderError (UInt64 × WalletTxBuilder) × Wallet2 :=
  if b.state ≠ .inProgress then (.error .notInProgress, w)
  else
    (addVotesFor env session w call b,
      if call.desiredVotes.elems.isEmpty then w
      else w.lookUpBatches (unusedTransfers env session w b fun td =>
        decide (call.dustPolicy.dustThreshold < td.amountD)))

end Calls

section Finalization

variable (env : WalletEnv) (w : Wallet2)

def checkSpends (b : WalletTxBuilder) : Except BuilderError Unit :=
  if b.spendTransferIs.any fun i => decide (w.transfers.length ≤ i) then .error .spendDoesNotExist
  else if b.spendBatchIs.any fun i => decide (w.votesInfo.batches.length ≤ i) then
    .error .batchSpendDoesNotExist
  else .ok ()

def checkChange (cbvi : ChangeBatchVoteInfo) : Except BuilderError Unit :=
  match w.votesInfo.batches[cbvi.batchI]? with
  | none => .error .batchChangeDoesNotExist
  | some batch =>
    if batch.voteHistory.getLast? = some cbvi.votes then .error .votesNotDifferent else .ok ()

def checkNewMember (i : Nat) : Except BuilderError Unit :=
  if w.transfers.length ≤ i then .error .voteTransferDoesNotExist
  else if w.batchIndex i ≠ 0 then .error .transferAlreadyInBatch
  else .ok ()

/-- The key images for which the daemon is asked how often they have voted. -/
def voteImages (tx : Transaction) : List KeyImage :=
  tx.vin.filterMap fun inp =>
    match inp with
    | .vote inp => some inp.ink.kImage
    | _ => none

def replaceVoteSeqs (seqs : KeyImage → UInt64) (tx : Transaction) : Transaction :=
  { tx with
    vin := tx.vin.map fun inp =>
      match inp with
      | .vote inp => .vote { inp with seq := (seqs inp.ink.kImage).toUInt16 }
      | inp => inp }

def newMembers (b : WalletTxBuilder) : List Nat := b.newBatchVotes.flatMap (·.transferIs)

def finalize (keyImageSeqs : List KeyImage → Except BuilderError (KeyImage → UInt64))
    (b : WalletTxBuilder) : Except BuilderError WalletTxBuilder × Wallet2 :=
  if b.state ≠ .inProgress then (.error .notInProgress, w)
  else
    (do
      checkSpends w b
      b.changeBatchVotes.forM (checkChange w)
      b.newMembers.forM (checkNewMember w)
      let seqs ← keyImageSeqs (voteImages b.txb.tx)
      let txb := { b.txb with tx := replaceVoteSeqs seqs b.txb.tx }
      match txb.finalize env.crypto env.sign with
      | none => .error .notFinalizable
      | some txb => .ok { b with state := .finalized, txb := txb },
    -- The members were looked up when they were selected.
    w.lookUpBatches b.newMembers)

def markSpent (is : List Nat) (w : Wallet2) : Wallet2 :=
  { w with
    transfers := w.transfers.mapIdx fun i td => if is.contains i then { td with spent := true } else td }

def pushVotes (v : VotesInfo) (cbvi : ChangeBatchVoteInfo) : VotesInfo :=
  { v with
    batches := v.batches.modify cbvi.batchI fun batch =>
      { batch with voteHistory := batch.voteHistory ++ [cbvi.votes] } }

/-- The first batch is not used, as zero stands for no batch. -/
def pushBatch (v : VotesInfo) (nbvi : NewBatchVoteInfo) : VotesInfo :=
  let batches := if v.batches.isEmpty then [⟨[], [], []⟩] else v.batches
  { batches := batches ++ [⟨nbvi.transferIs, nbvi.fakeOuts, [nbvi.votes]⟩]
    transferBatchMap := fun i =>
      if nbvi.transferIs.contains i then some batches.length else v.transferBatchMap i }

def membersOf (w : Wallet2) (batchI : Nat) : List Nat :=
  (w.votesInfo.batches[batchI]?.map (·.transferIndices)).getD []

def addUnconfirmedTx (crypto : Crypto) (now : UInt64) (tx : Transaction) (change : UInt64)
    (w : Wallet2) : Wallet2 :=
  { w with
    unconfirmedTxs := Function.update w.unconfirmedTxs (Wallet2.txId crypto tx)
      (some ⟨tx, change, now⟩) }

def processTransactionSent (now : UInt64) (b : WalletTxBuilder) : Except BuilderError Unit × Wallet2 :=
  if b.state ≠ .finalized then (.error .notFinalized, w)
  else
    let w := markSpent b.spendTransferIs w
    let w := markSpent (b.spendBatchIs.flatMap (membersOf w)) w
    let votesInfo := b.changeBatchVotes.foldl pushVotes w.votesInfo
    let votesInfo := b.newBatchVotes.foldl pushBatch votesInfo
    (.ok (), addUnconfirmedTx env.crypto now b.txb.tx b.xpbChange { w with votesInfo := votesInfo })

end Finalization

end WalletTxBuilder

end Pebblecoin
