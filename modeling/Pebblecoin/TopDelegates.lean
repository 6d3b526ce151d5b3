import Pebblecoin.Storage

/-!
The delegates that sign blocks: who they are, whose turn it is, and the
statistics kept about them.
-/

namespace Pebblecoin

open Containers Wire

def bytesLt : Bytes → Bytes → Bool
  | [], [] => false
  | [], _ :: _ => true
  | _ :: _, [] => false
  | a :: as, b :: bs => decide (a < b) || (decide (a = b) && bytesLt as bs)

namespace DelegateInfo

/-- Fewer votes first; ties are broken by address text and by id. -/
def votesLt (a b : DelegateInfo) : Bool :=
  if a.totalVotes < b.totalVotes then true
  else if a.totalVotes ≠ b.totalVotes then false
  else if bytesLt a.addressAsString b.addressAsString then true
  else if a.addressAsString ≠ b.addressAsString then false
  else a.delegateId < b.delegateId

/-- The rank of a delegate cannot be computed: it would have processed more
blocks than it could have. -/
def rankThrows (info : DelegateInfo) : Bool :=
  info.processedBlocks + info.missedBlocks < info.processedBlocks

end DelegateInfo

/-- The item `n` places after the first that is not below `start`, in cyclic order. -/
def nthSortedItemAfter (items : List DelegateId) (start : DelegateId) (n : Nat) :
    Except Thrown DelegateId :=
  if items.isEmpty then .error .topDelegatesEmpty
  else
    let startIndex := items.findIdx fun item => decide (start ≤ item)
    let startIndex := if startIndex = items.length then 0 else startIndex
    .ok (items.getD ((startIndex + n) % items.length) 0)

/-- Most votes first.  The order among entries that the comparison cannot tell
apart is not specified by the source. -/
def Delegates.byVotes (ds : Delegates) : List DelegateId :=
  ((ds.toList.insertionSort fun a b => b.2.votesLt a.2 = false).reverse).map (·.1)

def Delegates.top (numDelegates : Nat) (ds : Delegates) : OrdSet DelegateId :=
  OrdSet.ofElems (ds.byVotes.take numDelegates)

namespace Storage

section Delegates

variable (env : Env)

/-- The second sort of the source, by rank, only fills caches; its comparison
throws if a rank cannot be computed and there is something to compare. -/
def recalculateTopDelegates (s : Storage) : Except Interrupted (Bool × Storage) :=
  if s.ledger.delegates.toList.any fun item => decide (maxVote < item.2.totalVotes) then
    .ok (false, s)
  else
    let s := { s with topDelegates := s.ledger.delegates.top env.config.dposNumDelegates }
    if 2 ≤ s.ledger.delegates.toList.length ∧
        s.ledger.delegates.toList.any (fun item => item.2.rankThrows) = true then
      .error ⟨.morePositiveThanTotalVotes, s⟩
    else .ok (true, s)

def nthDelegateAfter (s : Storage) (start : DelegateId) (n : Nat) : Except Thrown DelegateId :=
  nthSortedItemAfter s.topDelegates.elems start n

def getSigningDelegate (s : Storage) (blockPrev : Block) (forTimestamp : UInt64) :
    Except Thrown (Option DelegateId) :=
  if s.ledger.delegates.toList.isEmpty then .ok none
  else if forTimestamp < blockPrev.timestamp + cryptonoteDposBlockMinimumBlockSpacing then .ok none
  else
    let secondsSincePrev := forTimestamp - blockPrev.timestamp
    let slots := (secondsSincePrev / dposDelegateSlotTime).toNat
    let next (prevDelegate : DelegateId) : Except Thrown (Option DelegateId) := do
      let result ← s.nthDelegateAfter (prevDelegate + 1) slots
      .ok (if s.ledger.delegates.contains result then some result else none)
    if getBlockHeight blockPrev = UInt64.ofNat env.config.dposSwitchBlock - 1 then
      if isPowBlock blockPrev then next 0 else .ok none
    else if isPosBlock blockPrev then next blockPrev.signingDelegateId
    else .ok none

/-- The delegates whose slots passed between two delegate blocks. -/
def missedDelegates (s : Storage) (bl blockPrev : Block) : Except Thrown (List DelegateId) :=
  let slots := ((bl.timestamp - blockPrev.timestamp) / dposDelegateSlotTime).toNat
  (List.range slots).mapM fun i => s.nthDelegateAfter (blockPrev.signingDelegateId + 1) i

def setDelegates (s : Storage) (ds : Delegates) : Storage :=
  { s with ledger := { s.ledger with delegates := ds } }

end Delegates

end Storage

namespace Delegates

def countMissed (missed : List DelegateId) (ds : Delegates) : Delegates :=
  missed.foldl
    (fun ds id => ds.modify id fun info => { info with missedBlocks := info.missedBlocks + 1 }) ds

def uncountMissed (missed : List DelegateId) (ds : Delegates) : Delegates :=
  missed.foldl
    (fun ds id => ds.modify id fun info => { info with missedBlocks := info.missedBlocks - 1 }) ds

def countProcessed (signer : DelegateId) (fees : UInt64) (ds : Delegates) : Delegates :=
  ds.modify signer fun info =>
    { info with
      processedBlocks := info.processedBlocks + 1
      feesReceived := info.feesReceived + fees }

def uncountProcessed (signer : DelegateId) (fees : UInt64) (ds : Delegates) : Delegates :=
  ds.modify signer fun info =>
    { info with
      processedBlocks := info.processedBlocks - 1
      feesReceived := info.feesReceived - fees }

end Delegates

end Pebblecoin
