import Pebblecoin.InputConflicts
import Pebblecoin.RunRecords

/-!
The choice of the pool transactions that go into a block template, and what the pool
remembers about those it has looked at before.
-/

namespace Pebblecoin

open Control Wire

variable {tx : Transaction} {s : Storage} {pool : TxMemoryPool} {r : Bool}

def TxIn.isGradeContract : TxIn → Bool
  | .gradeContract _ => true
  | _ => false

/-- The template while it is filled. -/
structure TemplateTxs where
  txHashes : List Hash
  totalSize : UInt64
  fee : UInt64
  icc : TxInputCompatChecker

namespace Storage

section Readiness

variable (env : Env) (now : UInt64)

/-- What is remembered decides that the transaction is not ready, without a look at
its inputs. -/
def settledByMemory (memory : CheckMemory) (s : Storage) : Bool :=
  if memory.maxUsedBlockId = nullHash then
    decide (memory.lastFailedId ≠ nullHash) &&
      decide (memory.lastFailedHeight < s.getCurrentBlockchainHeight) &&
      decide (memory.lastFailedId = s.getBlockIdByHeight memory.lastFailedHeight)
  else
    decide (s.getCurrentBlockchainHeight ≤ memory.maxUsedBlockHeight) ||
      (decide (s.getBlockIdByHeight memory.maxUsedBlockHeight ≠ memory.maxUsedBlockId) &&
        decide (memory.lastFailedId = s.getBlockIdByHeight memory.lastFailedHeight))

/-- The height of the last block used is overwritten by every check, the id that it is
compared with is not. -/
def isTransactionReadyToGo (tx : Transaction) (memory : CheckMemory) (s : Storage) :
    Except Thrown (Bool × CheckMemory) :=
  if s.settledByMemory memory then .ok (false, memory)
  else do
    let valid ← s.validateTx env now tx false
    let memory := { memory with
      maxUsedBlockHeight := s.maxUsedBlockHeight env now tx memory.maxUsedBlockHeight }
    if valid then .ok (true, memory)
    else
      let height := s.getCurrentBlockchainHeight - 1
      .ok (false, { memory with
        lastFailedHeight := height
        lastFailedId := s.getBlockIdByHeight height })

def setMemory (id : Hash) (memory : CheckMemory) (s : Storage) : Storage :=
  { s with pool := { s.pool with memory := Function.update s.pool.memory id memory } }

/-- The height is overwritten even if the check throws. -/
def lookAt (id : Hash) (d : TxDetails) (s : Storage) : Except Interrupted (Bool × Storage) := do
  let memory := s.pool.memory id
  let (ready, memory) ← reading (s.setMemory id { memory with
      maxUsedBlockHeight := s.maxUsedBlockHeight env now d.tx memory.maxUsedBlockHeight })
    (s.isTransactionReadyToGo env now d.tx memory)
  .ok (ready, s.setMemory id memory)

/-- One transaction of the pool in one of the two passes. -/
def fillWith (maxTotalSize : UInt64) (onlyGrading : Bool) (t : TemplateTxs × Storage) (id : Hash) :
    Except Interrupted (TemplateTxs × Storage) :=
  let (template, s) := t
  match s.pool.transactions id with
  | none => .ok t
  | some d =>
    if template.txHashes.contains id then .ok t
    else if maxTotalSize < template.totalSize + UInt64.ofNat d.blobSize then .ok t
    else if onlyGrading && !d.tx.vin.any TxIn.isGradeContract then .ok t
    else do
      let (ready, s) ← s.lookAt env now id d
      if !ready || !template.icc.canAddTx d.tx then .ok (template, s)
      else
        .ok ({ txHashes := template.txHashes ++ [id]
               totalSize := template.totalSize + UInt64.ofNat d.blobSize
               fee := template.fee + d.fee
               icc := (template.icc.addTx d.tx).getD template.icc }, s)

/-- The transactions that grade a contract go first.  The pool is a hash table, so its
transactions come in some order that is given here. -/
def fillBlockTemplate (order : List Hash) (medianSize : UInt64) (s : Storage) :
    Except Interrupted (TemplateTxs × Storage) := do
  let maxTotalSize := 2 * medianSize - cryptonoteCoinbaseBlobReservedSize
  let t ← order.foldlM (fillWith env now maxTotalSize true)
    (⟨[], 0, 0, TxInputCompatChecker.empty⟩, s)
  order.foldlM (fillWith env now maxTotalSize false) t

end Readiness

variable {env : Env} {now : UInt64}

theorem valid_of_isTransactionReadyToGo {memory memory' : CheckMemory}
    (h : s.isTransactionReadyToGo env now tx memory = .ok (true, memory')) :
    s.validateTx env now tx false = .ok true := by
  unfold isTransactionReadyToGo at h
  split at h
  · cases h
  · obtain ⟨valid, hvalid, h⟩ := bind_eq_ok_iff.mp h
    cases valid with
    | true => exact hvalid
    | false => cases h

theorem isTransactionReadyToGo_of_valid {memory : CheckMemory}
    (hopen : s.settledByMemory memory = false) (hvalid : s.validateTx env now tx false = .ok true) :
    ∃ memory', s.isTransactionReadyToGo env now tx memory = .ok (true, memory') := by
  simp [isTransactionReadyToGo, hopen, hvalid, Bind.bind, Except.bind]

/-- What is remembered leaves the question open.  The block of the last failure is gone,
or, for a transaction that was valid when it came, the block of its newest input is where
it was, or there was no failure. -/
def LooksAgain (memory : CheckMemory) (s : Storage) : Prop :=
  (memory.maxUsedBlockId = nullHash ∧
      (memory.lastFailedId = nullHash ∨
        s.getBlockIdByHeight memory.lastFailedHeight ≠ memory.lastFailedId)) ∨
    (memory.maxUsedBlockId ≠ nullHash ∧ memory.maxUsedBlockHeight < s.entries.length ∧
      (s.getBlockIdByHeight memory.maxUsedBlockHeight = memory.maxUsedBlockId ∨
        s.getBlockIdByHeight memory.lastFailedHeight ≠ memory.lastFailedId))

instance decidableLooksAgain (memory : CheckMemory) (s : Storage) :
    Decidable (s.LooksAgain memory) :=
  inferInstanceAs (Decidable (_ ∧ _ ∨ _ ∧ _))

theorem settledByMemory_eq_false_iff {memory : CheckMemory} :
    s.settledByMemory memory = false ↔ s.LooksAgain memory := by
  -- above the chain there is no block, so the block of a failure tells its height
  have hheight : memory.lastFailedId ≠ nullHash →
      memory.lastFailedId = s.getBlockIdByHeight memory.lastFailedHeight →
        memory.lastFailedHeight < s.entries.length := by
    intro hne heq
    by_contra hge
    rw [getBlockIdByHeight, List.getElem?_eq_none (by omega)] at heq
    exact hne heq
  unfold settledByMemory LooksAgain getCurrentBlockchainHeight
  by_cases hnull : memory.maxUsedBlockId = nullHash
  · rw [if_pos hnull]
    simp only [hnull, ne_eq, not_true_eq_false, false_and, or_false, true_and,
      Bool.and_eq_false_iff, decide_eq_false_iff_not, Decidable.not_not]
    grind
  · rw [if_neg hnull]
    simp only [hnull, ne_eq, not_false_eq_true, true_and, false_and, false_or,
      Bool.or_eq_false_iff, Bool.and_eq_false_iff, decide_eq_false_iff_not, Decidable.not_not, not_le]
    grind

theorem isTransactionReadyToGo_iff_validateTx_iff (tx : Transaction) (memory : CheckMemory)
    (s : Storage) :
    ((∃ memory', s.isTransactionReadyToGo env now tx memory = .ok (true, memory')) ↔
        s.validateTx env now tx false = .ok true) ↔
      (s.validateTx env now tx false = .ok true → s.LooksAgain memory) := by
  rw [← settledByMemory_eq_false_iff]
  constructor
  · intro hexact hvalid
    obtain ⟨memory', hready⟩ := hexact.mpr hvalid
    by_contra hsettled
    rw [Bool.not_eq_false] at hsettled
    simp [isTransactionReadyToGo, hsettled] at hready
  · intro hopen
    refine ⟨fun ⟨_, hready⟩ => valid_of_isTransactionReadyToGo hready, fun hvalid => ?_⟩
    exact isTransactionReadyToGo_of_valid (hopen hvalid) hvalid

theorem checkTxInput_withPool {i : Nat} {inp : TxIn}
    (h : checkTxInput env now { s with pool := pool } tx i inp = .ok r) :
    s.checkTxInput env now tx i inp = .ok r := by
  cases inp with
  | registerDelegate inp =>
    simp only [checkTxInput, checkTxInRegisterDelegate] at h ⊢
    split at h
    · rwa [if_pos ‹_›]
    rw [if_neg ‹_›]
    split at h
    · rwa [if_pos ‹_›]
    rw [if_neg ‹_›]
    split at h
    · rwa [if_pos ‹_›]
    rw [if_neg ‹_›]
    split at h
    · rwa [if_pos ‹_›]
    rw [if_neg ‹_›]
    obtain ⟨average, haverage, hrest⟩ := bind_eq_ok_iff.mp h
    refine bind_eq_ok_iff.mpr ⟨average, ?_, hrest⟩
    have hmono := @averagePastBlockFees_mono { s with pool := pool } s s.registrationForHeight rfl
      (fun _ _ _ hb => hb) (fun _ _ he => he) average
    exact hmono haverage
  | _ => exact h

theorem checkTxInputsFrom_withPool {i : Nat} {ins : List TxIn}
    (h : checkTxInputsFrom env now { s with pool := pool } tx i ins = .ok r) :
    s.checkTxInputsFrom env now tx i ins = .ok r := by
  induction ins generalizing i with
  | nil => exact h
  | cons inp ins ih =>
    obtain ⟨passed, hinp, hrest⟩ := bind_eq_ok_iff.mp h
    refine bind_eq_ok_iff.mpr ⟨passed, checkTxInput_withPool hinp, ?_⟩
    cases passed with
    | true => exact ih hrest
    | false => exact hrest

theorem validateTx_withPool {isMinerTx : Bool}
    (h : validateTx env now { s with pool := pool } tx isMinerTx = .ok r) :
    s.validateTx env now tx isMinerTx = .ok r := by
  unfold validateTx at h ⊢
  split at h
  · rwa [if_pos ‹_›]
  · rw [if_neg ‹_›]
    obtain ⟨passed, hpassed, hrest⟩ := bind_eq_ok_iff.mp h
    refine bind_eq_ok_iff.mpr ⟨passed, ?_, hrest⟩
    unfold checkTxInputs at hpassed ⊢
    split at hpassed
    · cases hpassed
    · exact checkTxInputsFrom_withPool hpassed

/-- The last failure on record is the one of before, or one on the chain as it is. -/
def RecordsFailure (env : Env) (now : UInt64) (tx : Transaction) (memory memory' : CheckMemory)
    (s : Storage) : Prop :=
  (memory'.lastFailedHeight = memory.lastFailedHeight ∧ memory'.lastFailedId = memory.lastFailedId) ∨
    (s.validateTx env now tx false = .ok false ∧
      memory'.lastFailedHeight = s.entries.length - 1 ∧
      memory'.lastFailedId = s.getBlockIdByHeight (s.entries.length - 1))

theorem recordsFailure_of_isTransactionReadyToGo {memory memory' : CheckMemory}
    (h : s.isTransactionReadyToGo env now tx memory = .ok (r, memory')) :
    RecordsFailure env now tx memory memory' s := by
  unfold isTransactionReadyToGo at h
  split at h
  · obtain ⟨-, rfl⟩ := Prod.mk.inj (Except.ok.inj h)
    exact Or.inl ⟨rfl, rfl⟩
  · obtain ⟨valid, hvalid, h⟩ := bind_eq_ok_iff.mp h
    cases valid with
    | true =>
      obtain ⟨-, rfl⟩ := Prod.mk.inj (Except.ok.inj h)
      exact Or.inl ⟨rfl, rfl⟩
    | false =>
      obtain ⟨-, rfl⟩ := Prod.mk.inj (Except.ok.inj h)
      exact Or.inr ⟨hvalid, rfl, rfl⟩

/-- What the filling of a template keeps: the chain and the transactions of the pool stay,
the transactions listed so far are in the pool and valid, and the failures put on record
are those of the checks. -/
structure Filling (env : Env) (now : UInt64) (s : Storage) (t : TemplateTxs × Storage) : Prop where
  frame : ∃ memory, t.2 = { s with pool := { s.pool with memory := memory } }
  valid : ∀ id ∈ t.1.txHashes, ∃ d, s.pool.transactions id = some d ∧
    s.validateTx env now d.tx false = .ok true
  failures : ∀ id d, s.pool.transactions id = some d →
    RecordsFailure env now d.tx (s.pool.memory id) (t.2.pool.memory id) s

theorem Filling.fillWith {t : TemplateTxs × Storage} (h : Filling env now s t)
    (maxTotalSize : UInt64) (onlyGrading : Bool) (id : Hash) :
    Returns (fillWith env now maxTotalSize onlyGrading t id) (Filling env now s) := by
  have hsame := h
  obtain ⟨template, u⟩ := t
  obtain ⟨⟨memory, rfl⟩, hvalid, hfailures⟩ := h
  simp only [Storage.fillWith]
  split
  · exact Returns.ok_iff.mpr hsame
  rename_i d hd
  split
  · exact Returns.ok_iff.mpr hsame
  split
  · exact Returns.ok_iff.mpr hsame
  split
  · exact Returns.ok_iff.mpr hsame
  refine ⟨fun r hr => ?_⟩
  obtain ⟨⟨ready, u⟩, hlook, hr⟩ := bind_eq_ok_iff.mp hr
  obtain ⟨⟨ready', memory'⟩, hready, hlook⟩ := reading_bind_eq_ok_iff.mp hlook
  obtain ⟨rfl, rfl⟩ := Prod.mk.inj (Except.ok.inj hlook)
  have hfailures' : ∀ j e, s.pool.transactions j = some e →
      RecordsFailure env now e.tx (s.pool.memory j) (Function.update memory id memory' j) s := by
    intro j e he
    by_cases hj : j = id
    · subst hj
      obtain rfl := Option.some.inj (hd.symm.trans he)
      rw [Function.update_self]
      rcases recordsFailure_of_isTransactionReadyToGo hready with ⟨hheight, hid⟩ | ⟨hfailed, hnew⟩
      · refine (hfailures j d he).imp (fun hold => ?_) fun hnew => ⟨hnew.1, ?_⟩
        · exact ⟨hheight.trans hold.1, hid.trans hold.2⟩
        · exact ⟨hheight.trans hnew.2.1, hid.trans hnew.2.2⟩
      · exact Or.inr ⟨validateTx_withPool hfailed, hnew⟩
    · rw [Function.update_of_ne hj]
      exact hfailures j e he
  split at hr
  · obtain rfl := Except.ok.inj hr
    exact ⟨⟨_, rfl⟩, hvalid, hfailures'⟩
  · rename_i hadded
    obtain rfl := Except.ok.inj hr
    refine ⟨⟨_, rfl⟩, fun j hj => ?_, hfailures'⟩
    rcases List.mem_append.mp hj with hj | hj
    · exact hvalid j hj
    · obtain rfl := List.mem_singleton.mp hj
      obtain rfl : ready' = true := by
        cases ready' with
        | true => rfl
        | false => simp at hadded
      exact ⟨d, hd, validateTx_withPool (valid_of_isTransactionReadyToGo hready)⟩

theorem Filling.foldlM {t : TemplateTxs × Storage} (h : Filling env now s t) (maxTotalSize : UInt64)
    (onlyGrading : Bool) (order : List Hash) :
    Returns (order.foldlM (Storage.fillWith env now maxTotalSize onlyGrading) t)
      (Filling env now s) := by
  induction order generalizing t with
  | nil => exact Returns.ok_iff.mpr h
  | cons id order ih =>
    rw [List.foldlM_cons]
    exact Returns.bind (h.fillWith maxTotalSize onlyGrading id) fun t' ht' => ih ht'

theorem fillBlockTemplate_filling (order : List Hash) (medianSize : UInt64) (s : Storage) :
    Returns (s.fillBlockTemplate env now order medianSize) (Filling env now s) := by
  have hstart : Filling env now s (⟨[], 0, 0, TxInputCompatChecker.empty⟩, s) :=
    ⟨⟨s.pool.memory, rfl⟩, fun _ hid => (by cases hid), fun _ _ _ => Or.inl ⟨rfl, rfl⟩⟩
  exact Returns.bind (hstart.foldlM _ true order) fun t ht => ht.foldlM _ false order

/-- What happens to a node: operations that change the chain or the pool, and requests for
a template. -/
inductive Request where
  | operation (op : Op)
  | fillBlockTemplate (order : List Hash) (medianSize : UInt64)

section Requests

variable (env : Env)

def request (now : UInt64) (r : Request) (s : Storage) : Except Thrown Storage :=
  match r with
  | .operation op => s.step env now op
  | .fillBlockTemplate order medianSize => .ok
    (match s.fillBlockTemplate env now order medianSize with
      | .ok (_, s') => s'
      | .error e => e.storage)

def requests : List (UInt64 × Request) → Storage → Except Thrown Storage
  | [], s => .ok s
  | (now, r) :: rs, s => do requests rs (← s.request env now r)

/-- No call of the run throws after it has changed something. -/
def Calm : List (UInt64 × Request) → Storage → Prop
  | [], _ => True
  | (now, r) :: rs, s =>
    (match r with
      | .operation op => ∀ e, s.call env now op = .error e → e.storage = s
      | .fillBlockTemplate order medianSize =>
        ∀ e, s.fillBlockTemplate env now order medianSize = .error e → e.storage = s) ∧
      ∀ s', s.request env now r = .ok s' → Calm rs s'

/-- At some point of the run the transaction was not valid, and this was the last block. -/
def FailedOn (tx : Transaction) (height : Nat) (id : Hash) (rs : List (UInt64 × Request))
    (s : Storage) : Prop :=
  ∃ before later u now, rs = before ++ later ∧ s.requests env before = .ok u ∧
    u.validateTx env now tx false = .ok false ∧ height = u.entries.length - 1 ∧
    id = u.getBlockIdByHeight height

end Requests

/-- Each transaction of the pool was there before and the same is remembered of it, or no
failure is. -/
def Recalls (s s' : Storage) : Prop :=
  ∀ id d, s'.pool.transactions id = some d → (s'.pool.memory id).lastFailedId = nullHash ∨
    s.pool.transactions id = some d ∧ s'.pool.memory id = s.pool.memory id

section Recalls

variable {s₀ s' : Storage}

theorem Recalls.congr (h : Recalls s₀ s) (hpool : s'.pool = s.pool) : Recalls s₀ s' := by
  rw [Recalls, hpool]
  exact h

theorem Recalls.take {id : Hash} {d : TxDetails} (h : Recalls s₀ s)
    (htake : s.pool.takeTx env.crypto id = some (d, pool)) (hpool : s'.pool = pool) :
    Recalls s₀ s' := by
  intro j e he
  have hmemory : pool.memory = s.pool.memory := by
    obtain ⟨d', -, heq⟩ := Option.map_eq_some_iff.mp htake
    obtain ⟨-, rfl⟩ := Prod.mk.inj heq
    refine allApply_keeps (P := fun p : TxMemoryPool => p.memory = s.pool.memory) (fun inp _ p hp => ?_) rfl
    rw [← hp]
    unfold TxMemoryPool.removeInp
    split
    · rfl
    · rfl
    · split
      · rfl
      · split_ifs <;> rfl
  rw [hpool, (TxMemoryPool.takeTx_eq_some htake).2, Function.update_apply] at he
  split_ifs at he
  rw [hpool, hmemory]
  exact h j e he

theorem Recalls.insertIntoPool (h : Recalls s₀ s) (tx : Transaction) (id : Hash) (blobSize : Nat)
    (fee : UInt64) (kept : Bool) {memory : CheckMemory} (hmemory : memory.lastFailedId = nullHash) :
    Recalls s₀ (Storage.insertIntoPool tx id blobSize fee kept memory s).2 := by
  have hkeep : (Storage.insertIntoPool tx id blobSize fee kept memory s).2.pool.memory =
      Function.update s.pool.memory id memory := by
    refine allApply_keeps (P := fun p : TxMemoryPool => p.memory =
      Function.update s.pool.memory id memory) (fun inp _ p hp => ?_) rfl
    rw [← hp]
    unfold TxMemoryPool.addInp
    split
    · rfl
    · rfl
    · dsimp only
      split_ifs <;> rfl
  intro j e he
  rw [insertIntoPool_transactions, Function.update_apply] at he
  rw [hkeep, Function.update_apply]
  split_ifs at he ⊢ with hj
  · exact Or.inl hmemory
  · exact h j e he

theorem Recalls.poolAddTx (h : Recalls s₀ s) (tx : Transaction) (id : Hash) (blobSize : Nat)
    (kept : Bool) : Returns (s.poolAddTx env now tx id blobSize kept) fun r =>
      Recalls s₀ r.2.2 := by
  unfold Storage.poolAddTx
  split
  · exact Returns.ok_iff.mpr h
  split
  · exact Returns.ok_iff.mpr h
  split
  · exact Returns.ok_iff.mpr h
  split
  · exact Returns.ok_iff.mpr h
  refine Returns.bind_const fun valid => ?_
  split
  · exact Returns.ok_iff.mpr h
  split
  · exact Returns.ok_iff.mpr h
  · refine Returns.ok_iff.mpr (h.insertIntoPool _ _ _ _ _ ?_)
    unfold entryMemory
    split <;> rfl

theorem Recalls.returnToPool (h : Recalls s₀ s) (tx : Transaction) :
    Returns (s.returnToPool env now tx) fun r => Recalls s₀ r.2 := by
  unfold Storage.returnToPool
  split
  · exact Returns.ok_iff.mpr h
  · exact Returns.bind (h.poolAddTx ..) fun r hr => Returns.ok_iff.mpr hr

theorem recalls_txInvariant (s₀ : Storage) : TxInvariant env now (Recalls s₀) where
  congr h hpool _ := h.congr hpool
  purge txId s h := by
    unfold purgeTransactionFromBlockchain
    split
    · exact Returns.ok_iff.mpr h
    split
    · exact Returns.ok_iff.mpr (h.congr rfl)
    · dsimp only
      split
      · exact Returns.ok_iff.mpr (h.congr rfl)
      · rename_i entry _ _ ledger _ _
        have h' : Recalls s₀ { s with ledger := ledger } := h.congr rfl
        refine Returns.bind (P := Recalls s₀) (Returns.map (h'.returnToPool entry.tx)) fun t ht => ?_
        exact Returns.ok_iff.mpr (ht.congr rfl)
  putBack h htake hpool _ := (h.take htake hpool).returnToPool _
  connect {_ d pool s _} h htake hadd := by
    obtain ⟨l, -, rfl⟩ := enterTransaction_eq_true hadd
    exact h.take htake rfl

theorem Recalls.action {D : Block → Prop} (h : Recalls s₀ s) (hs : s.Sound env)
    (haction : Action env D now s s') : Recalls s₀ s' := by
  cases haction with
  | connect _ _ _ hr =>
    refine ((recalls_txInvariant s₀).handleBlockToMainChain _ h fun _ => h.congr ?_).out _ hr
    unfold enterTransaction
    split <;> rfl
  | disconnect hr => exact ((recalls_txInvariant s₀).popBlockFromBlockchain h).out _ hr
  | place _ _ _ hplace =>
    obtain ⟨-, rfl⟩ := placeAlternativeBlock_eq_ok hplace
    exact h.congr rfl
  | markInvalid ids hbody hbent =>
    rw [markBranchInvalid_eq ids (hs.alternatives _ _ hbent).1 hbody]
    exact h.congr rfl
  | _ => exact h.congr rfl

theorem Recalls.handleIncomingTx (h : Recalls s₀ s) (blob : Bytes) (kept : Bool) :
    Returns (s.handleIncomingTx env now blob kept) fun r => Recalls s₀ r.2.2 := by
  unfold Storage.handleIncomingTx
  split
  · exact Returns.ok_iff.mpr h
  split
  · exact Returns.ok_iff.mpr h
  split
  · exact Returns.ok_iff.mpr h
  split
  · exact Returns.ok_iff.mpr h
  · exact h.poolAddTx ..

theorem recalls_of_call {op : Op} (hs : s.Sound env) (h : s.call env now op = .ok s') :
    s'.Sound env ∧ Recalls s s' := by
  obtain ⟨hcalm, hrun⟩ := uninterrupted_of_call h
  refine run_invariant (fun _ => True) (fun _ => True) (fun _ _ => True) (Recalls s)
    (fun _ _ ht hr => (ht.handleIncomingTx ..).out _ hr) (fun hs ht haction => ht.action hs haction)
    (fun _ ht => ht.congr rfl) hs (fun id d hd => Or.inr ⟨hd, rfl⟩) (fun op _ => ?_) hcalm hrun
  obtain ⟨now, op⟩ := op
  cases op <;> exact trivial

end Recalls

section Runs

variable {rs : List (UInt64 × Request)} {s' : Storage} {id : Hash} {d : TxDetails}

theorem FailedOn.cons {now : UInt64} {r : Request} {u : Storage} {height : Nat}
    (hr : s.request env now r = .ok u) (h : FailedOn env tx height id rs u) :
    FailedOn env tx height id ((now, r) :: rs) s := by
  obtain ⟨before, later, v, now', rfl, hrun, hfailed⟩ := h
  exact ⟨(now, r) :: before, later, v, now', rfl, bind_eq_ok_iff.mpr ⟨u, hr, hrun⟩, hfailed⟩

/-- A failure on record was a failure of this run. -/
theorem failedOn_of_requests (hs : s.Sound env) (hcalm : s.Calm env rs)
    (hrun : s.requests env rs = .ok s') (hd : s'.pool.transactions id = some d)
    (hfailed : (s'.pool.memory id).lastFailedId ≠ nullHash) :
    FailedOn env d.tx (s'.pool.memory id).lastFailedHeight (s'.pool.memory id).lastFailedId rs s ∨
      s.pool.transactions id = some d ∧
        (s.pool.memory id).lastFailedHeight = (s'.pool.memory id).lastFailedHeight ∧
        (s.pool.memory id).lastFailedId = (s'.pool.memory id).lastFailedId := by
  induction rs generalizing s with
  | nil =>
    obtain rfl := Except.ok.inj hrun
    exact Or.inr ⟨hd, rfl, rfl⟩
  | cons r rs ih =>
    obtain ⟨now, r⟩ := r
    obtain ⟨u, hr, hrest⟩ := bind_eq_ok_iff.mp hrun
    have hcalm' := hcalm.2 u hr
    cases r with
    | operation op =>
      have hu : u.Sound env ∧ Recalls s u := by
        rcases step_cases hcalm.1 hr with hcall | rfl
        · exact recalls_of_call hs hcall
        · exact ⟨hs, fun id d hd => Or.inr ⟨hd, rfl⟩⟩
      rcases ih hu.1 hcalm' hrest with hlater | ⟨hd', hheight, hid⟩
      · exact Or.inl (hlater.cons hr)
      · rcases hu.2 id d hd' with hnull | ⟨hold, hmemory⟩
        · exact absurd (hid.symm.trans hnull) hfailed
        · rw [hmemory] at hheight hid
          exact Or.inr ⟨hold, hheight, hid⟩
    | fillBlockTemplate order medianSize =>
      cases hfill : s.fillBlockTemplate env now order medianSize with
      | error e =>
        obtain rfl : e.storage = u := by simpa [request, hfill] using hr
        have hsame := hcalm.1 e hfill
        rcases ih (hsame ▸ hs) hcalm' hrest with hlater | hold
        · exact Or.inl (hlater.cons hr)
        · rw [hsame] at hold
          exact Or.inr hold
      | ok t =>
        obtain rfl : t.2 = u := by simpa [request, hfill] using hr
        obtain ⟨⟨memory, hmemory⟩, -, hfailures⟩ := (fillBlockTemplate_filling ..).out _ hfill
        have hsound : t.2.Sound env := by
          rw [hmemory]
          exact ⟨⟨hs.popping, ⟨hs.vetted.pool, hs.vetted.chain⟩, ⟨hs.chain.indexed, hs.chain.bodies⟩,
            hs.nonempty⟩, hs.hashes, hs.alternatives⟩
        rcases ih hsound hcalm' hrest with hlater | ⟨hd', hheight, hid⟩
        · exact Or.inl (hlater.cons hr)
        have hd₀ : s.pool.transactions id = some d := by
          rw [hmemory] at hd'
          exact hd'
        rcases hfailures id d hd₀ with ⟨hheight₀, hid₀⟩ | ⟨hinvalid, hheight₀, hid₀⟩
        · exact Or.inr ⟨hd₀, hheight₀.symm.trans hheight, hid₀.symm.trans hid⟩
        · rw [← hheight, ← hid, hheight₀, hid₀]
          exact Or.inl ⟨[], _, s, now, rfl, rfl, hinvalid, rfl, rfl⟩

/-- A transaction of the pool that is valid is called ready exactly if what is remembered
leaves the question open: it came in valid and the block of its newest input is where it
was, or the block on which it failed last is no longer on the chain.  A failure on record
is one of this run, since the transaction came. -/
theorem ready_iff_valid_iff (hrun : s.requests env rs = .ok s')
    (hd : s'.pool.transactions id = some d) (now : UInt64) :
    (((∃ memory, s'.isTransactionReadyToGo env now d.tx (s'.pool.memory id) = .ok (true, memory)) ↔
        s'.validateTx env now d.tx false = .ok true) ↔
      (s'.validateTx env now d.tx false = .ok true → s'.LooksAgain (s'.pool.memory id))) ∧
    (s.Initial env → s.Calm env rs → (s'.pool.memory id).lastFailedId ≠ nullHash →
      FailedOn env d.tx (s'.pool.memory id).lastFailedHeight (s'.pool.memory id).lastFailedId
        rs s) := by
  refine ⟨isTransactionReadyToGo_iff_validateTx_iff .., fun hinit hcalm hfailed => ?_⟩
  refine (failedOn_of_requests hinit.sound hcalm hrun hd hfailed).resolve_right fun hold => ?_
  obtain ⟨now, genesis, id', taken, l, fee, base, prev, -, happ⟩ := hinit.appended
  have hpool := hold.1
  simp only [happ.pool] at hpool
  split_ifs at hpool
  cases hpool

end Runs

def sampleOnlyGenesis : Storage := (play samplePowEnv 1000 sampleGenesis []).getD Storage.empty

/-- Spends the reward of the first block, which is locked for some blocks. -/
def sampleEarlySpend : Transaction :=
  sampleTx [.toKey (sampleInk sampleReward 100)] [sampleReward - 1000000000]

def sampleArrival : UInt64 × Request :=
  (1000, .operation (.handleIncomingTx ((serializeTransaction sampleEarlySpend).getD []) true))

def sampleAsking : UInt64 × Request :=
  (1000, .fillBlockTemplate [sampleTxId sampleEarlySpend] 10000)

def sampleGrowth : List (UInt64 × Request) :=
  sampleFirstBlocks.map fun b => (1000, .operation (.addNewBlock 0 b))

/-- The transaction is in the pool and valid at the end. -/
def sampleAsked (rs : List (UInt64 × Request)) (test : Storage → CheckMemory → Bool) : Bool :=
  (sampleOnlyGenesis.requests samplePowEnv rs).toOption.any fun s =>
    (s.pool.transactions (sampleTxId sampleEarlySpend)).any (fun d => decide (d.tx = sampleEarlySpend)) &&
    (s.validateTx samplePowEnv 1000 sampleEarlySpend false).toOption.any id &&
    test s (s.pool.memory (sampleTxId sampleEarlySpend))

theorem exists_of_sampleAsked {rs : List (UInt64 × Request)} {test : Storage → CheckMemory → Bool}
    (h : sampleAsked rs test = true) : ∃ s d,
      sampleOnlyGenesis.requests samplePowEnv rs = .ok s ∧
      s.pool.transactions (sampleTxId sampleEarlySpend) = some d ∧ d.tx = sampleEarlySpend ∧
      s.validateTx samplePowEnv 1000 sampleEarlySpend false = .ok true ∧
      test s (s.pool.memory (sampleTxId sampleEarlySpend)) = true := by
  obtain ⟨s, hrun, hs⟩ := (Option.any_eq_true _ _).mp h
  simp only [Bool.and_eq_true] at hs
  obtain ⟨⟨hany, hvalid⟩, htest⟩ := hs
  obtain ⟨d, hd, htx⟩ := (Option.any_eq_true _ _).mp hany
  obtain ⟨valid, hvalid, rfl⟩ := (Option.any_eq_true _ _).mp hvalid
  exact ⟨s, d, eq_ok_of_toOption hrun, hd, of_decide_eq_true htx, eq_ok_of_toOption hvalid, htest⟩

/-- It comes when it is valid, and is asked for again after a template. -/
theorem ready_of_sampleEarlySpend : ∃ s d,
    sampleOnlyGenesis.requests samplePowEnv (sampleGrowth ++ [sampleArrival, sampleAsking]) =
        .ok s ∧
      s.pool.transactions (sampleTxId sampleEarlySpend) = some d ∧
      s.validateTx samplePowEnv 1000 d.tx false = .ok true ∧
      ∃ memory, s.isTransactionReadyToGo samplePowEnv 1000 d.tx
        (s.pool.memory (sampleTxId sampleEarlySpend)) = .ok (true, memory) := by
  have hasked : sampleAsked (sampleGrowth ++ [sampleArrival, sampleAsking])
      (fun s memory => decide (s.LooksAgain memory)) = true := by decide +kernel
  obtain ⟨s, d, hrun, hd, htx, hvalid, hopen⟩ := exists_of_sampleAsked hasked
  rw [← htx] at hvalid
  exact ⟨s, d, hrun, hd, hvalid, ((ready_iff_valid_iff hrun hd 1000).1.mpr fun _ =>
    of_decide_eq_true hopen).mpr hvalid⟩

/-- It comes with a block before its time and is asked for once; then the chain grows. -/
theorem hidden_of_sampleEarlySpend : ∃ s d,
    sampleOnlyGenesis.ReachedBy samplePowEnv sampleGenesis [] ∧
      sampleOnlyGenesis.requests samplePowEnv (sampleArrival :: sampleAsking :: sampleGrowth) =
        .ok s ∧
      s.pool.transactions (sampleTxId sampleEarlySpend) = some d ∧
      s.validateTx samplePowEnv 1000 d.tx false = .ok true ∧
      ∃ memory, s.isTransactionReadyToGo samplePowEnv 1000 d.tx
        (s.pool.memory (sampleTxId sampleEarlySpend)) = .ok (false, memory) := by
  have hasked : sampleAsked (sampleArrival :: sampleAsking :: sampleGrowth)
      (fun s memory => s.settledByMemory memory) = true := by decide +kernel
  obtain ⟨s, d, hrun, hd, htx, hvalid, hsettled⟩ := exists_of_sampleAsked hasked
  rw [← htx] at hvalid
  exact ⟨s, d, reachedBy_of_play (by decide +kernel), hrun, hd, hvalid, _, if_pos hsettled⟩

end Storage

end Pebblecoin
