import Pebblecoin.ChainRecords
import Pebblecoin.Operations

/-!
The transactions a run deals with, and the records of the main chain it leads to.
-/

namespace Pebblecoin

open Containers Control Wire

section Identified

variable (crypto : Crypto)

/-- The miner transaction of a block under its hash. -/
def Block.minerPair (bl : Block) : Hash × Transaction :=
  ((getTransactionHash crypto bl.minerTx).getD nullHash, bl.minerTx)

/-- The transactions that an operation brings in, under the ids that the node may
give them: that of the received bytes and that of the transaction. -/
def Op.identified : Op → List (Hash × Transaction)
  | .handleIncomingTx blob _ =>
    (parseTransaction blob).toList.flatMap fun tx =>
      [(crypto.cnFastHash blob, tx), ((getTransactionHash crypto tx).getD nullHash, tx)]
  | .addNewBlock _ bl => [bl.minerPair crypto]
  | .popBlockFromBlockchain => []
  | .learnLonghash _ _ => []

def identified (genesis : Block) (ops : List (UInt64 × Op)) : List (Hash × Transaction) :=
  genesis.minerPair crypto :: ops.flatMap fun op => op.2.identified crypto

/-- No two different transactions of the run share an id. -/
def IdsUnique (genesis : Block) (ops : List (UInt64 × Op)) : Prop :=
  ∀ p ∈ identified crypto genesis ops, ∀ q ∈ identified crypto genesis ops, p.1 = q.1 → p.2 = q.2

instance idsUniqueDecidable (genesis : Block) (ops : List (UInt64 × Op)) :
    Decidable (IdsUnique crypto genesis ops) :=
  inferInstanceAs (Decidable (∀ p ∈ identified crypto genesis ops,
    ∀ q ∈ identified crypto genesis ops, p.1 = q.1 → p.2 = q.2))

end Identified

theorem identified_append {crypto : Crypto} {genesis : Block} {ops ops' : List (UInt64 × Op)}
    {p : Hash × Transaction} : p ∈ identified crypto genesis (ops ++ ops') ↔
      p ∈ identified crypto genesis ops ∨ p ∈ ops'.flatMap fun op => op.2.identified crypto := by
  simp [identified, or_assoc]

theorem IdsUnique.of_append {crypto : Crypto} {genesis : Block} {ops ops' : List (UInt64 × Op)}
    (h : IdsUnique crypto genesis (ops ++ ops')) : IdsUnique crypto genesis ops :=
  fun p hp q hq => h p (identified_append.mpr (Or.inl hp)) q (identified_append.mpr (Or.inl hq))

theorem Op.identified_rehashes {crypto : Crypto} {op : Op} {id : Hash} {tx : Transaction}
    (h : (id, tx) ∈ op.identified crypto) :
    ((getTransactionHash crypto tx).getD nullHash, tx) ∈ op.identified crypto := by
  cases op with
  | handleIncomingTx blob kept =>
    simp only [Op.identified, List.mem_flatMap, Option.mem_toList] at h ⊢
    obtain ⟨tx', htx', hmem⟩ := h
    refine ⟨tx', htx', ?_⟩
    simp only [List.mem_cons, Prod.mk.injEq, List.not_mem_nil, or_false] at hmem ⊢
    rcases hmem with ⟨-, rfl⟩ | ⟨-, rfl⟩
    · exact Or.inr ⟨rfl, rfl⟩
    · exact Or.inr ⟨rfl, rfl⟩
  | addNewBlock fuel bl =>
    simp only [Op.identified, Block.minerPair, List.mem_singleton, Prod.mk.injEq] at h ⊢
    obtain ⟨-, rfl⟩ := h
    exact ⟨rfl, rfl⟩
  | popBlockFromBlockchain => simp [Op.identified] at h
  | learnLonghash _ _ => simp [Op.identified] at h

namespace Storage

variable {env : Env} {genesis : Block} {ops : List (UInt64 × Op)} {s : Storage}

/-- The state is reached from the genesis block by the operations, none of which is
interrupted. -/
def ReachedBy (env : Env) (genesis : Block) (ops : List (UInt64 × Op)) (s : Storage) : Prop :=
  ∃ now id s₀, getBlockHash env.crypto genesis = some id ∧
    Storage.empty.handleBlockToMainChain env now genesis id = .ok (.added, s₀) ∧
    s₀.Uninterrupted env ops ∧ s₀.run env ops = .ok s

theorem reachable_iff : s.Reachable env ↔ ∃ genesis ops, s.ReachedBy env genesis ops := by
  constructor
  · rintro ⟨s₀, ops, ⟨now, genesis, id, hid, hadd⟩, hrun⟩
    exact ⟨genesis, ops, now, id, s₀, hid, hadd, hrun⟩
  · rintro ⟨genesis, ops, now, id, s₀, hid, hadd, hrun⟩
    exact ⟨s₀, ops, ⟨now, genesis, id, hid, hadd⟩, hrun⟩

theorem ReachedBy.reachable (h : s.ReachedBy env genesis ops) : s.Reachable env :=
  reachable_iff.mpr ⟨genesis, ops, h⟩

theorem recorded_empty (env : Env) : Recorded env [] Storage.empty :=
  ⟨rfl, fun _ _ h => (nomatch h), .base (.refl _), fun _ h => (nomatch h)⟩

theorem identified_rehashes {crypto : Crypto} :
    Rehashes crypto fun id tx => (id, tx) ∈ identified crypto genesis ops := by
  intro id tx hmem
  rcases List.mem_cons.mp hmem with hgenesis | hop
  · obtain ⟨-, rfl⟩ := Prod.mk.inj hgenesis
    exact List.mem_cons.mpr (Or.inl rfl)
  · obtain ⟨op, hop, hmem⟩ := List.mem_flatMap.mp hop
    exact List.mem_cons_of_mem _ (List.mem_flatMap.mpr ⟨op, hop, Op.identified_rehashes hmem⟩)

theorem receives_identified {crypto : Crypto} : ∀ op ∈ ops, op.2.Receives
    (fun blob => ∀ tx, parseTransaction blob = some tx →
      (crypto.cnFastHash blob, tx) ∈ identified crypto genesis ops)
    (fun bl => bl.minerPair crypto ∈ identified crypto genesis ops) fun _ _ => True := by
  rintro ⟨now, op⟩ hop
  have hmem : ∀ p ∈ op.identified crypto, p ∈ identified crypto genesis ops :=
    fun p hp => List.mem_cons_of_mem _ (List.mem_flatMap.mpr ⟨_, hop, hp⟩)
  cases op with
  | handleIncomingTx blob kept =>
    intro tx htx
    refine hmem _ ?_
    simp [Op.identified, htx]
  | addNewBlock fuel bl => exact hmem _ (by simp [Op.identified])
  | popBlockFromBlockchain => trivial
  | learnLonghash _ _ => trivial

theorem carried_genesis {now : UInt64} {id : Hash} {s₀ : Storage}
    (hadd : Storage.empty.handleBlockToMainChain env now genesis id = .ok (.added, s₀)) :
    Carried env (fun id tx => (id, tx) ∈ identified env.crypto genesis ops) s₀ := by
  have hgenesis : genesis.minerPair env.crypto ∈ identified env.crypto genesis ops :=
    List.mem_cons_self
  obtain ⟨taken, l, fee, base, prev, happ⟩ :=
    handleBlockToMainChain_eq_added AllTxs.empty rfl hadd
  refine ⟨(handleBlockToMainChain_allTxs identified_rehashes id (fun _ => hgenesis) .empty).out _
    hadd, fun k b hb => ?_⟩
  rw [happ.blocks, Function.update_apply] at hb
  split_ifs at hb
  · cases hb
    exact hgenesis
  · cases hb

theorem ReachedBy.carried (h : s.ReachedBy env genesis ops) :
    Carried env (fun id tx => (id, tx) ∈ identified env.crypto genesis ops) s := by
  obtain ⟨now, id, s₀, hid, hadd, hcalm, hrun⟩ := h
  have hinit : s₀.Initial env := ⟨now, genesis, id, hid, hadd⟩
  exact (run_invariant _ _ _ (Carried env fun id tx => (id, tx) ∈ identified env.crypto genesis ops)
    (fun _ hblob ht hr => ht.receive hblob hr)
    (fun hs ht haction => ht.action identified_rehashes (fun _ hb => hb) hs haction)
    (fun _ ht => ht.congr (fun _ _ hb => Or.inl hb) rfl rfl)
    hinit.sound (carried_genesis hadd) receives_identified hcalm hrun).2

/-- Along a run whose ids are unique the main chain is recorded, as long as no
vote overflows. -/
theorem ReachedBy.tracked (h : s.ReachedBy env genesis ops)
    (hids : IdsUnique env.crypto genesis ops) :
    Tracked env (fun id tx => (id, tx) ∈ identified env.crypto genesis ops) s := by
  obtain ⟨now, id, s₀, hid, hadd, hcalm, hrun⟩ := h
  have hinit : s₀.Initial env := ⟨now, genesis, id, hid, hadd⟩
  obtain ⟨taken, l, fee, base, prev, happ⟩ :=
    handleBlockToMainChain_eq_added AllTxs.empty rfl hadd
  have hrecorded₀ := happ.recorded ⟨fun _ _ h => (nomatch h), fun _ _ h => (nomatch h)⟩
    (recorded_empty env)
  exact (run_invariant _ _ _ (Tracked env fun id tx => (id, tx) ∈ identified env.crypto genesis ops)
    (fun _ hblob ht hr => ht.receive hblob hr)
    (fun hs ht haction => ht.action identified_rehashes
      (fun _ _ _ htx htx' => hids _ htx _ htx' rfl) (fun _ hb => hb) hs haction)
    (fun _ ht => ⟨ht.congr (fun _ _ hb => Or.inl hb) rfl rfl,
      ht.recorded_congr (.refl _) rfl rfl rfl (List.Subset.refl _)⟩)
    hinit.sound ⟨carried_genesis hadd, Or.inr ⟨_, hrecorded₀⟩⟩ receives_identified hcalm hrun).2

theorem ReachedBy.recorded (h : s.ReachedBy env genesis ops)
    (hids : IdsUnique env.crypto genesis ops) (hoverflow : .applyVoteOverflow ∉ s.log) :
    ∃ recs, Recorded env recs s :=
  (h.tracked hids).recorded.resolve_left hoverflow

/-- The total of a delegate is the sum, over the unspent key images with a vote,
of what their last votes give to it. -/
theorem totalVotes_eq_sum_lastVotes (h : s.ReachedBy env genesis ops)
    (hids : IdsUnique env.crypto genesis ops) (hoverflow : .applyVoteOverflow ∉ s.log) :
    ∃ voting : Finset KeyImage,
      (∀ k, k ∈ voting ↔ s.ledger.spentKeys k = false ∧ s.ledger.voteHistories k ≠ []) ∧
        ∀ d info, s.ledger.delegates.find? d = some info →
          info.totalVotes.toNat = ∑ k ∈ voting, lastAmountFor (s.ledger.voteHistories k) d := by
  obtain ⟨recs, hrec⟩ := h.recorded hids hoverflow
  exact hrec.ledger.votesTallied.totalVotes_eq

theorem ReachedBy.append {later : List (UInt64 × Op)} {s' : Storage}
    (h : s.ReachedBy env genesis ops) (hcalm : s.Uninterrupted env later)
    (hrun : s.run env later = .ok s') : s'.ReachedBy env genesis (ops ++ later) := by
  obtain ⟨now, id, s₀, hid, hadd, hcalm₀, hrun₀⟩ := h
  refine ⟨now, id, s₀, hid, hadd, hcalm₀.append fun t ht => ?_, ?_⟩
  · obtain rfl := Except.ok.inj (hrun₀.symm.trans ht)
    exact hcalm
  · rw [run_append, hrun₀]
    exact hrun

/-- Every transaction of the run has its own hash as its id. -/
def CanonicalIds (crypto : Crypto) (genesis : Block) (ops : List (UInt64 × Op)) : Prop :=
  ∀ p ∈ identified crypto genesis ops, getTransactionHash crypto p.2 = some p.1

instance canonicalIdsDecidable (crypto : Crypto) (genesis : Block) (ops : List (UInt64 × Op)) :
    Decidable (CanonicalIds crypto genesis ops) :=
  inferInstanceAs (Decidable (∀ p ∈ identified crypto genesis ops,
    getTransactionHash crypto p.2 = some p.1))

theorem ReachedBy.canonicalPool (h : s.ReachedBy env genesis ops)
    (hcanonical : CanonicalIds env.crypto genesis ops) : CanonicalPool env s :=
  fun id d hd => hcanonical _ (h.carried.allTxs.pool id d hd).1

/-- The state that a run leads to, if it starts and throws nothing. -/
def play (env : Env) (now : UInt64) (genesis : Block) (ops : List (UInt64 × Op)) :
    Option Storage :=
  match getBlockHash env.crypto genesis with
  | none => none
  | some id =>
    match Storage.empty.handleBlockToMainChain env now genesis id with
    | .ok (.added, s₀) =>
      match s₀.calls env ops with
      | .ok s => some s
      | .error _ => none
    | _ => none

theorem reachedBy_of_play_eq {now : UInt64} (h : play env now genesis ops = some s) :
    s.ReachedBy env genesis ops := by
  cases hid : getBlockHash env.crypto genesis with
  | none => simp [play, hid] at h
  | some id =>
    cases hadd : Storage.empty.handleBlockToMainChain env now genesis id with
    | error e => simp [play, hid, hadd] at h
    | ok r =>
      obtain ⟨exit, s₀⟩ := r
      cases exit with
      | added =>
        cases hrun : s₀.calls env ops with
        | error e => simp [play, hid, hadd, hrun] at h
        | ok t =>
          obtain rfl : t = s := by simpa [play, hid, hadd, hrun] using h
          exact ⟨now, id, s₀, hid, hadd, uninterrupted_of_calls hrun⟩
      | _ => simp [play, hid, hadd] at h

theorem reachedBy_of_play {now : UInt64} (h : (play env now genesis ops).isSome = true) :
    ((play env now genesis ops).getD Storage.empty).ReachedBy env genesis ops := by
  obtain ⟨s, hplay⟩ := Option.isSome_iff_exists.mp h
  rw [hplay]
  exact reachedBy_of_play_eq hplay

/-- The state that a run leads to, whatever its calls throw. -/
def playOn (env : Env) (now : UInt64) (genesis : Block) (ops : List (UInt64 × Op)) :
    Option Storage :=
  (play env now genesis []).bind fun s₀ => (s₀.run env ops).toOption

theorem exists_run_of_playOn {now : UInt64} {test : Storage → Bool}
    (h : (playOn env now genesis ops).any test = true) :
    ∃ s₀ s : Storage, s₀.Initial env ∧ s₀.run env ops = .ok s ∧ test s = true := by
  obtain ⟨s, hs, htest⟩ := (Option.any_eq_true _ _).mp h
  obtain ⟨s₀, hplay, hrun⟩ := Option.bind_eq_some_iff.mp hs
  obtain ⟨now, id, s₁, hid, hadd, -, hnil⟩ := reachedBy_of_play_eq hplay
  obtain rfl := Except.ok.inj hnil
  exact ⟨s₁, s, ⟨now, genesis, id, hid, hadd⟩, Control.eq_ok_of_toOption hrun, htest⟩

section Sample

variable (env : Env) (now : UInt64)

def nextState (bl : Block) (s : Storage) : Storage :=
  resultD ((·.2) <$> s.handleBlockToMainChain env now bl
    ((getBlockHash env.crypto bl).getD nullHash)) s

/-- The block is new, comes next, has no transactions and is added. -/
def acceptsEmpty (bl : Block) (s : Storage) : Bool :=
  bl.txHashes.isEmpty && decide (bl.prevId = s.getTailId) &&
    (getBlockHash env.crypto bl).any (fun id => !s.haveBlock id &&
      (match s.handleBlockToMainChain env now bl id with
        | .ok (.added, _) => true
        | _ => false))

structure Quiet (s : Storage) : Prop where
  reachable : s.Reachable env
  pool : ∀ id, s.pool.transactions id = none

end Sample

variable {env : Env} {now : UInt64} {bl : Block} {s : Storage}

variable (now) in
theorem Reachable.call {s' : Storage} (op : Op) (h : s.Reachable env)
    (hcall : s.call env now op = .ok s') : s'.Reachable env := by
  obtain ⟨s₀, ops, hinit, hcalm, hrun⟩ := h
  obtain ⟨hcalm', hrun'⟩ := uninterrupted_of_call hcall
  refine ⟨s₀, ops ++ [(now, op)], hinit, hcalm.append fun t ht => ?_, ?_⟩
  · obtain rfl := Except.ok.inj (hrun.symm.trans ht)
    exact hcalm'
  · rw [run_append, hrun]
    exact hrun'

theorem acceptsEmpty_spec (h : acceptsEmpty env now bl s = true) :
    bl.txHashes = [] ∧ bl.prevId = s.getTailId ∧ ∃ id, getBlockHash env.crypto bl = some id ∧
      s.haveBlock id = false ∧
      s.handleBlockToMainChain env now bl id = .ok (.added, s.nextState env now bl) := by
  simp only [acceptsEmpty, Bool.and_eq_true, List.isEmpty_iff, decide_eq_true_eq,
    Option.any_eq_true_iff_get] at h
  obtain ⟨⟨htxs, hprev⟩, hsome, hnew, hadd⟩ := h
  obtain ⟨id, hid⟩ := Option.isSome_iff_exists.mp hsome
  simp only [hid, Option.get_some] at hnew hadd
  refine ⟨htxs, hprev, id, hid, by simpa using hnew, ?_⟩
  simp only [nextState, hid, Option.getD_some]
  split at hadd
  · rename_i t ht
    rw [ht]
    rfl
  · simp at hadd

theorem Appended.pool_eq_none {id : Hash} {taken : List Taken} {l : Ledger} {fee base : UInt64}
    {prev : Option Block} {s' : Storage} (h : Appended env now bl id taken l fee base prev s s')
    (hpool : ∀ k, s.pool.transactions k = none) (k : Hash) : s'.pool.transactions k = none := by
  rw [h.pool]
  dsimp only
  split_ifs
  · rfl
  · exact hpool k

theorem quiet_of_genesis (h : acceptsEmpty env now bl Storage.empty = true) :
    (Storage.empty.nextState env now bl).Quiet env := by
  obtain ⟨-, -, id, hid, -, hadd⟩ := acceptsEmpty_spec h
  obtain ⟨taken, l, fee, base, prev, happ⟩ :=
    handleBlockToMainChain_eq_added AllTxs.empty rfl hadd
  exact ⟨⟨_, [], ⟨now, bl, id, hid, hadd⟩, trivial, rfl⟩, happ.pool_eq_none fun _ => rfl⟩

theorem Quiet.next (hs : s.Quiet env) (h : acceptsEmpty env now bl s = true) :
    (s.nextState env now bl).Quiet env := by
  obtain ⟨-, hprev, id, hid, hnew, hadd⟩ := acceptsEmpty_spec h
  obtain ⟨taken, l, fee, base, prev, happ⟩ := hs.reachable.sound.appended hadd
  refine ⟨hs.reachable.call now (.addNewBlock 0 bl) ?_, happ.pool_eq_none hs.pool⟩
  simp only [Storage.call, addNewBlock, hid, hnew, hprev, hadd]
  rfl

theorem Quiet.canonicalPool (hs : s.Quiet env) : CanonicalPool env s := by
  intro id d hd
  rw [hs.pool id] at hd
  cases hd

def sampleMinerTx (height : UInt64) (vout : List TxOut) : Transaction where
  version := 1
  unlockTime := height + 10
  extra := []
  vin := [.gen height]
  vout := vout
  vinCoinTypes := [cpXpb]
  voutCoinTypes := vout.map fun _ => cpXpb
  signatures := []

/-- The block at a height, signed by delegate 7 if it is a delegate block. -/
def sampleBlock (version : UInt8) (height timestamp : UInt64) (prevId : Hash) (vout : List TxOut) :
    Block where
  majorVersion := version
  minorVersion := 0
  timestamp := timestamp
  prevId := prevId
  nonce := 0
  minerTx := sampleMinerTx height vout
  txHashes := []
  signingDelegateId := 7
  dposSig := Blob.ofNat 64 0

/-- Delegate blocks from height 2 on, and a checkpoint far ahead. -/
def sampleEnv : Env where
  crypto := sampleCrypto
  config := ⟨false, true, 0, 2, 100⟩
  checkpoints := ⟨[(10, nullHash)], by simp⟩

def sampleGenesis : Block := sampleBlock 1 0 0 nullHash []

def sampleState₀ : Storage := Storage.empty.nextState sampleEnv 1000 sampleGenesis

def samplePowBlock : Block :=
  sampleBlock 1 1 100 sampleState₀.getTailId [⟨30000000000, .toKey (Blob.ofNat 32 1)⟩]

def sampleState₁ : Storage := sampleState₀.nextState sampleEnv 1000 samplePowBlock

def samplePosBlock : Block := sampleBlock 2 2 200 sampleState₁.getTailId []

def sampleState₂ : Storage := sampleState₁.nextState sampleEnv 1000 samplePosBlock

def sampleSecondPosBlock : Block := sampleBlock 2 3 210 sampleState₂.getTailId []

def sampleState₃ : Storage := sampleState₂.nextState sampleEnv 1000 sampleSecondPosBlock

theorem sampleState₁_quiet : sampleState₁.Quiet sampleEnv :=
  (quiet_of_genesis (by decide +kernel)).next (by decide +kernel)

theorem sampleState₂_quiet : sampleState₂.Quiet sampleEnv :=
  sampleState₁_quiet.next (by decide +kernel)

/-- Two blocks are added and the second is popped. -/
def sampleOps : List (UInt64 × Op) :=
  [(1000, .addNewBlock 0 samplePowBlock), (1001, .addNewBlock 0 samplePosBlock),
    (1002, .popBlockFromBlockchain)]

def sampleReached : Storage := (play sampleEnv 1000 sampleGenesis sampleOps).getD Storage.empty

theorem sampleReached_reachedBy : sampleReached.ReachedBy sampleEnv sampleGenesis sampleOps :=
  reachedBy_of_play (by decide +kernel)

def sampleId (b : Block) : Hash := (getBlockHash sampleCrypto b).getD nullHash

/-- Proof-of-work blocks at all heights, and no checkpoints. -/
def samplePowEnv : Env where
  crypto := sampleCrypto
  config := ⟨false, true, 0, 100000, 100⟩
  checkpoints := ⟨[], by simp⟩

/-- `n` blocks from a height on, one second apart. -/
def samplePowBlocks : (n height : Nat) → (prevId : Hash) → List Block
  | 0, _, _ => []
  | n + 1, height, prevId =>
    let b := sampleBlock 1 (UInt64.ofNat height) (UInt64.ofNat (100 + height)) prevId
      [⟨30000000000, .toKey (Blob.ofNat 32 1)⟩]
    b :: samplePowBlocks n (height + 1) (sampleId b)

/-- The reward of a block of these chains. -/
def sampleReward : UInt64 := 30000000000

def sampleInk (amount : UInt64) (k : Nat) : TxinToKey := ⟨amount, [0], Blob.ofNat 32 k⟩

/-- A transaction with outputs of the given amounts. -/
def sampleTx (vin : List TxIn) (amounts : List UInt64) : Transaction where
  version := 2
  unlockTime := 0
  extra := []
  vin := vin
  vout := amounts.map fun amount => ⟨amount, .toKey (Blob.ofNat 32 1)⟩
  vinCoinTypes := vin.map fun _ => cpXpb
  voutCoinTypes := amounts.map fun _ => cpXpb
  signatures := vin.map fun
    | .registerDelegate _ => []
    | _ => [Blob.ofNat 64 0]

/-- The first reward pays for the registration of delegate 7. -/
def sampleRegistration : Transaction :=
  sampleTx [.toKey (sampleInk sampleReward 100), .registerDelegate
    ⟨7, dposMinRegistrationFee, ⟨Blob.ofNat 32 2, Blob.ofNat 32 3⟩⟩] [sampleReward - 1000000000]

def sampleTxId (tx : Transaction) : Hash := (getTransactionHash sampleCrypto tx).getD nullHash

/-- A block with transactions, whose fees go to the miner. -/
def sampleFullBlock (height : Nat) (prevId : Hash) (txs : List Transaction) : Block :=
  { sampleBlock 1 (UInt64.ofNat height) (UInt64.ofNat (100 + height)) prevId
      [⟨sampleReward + (txs.map fun tx => tx.getTxFee).sum, .toKey (Blob.ofNat 32 1)⟩] with
    txHashes := txs.map sampleTxId }

/-- The transactions arrive, then the block. -/
def sampleFullOps (txs : List Transaction) (b : Block) : List (UInt64 × Op) :=
  txs.map (fun tx => (1000, .handleIncomingTx ((serializeTransaction tx).getD []) true)) ++
    [(1000, .addNewBlock 0 b)]

/-- Eleven blocks, so that the first reward can be spent. -/
def sampleFirstBlocks : List Block := samplePowBlocks 11 1 (sampleId sampleGenesis)

def sampleFirstTop : Hash := (sampleFirstBlocks.getLast?.map sampleId).getD nullHash

def sampleRegistrationBlock : Block :=
  sampleFullBlock 12 sampleFirstTop [sampleRegistration]

def sampleSpendingOps : List (UInt64 × Op) :=
  sampleFirstBlocks.map (fun b => (1000, .addNewBlock 0 b)) ++
    sampleFullOps [sampleRegistration] sampleRegistrationBlock

def sampleSpending : Storage :=
  (play samplePowEnv 1000 sampleGenesis sampleSpendingOps).getD Storage.empty

theorem sampleSpending_reachedBy :
    sampleSpending.ReachedBy samplePowEnv sampleGenesis sampleSpendingOps :=
  reachedBy_of_play (by decide +kernel)

theorem sampleSpending_idsUnique :
    IdsUnique sampleCrypto sampleGenesis sampleSpendingOps := by
  decide +kernel

theorem sampleSpending_quiet : .applyVoteOverflow ∉ sampleSpending.log := by decide +kernel

/-- Spend one key and vote with another. -/
def sampleKeyVote (k image : Nat) (seq d : UInt16) : Transaction :=
  sampleTx [.toKey (sampleInk sampleReward k),
    .vote ⟨sampleInk sampleReward image, seq, OrdSet.ofElems [d]⟩] [sampleReward]

/-- Two keys vote for delegate 7, one of them twice. -/
def sampleVotingOps : List (UInt64 × Op) :=
  let b := sampleFullBlock 13 (sampleId sampleRegistrationBlock) [sampleKeyVote 101 201 0 7]
  sampleSpendingOps ++ sampleFullOps [sampleKeyVote 101 201 0 7] b ++
    sampleFullOps [sampleKeyVote 102 202 0 7, sampleKeyVote 103 201 1 7]
      (sampleFullBlock 14 (sampleId b) [sampleKeyVote 102 202 0 7, sampleKeyVote 103 201 1 7])

def sampleVoting : Storage :=
  (play samplePowEnv 1000 sampleGenesis sampleVotingOps).getD Storage.empty

theorem totalVotes_eq_sum_of_sampleVoting :
    (sampleVoting.ledger.delegates.find? 7).map (fun info => info.totalVotes) =
        some (2 * sampleReward) ∧
      ∃ voting : Finset KeyImage,
        (∀ k, k ∈ voting ↔ sampleVoting.ledger.spentKeys k = false ∧
          sampleVoting.ledger.voteHistories k ≠ []) ∧
          ∀ d info, sampleVoting.ledger.delegates.find? d = some info →
            info.totalVotes.toNat =
              ∑ k ∈ voting, lastAmountFor (sampleVoting.ledger.voteHistories k) d := by
  have hreached : sampleVoting.ReachedBy samplePowEnv sampleGenesis sampleVotingOps :=
    reachedBy_of_play (by decide +kernel)
  exact ⟨by decide +kernel,
    totalVotes_eq_sum_lastVotes hreached (by decide +kernel) (by decide +kernel)⟩

def sampleFarCheckpoint : Checkpoints := ⟨[(100, nullHash)], by simp⟩

/-- Delegate blocks from height 12 on, below a checkpoint. -/
def sampleSeatEnv : Env where
  crypto := sampleCrypto
  config := ⟨false, true, 0, 12, 100⟩
  checkpoints := sampleFarCheckpoint

/-- Delegates 6 and 10 are registered. -/
def sampleSeats : Transaction :=
  sampleTx [.toKey (sampleInk sampleReward 100),
    .registerDelegate ⟨6, dposMinRegistrationFee, ⟨Blob.ofNat 32 2, Blob.ofNat 32 3⟩⟩,
    .registerDelegate ⟨10, dposMinRegistrationFee, ⟨Blob.ofNat 32 4, Blob.ofNat 32 5⟩⟩]
    [sampleReward - 2 * dposMinRegistrationFee]

/-- A delegate block that pays nothing. -/
def sampleSignedBlock (height timestamp : UInt64) (prevId : Hash) (signer : UInt16)
    (txs : List Transaction) : Block :=
  { sampleBlock 2 height timestamp prevId [] with
    txHashes := txs.map sampleTxId
    signingDelegateId := signer }

/-- With no top delegates yet, each of the three blocks after the registration throws when
its missed turns are counted, but stays.  The first pop then takes a block and a missed turn
from the counters of delegate 6, which are 0, and the next pop throws when it ranks the
delegates.  A block with a second vote of the same key comes last. -/
def sampleSeatOps : List (UInt64 × Op) :=
  let first := sampleSignedBlock 12 200 sampleFirstTop 7 []
  let second := sampleSignedBlock 13 300 (sampleId first) 10 [sampleSeats, sampleKeyVote 101 201 0 6]
  let third := sampleSignedBlock 14 350 (sampleId second) 10 []
  let fourth := sampleSignedBlock 15 400 (sampleId third) 6 []
  sampleFirstBlocks.map (fun b => (1000, .addNewBlock 0 b)) ++ [(1000, .addNewBlock 0 first)] ++
    sampleFullOps [sampleSeats, sampleKeyVote 101 201 0 6] second ++
    [(1000, .addNewBlock 0 third), (1000, .addNewBlock 0 fourth), (1000, .popBlockFromBlockchain),
      (1000, .popBlockFromBlockchain)] ++
    sampleFullOps [sampleKeyVote 102 201 1 6]
      (sampleSignedBlock 15 500 (sampleId third) 10 [sampleKeyVote 102 201 1 6])

/-- The key is unspent and its last vote is for delegate 6, whose total is 0. -/
def losesVote (s : Storage) : Bool :=
  !s.ledger.spentKeys (Blob.ofNat 32 201) &&
    decide (lastAmountFor (s.ledger.voteHistories (Blob.ofNat 32 201)) 6 = 30000000000) &&
    (s.ledger.delegates.find? 6).any fun info => decide (info.totalVotes = 0)

/-- The second pop leaves `m_popping_block` set, and `apply_votes` then refuses the second
vote after the first was taken back. -/
theorem totalVotes_lost_after_exception :
    IdsUnique sampleCrypto sampleGenesis sampleSeatOps ∧
      ∃ s₀ s : Storage, s₀.Initial sampleSeatEnv ∧ s₀.run sampleSeatEnv sampleSeatOps = .ok s ∧
        lastAmountFor (s.ledger.voteHistories (Blob.ofNat 32 201)) 6 = 30000000000 ∧
        ¬ ∃ voting : Finset KeyImage,
          (∀ k, k ∈ voting ↔ s.ledger.spentKeys k = false ∧ s.ledger.voteHistories k ≠ []) ∧
            ∀ d info, s.ledger.delegates.find? d = some info →
              info.totalVotes.toNat =
                ∑ k ∈ voting, lastAmountFor (s.ledger.voteHistories k) d := by
  have hloses : (playOn sampleSeatEnv 1000 sampleGenesis sampleSeatOps).any losesVote = true := by
    decide +kernel
  obtain ⟨s₀, s, hinit, hrun, hs⟩ := exists_run_of_playOn hloses
  simp only [losesVote, Bool.and_eq_true, Bool.not_eq_true', decide_eq_true_eq] at hs
  obtain ⟨⟨hunspent, hlast⟩, hany⟩ := hs
  obtain ⟨info, hinfo, hzero⟩ := (Option.any_eq_true _ _).mp hany
  refine ⟨by decide +kernel, s₀, s, hinit, hrun, hlast, ?_⟩
  rintro ⟨voting, hvoting, hsum⟩
  have hmem : Blob.ofNat 32 201 ∈ voting := by
    refine (hvoting _).mpr ⟨hunspent, fun hnil => ?_⟩
    rw [hnil] at hlast
    exact absurd hlast (by decide)
  have hle := Finset.single_le_sum (f := fun k => lastAmountFor (s.ledger.voteHistories k) 6)
    (fun _ _ => Nat.zero_le _) hmem
  rw [← hsum 6 info hinfo, of_decide_eq_true hzero, hlast] at hle
  exact absurd hle (by decide)

end Storage

end Pebblecoin
