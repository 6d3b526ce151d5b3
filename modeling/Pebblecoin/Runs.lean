import Pebblecoin.AlternativeChain
import Pebblecoin.WellFormed

/-!
Runs of the node.  What the entry points do is made of a few kinds of actions, so
that an invariant has to be checked for these only.
-/

namespace Pebblecoin

open Control Wire

variable {s s' : Storage} {bl : Block} {id : Hash} {branch : List Hash}

inductive Op where
  | handleIncomingTx (blob : Bytes) (keptByBlock : Bool)
  | addNewBlock (fuel : Nat) (bl : Block)
  | popBlockFromBlockchain
  /-- The hash cache is told the long hash of a block or forgets it. -/
  | learnLonghash (id : Hash) (longhash : Option Hash)

/-- What an operation brings in from outside satisfies `C`, `D` or `E`. -/
def Op.Receives (C : Bytes → Prop) (D : Block → Prop) (E : Hash → Option Hash → Prop) : Op → Prop
  | .handleIncomingTx blob _ => C blob
  | .addNewBlock _ bl => D bl
  | .popBlockFromBlockchain => True
  | .learnLonghash id longhash => E id longhash

namespace Storage

def learnLonghash (id : Hash) (longhash : Option Hash) (s : Storage) : Storage :=
  { s with hashCache := Function.update s.hashCache id longhash }

section Runs

variable (env : Env)

/-- One operation at the time `now`. -/
def call (now : UInt64) (op : Op) (s : Storage) : Except Interrupted Storage :=
  match op with
  | .handleIncomingTx blob kept => (·.2.2) <$> s.handleIncomingTx env now blob kept
  | .addNewBlock fuel bl => (·.2) <$> s.addNewBlock env now fuel bl
  | .popBlockFromBlockchain => (·.2) <$> s.popBlockFromBlockchain env now
  | .learnLonghash id longhash => .ok (s.learnLonghash id longhash)

/-- The node catches an exception and goes on with the storage as the call has left it. -/
def step (now : UInt64) (op : Op) (s : Storage) : Except Thrown Storage :=
  match s.call env now op with
  | .ok s' => .ok s'
  | .error ⟨.outOfFuel, _⟩ => .error .outOfFuel
  | .error ⟨_, s'⟩ => .ok s'

def run : List (UInt64 × Op) → Storage → Except Thrown Storage
  | [], s => .ok s
  | (now, op) :: ops, s => do run ops (← s.step env now op)

/-- No call of the run throws after it has changed something. -/
def Uninterrupted : List (UInt64 × Op) → Storage → Prop
  | [], _ => True
  | (now, op) :: ops, s => (∀ e, s.call env now op = .error e → e.storage = s) ∧
      ∀ s', s.step env now op = .ok s' → Uninterrupted ops s'

/-- A run whose calls all return. -/
def calls : List (UInt64 × Op) → Storage → Except Interrupted Storage
  | [], s => .ok s
  | (now, op) :: ops, s => do calls ops (← s.call env now op)

/-- The storage right after the genesis block was added. -/
def Initial (s : Storage) : Prop :=
  ∃ now genesis id, getBlockHash env.crypto genesis = some id ∧
    Storage.empty.handleBlockToMainChain env now genesis id = .ok (.added, s)

def Reachable (s : Storage) : Prop :=
  ∃ s₀ ops, Initial env s₀ ∧ Uninterrupted env ops s₀ ∧ s₀.run env ops = .ok s

/-- The block has just arrived, as `D` tells, or its body is stored. -/
def Offered (D : Block → Prop) (bl : Block) (id : Hash) (s : Storage) : Prop :=
  D bl ∨ s.blocksByHash id = some bl

/-- The parts that the operations on blocks are made of. -/
inductive Action (D : Block → Prop) (now : UInt64) : Storage → Storage → Prop
  | connect {bl : Block} {id : Hash} {exit : HandleExit} {s s' : Storage} :
      s.Offered D bl id → getBlockHash env.crypto bl = some id → s.Fits bl id →
      s.handleBlockToMainChain env now bl id = .ok (exit, s') → Action D now s s'
  | disconnect {popped : Bool} {s s' : Storage} :
      s.popBlockFromBlockchain env now = .ok (popped, s') → Action D now s s'
  | storeBody {bl : Block} {id : Hash} {s : Storage} :
      s.Offered D bl id → getBlockHash env.crypto bl = some id → s.Fits bl id →
      Action D now s { s with blocksByHash := Function.update s.blocksByHash id (some bl) }
  | place {fuel : Nat} {bl : Block} {id : Hash} {branch : List Hash} {timestamps window : List UInt64}
      {place : AltPlacement} {s s' : Storage} :
      s.blocksByHash id = some bl → s.branchTo fuel bl.prevId = .ok (branch, timestamps) →
      s.branchTimestamps branch timestamps (s.blocksIndex bl.prevId) = .ok (.ok window) →
      s.placeAlternativeBlock env bl id branch = .ok (.ok place, s') → Action D now s s'
  | markInvalid {bl : Block} {id : Hash} {bent : BlockchainEntry} (ids : List Hash) {s : Storage} :
      s.blocksByHash id = some bl → s.alternativeChainEntries id = some bent →
      Action D now s (s.markBranchInvalid bent bl id ids)
  | eraseAlternatives (ids : List Hash) {s : Storage} : Action D now s (s.eraseAlternatives ids)
  | logSwitchFailed (id : Hash) (rolledBack : Bool) {s : Storage} :
      Action D now s { s with log := .switchFailed id rolledBack :: s.log }
  | logPushFailed {s : Storage} : Action D now s { s with log := .pushExMainFailed :: s.log }

def Actions (D : Block → Prop) (now : UInt64) : Storage → Storage → Prop :=
  Relation.ReflTransGen (Action env D now)

/-- Besides the main chain, the stored bodies are filed under their hashes, and
the alternative entries have one. -/
structure Sound (s : Storage) : Prop extends WellFormed s where
  hashes : ∀ id b, s.blocksByHash id = some b → getBlockHash env.crypto b = some id
  alternatives : ∀ id bent, s.alternativeChainEntries id = some bent →
    bent.hash = id ∧ (s.blocksByHash id).isSome = true

end Runs

variable {env : Env} {D : Block → Prop} {now : UInt64}

/-- A call that is not interrupted returns, or nothing has happened. -/
theorem step_cases {op : Op} (hcalm : ∀ e, s.call env now op = .error e → e.storage = s)
    (h : s.step env now op = .ok s') : s.call env now op = .ok s' ∨ s' = s := by
  unfold step at h
  split at h
  · rename_i hcall
    exact Or.inl (Except.ok.inj h ▸ hcall)
  · cases h
  · rename_i hcall
    exact Or.inr (Except.ok.inj h ▸ hcalm _ hcall)

theorem run_append (ops later : List (UInt64 × Op)) (s : Storage) :
    s.run env (ops ++ later) = s.run env ops >>= run env later := by
  induction ops generalizing s with
  | nil => rfl
  | cons op ops ih =>
    rw [List.cons_append, run, run, bind_assoc]
    exact bind_congr fun t => ih t

theorem calls_append (ops later : List (UInt64 × Op)) (s : Storage) :
    s.calls env (ops ++ later) = s.calls env ops >>= calls env later := by
  induction ops generalizing s with
  | nil => rfl
  | cons op ops ih =>
    rw [List.cons_append, calls, calls, bind_assoc]
    exact bind_congr fun t => ih t

theorem Uninterrupted.append {ops later : List (UInt64 × Op)} (h : s.Uninterrupted env ops)
    (hlater : ∀ s', s.run env ops = .ok s' → s'.Uninterrupted env later) :
    s.Uninterrupted env (ops ++ later) := by
  induction ops generalizing s with
  | nil => exact hlater s rfl
  | cons op ops ih =>
    refine ⟨h.1, fun t ht => ih (h.2 t ht) fun s' hs' => hlater s' ?_⟩
    rw [run, ht]
    exact hs'

theorem uninterrupted_of_calls {ops : List (UInt64 × Op)} (h : s.calls env ops = .ok s') :
    s.Uninterrupted env ops ∧ s.run env ops = .ok s' := by
  induction ops generalizing s with
  | nil => exact ⟨trivial, congrArg Except.ok (Except.ok.inj h)⟩
  | cons op ops ih =>
    obtain ⟨t, ht, h⟩ := bind_eq_ok_iff.mp h
    have hstep : s.step env op.1 op.2 = .ok t := by rw [step, ht]
    refine ⟨⟨fun e he => ?_, fun t' ht' => ?_⟩, ?_⟩
    · rw [ht] at he
      cases he
    · obtain rfl := Except.ok.inj (hstep.symm.trans ht')
      exact (ih h).1
    · rw [run, hstep]
      exact (ih h).2

theorem uninterrupted_of_call {now : UInt64} {op : Op} (h : s.call env now op = .ok s') :
    s.Uninterrupted env [(now, op)] ∧ s.run env [(now, op)] = .ok s' :=
  uninterrupted_of_calls (bind_eq_ok_iff.mpr ⟨s', h, rfl⟩)

theorem BodiesGrow.of_update (hfits : s.Fits bl id)
    (h : s'.blocksByHash = Function.update s.blocksByHash id (some bl)) : BodiesGrow s s' :=
  fun k b hb => by rw [h]; exact hfits.update hb

theorem BodiesGrow.branchTo (h : BodiesGrow s s')
    (halt : s'.alternativeChainEntries = s.alternativeChainEntries) {fuel : Nat}
    {r : List Hash × List UInt64} (hr : s.branchTo fuel id = .ok r) :
    s'.branchTo fuel id = .ok r := by
  induction fuel generalizing id r with
  | zero => simp [Storage.branchTo] at hr
  | succ fuel ih =>
    rw [Storage.branchTo] at hr ⊢
    rw [halt]
    cases hent : s.alternativeChainEntries id with
    | none => simpa [hent] using hr
    | some bent =>
      simp only [hent] at hr ⊢
      obtain ⟨bl, hbl, hr⟩ := bind_eq_ok_iff.mp hr
      obtain ⟨below, hbelow, hr⟩ := bind_eq_ok_iff.mp hr
      exact bind_eq_ok_iff.mpr ⟨bl, h.getBlockByHash hbl,
        bind_eq_ok_iff.mpr ⟨below, ih hbelow, hr⟩⟩

theorem branchTimestamps_cons_iff {front : Hash} {rest : List Hash}
    {timestamps window : List UInt64} {mainPrev : Option Nat} :
    s.branchTimestamps (front :: rest) timestamps mainPrev = .ok (.ok window) ↔
      ∃ bent bl, s.getAlternativeEntry front = .ok bent ∧ bent.height < s.entries.length ∧
        s.getBlockByHash bent.hash = .ok bl ∧
        s.entries[bent.height - 1]?.map (·.hash) = some bl.prevId ∧
        s.completeTimestampsVector (bent.height - 1) timestamps = window := by
  rw [Storage.branchTimestamps, bind_eq_ok_iff]
  constructor
  · rintro ⟨bent, hbent, h⟩
    split at h
    · simp at h
    rename_i hheight
    obtain ⟨bl, hbl, h⟩ := bind_eq_ok_iff.mp h
    split at h
    · simp at h
    rename_i hprev
    exact ⟨bent, bl, hbent, by omega, hbl, not_not.mp hprev, by simpa using h⟩
  · rintro ⟨bent, bl, hbent, hheight, hbl, hprev, hwindow⟩
    refine ⟨bent, hbent, ?_⟩
    rw [if_neg (by omega)]
    refine bind_eq_ok_iff.mpr ⟨bl, hbl, ?_⟩
    rw [if_neg (not_not.mpr hprev), hwindow]

theorem BodiesGrow.branchTimestamps (h : BodiesGrow s s')
    (halt : s'.alternativeChainEntries = s.alternativeChainEntries)
    (hentries : s'.entries = s.entries) {timestamps window : List UInt64} {mainPrev : Option Nat}
    (hw : s.branchTimestamps branch timestamps mainPrev = .ok (.ok window)) :
    s'.branchTimestamps branch timestamps mainPrev = .ok (.ok window) := by
  cases branch with
  | nil =>
    cases mainPrev with
    | none => simp [Storage.branchTimestamps] at hw
    | some height =>
      simpa [Storage.branchTimestamps, completeTimestampsVector, hentries] using hw
  | cons front rest =>
    obtain ⟨bent, bl, hbent, hheight, hbl, hprev, hwindow⟩ := branchTimestamps_cons_iff.mp hw
    refine branchTimestamps_cons_iff.mpr
      ⟨bent, bl, ?_, by rwa [hentries], h.getBlockByHash hbl, by rwa [hentries], ?_⟩
    · rwa [getAlternativeEntry, halt]
    · rwa [completeTimestampsVector, hentries]

/-- The bodies and the alternative entries after an action that leaves the main
chain to other lemmas. -/
theorem Sound.of_wellFormed (hs : s.Sound env) (hwf : s'.WellFormed) (hgrow : BodiesGrow s s')
    (hhashes : ∀ id b, s'.blocksByHash id = some b → s.blocksByHash id = some b ∨
      getBlockHash env.crypto b = some id)
    (halt : ∀ id bent, s'.alternativeChainEntries id = some bent →
      s.alternativeChainEntries id = some bent ∨
        bent.hash = id ∧ (s.blocksByHash id).isSome = true) : s'.Sound env := by
  refine ⟨hwf, fun id b hb => ?_, fun id bent hbent => ?_⟩
  · rcases hhashes id b hb with hold | hnew
    · exact hs.hashes id b hold
    · exact hnew
  · have hold : bent.hash = id ∧ (s.blocksByHash id).isSome = true := by
      rcases halt id bent hbent with hold | hnew
      · exact hs.alternatives id bent hold
      · exact hnew
    obtain ⟨b, hb⟩ := Option.isSome_iff_exists.mp hold.2
    exact ⟨hold.1, by rw [hgrow id b hb]; rfl⟩

theorem handleBlockToMainChain_bodies {exit : HandleExit} (hs : s.WellFormed)
    (h : s.handleBlockToMainChain env now bl id = .ok (exit, s')) :
    (s'.blocksByHash = s.blocksByHash ∨
      s'.blocksByHash = Function.update s.blocksByHash id (some bl)) ∧
      s'.alternativeChainEntries = s.alternativeChainEntries := by
  rcases hs.handle_cases h with ⟨taken, l, fee, base, prev, -, happ⟩ | ⟨-, hrej⟩
  · exact ⟨Or.inr happ.blocks, happ.alternatives⟩
  · refine ⟨?_, by rw [hrej.frame]⟩
    cases hrej.stored with
    | nowhere hblocks _ => exact Or.inl hblocks
    | invalid _ _ hblocks _ => exact Or.inr hblocks
    | indexed _ _ hblocks _ => exact Or.inr hblocks

theorem WellFormed.congr (hs : s.WellFormed) (hgrow : BodiesGrow s s')
    (hentries : s'.entries = s.entries) (hindex : s'.blocksIndex = s.blocksIndex)
    (hledger : s'.ledger = s.ledger) (hpool : s'.pool = s.pool)
    (hpopping : s'.poppingBlock = s.poppingBlock) : s'.WellFormed := by
  refine ⟨hpopping.trans hs.popping, hs.vetted.congr hpool (by rw [hledger]), ⟨?_, ?_⟩,
    by rw [hentries]; exact hs.nonempty⟩
  · rw [hentries, hindex]
    exact hs.chain.indexed
  · intro i bent hbent
    rw [hentries] at hbent
    obtain ⟨b, hb, hheight⟩ := hs.chain.bodies i bent hbent
    exact ⟨b, hgrow _ b hb, hheight⟩

theorem markBranchInvalid_eq {bent : BlockchainEntry} (ids : List Hash) (hhash : bent.hash = id)
    (hbody : s.blocksByHash id = some bl) :
    s.markBranchInvalid bent bl id ids = { s with
      invalidBlockEntries := if ids = [] ∨ (s.invalidBlockEntries id).isSome
        then s.invalidBlockEntries else Function.update s.invalidBlockEntries id (some bent)
      alternativeChainEntries := fun k => if k ∈ ids then none else s.alternativeChainEntries k } := by
  induction ids generalizing s with
  | nil => simp [markBranchInvalid]
  | cons k ids ih =>
    have hsame : Function.update s.blocksByHash id (some bl) = s.blocksByHash := by
      rw [← hbody, Function.update_eq_self]
    have halt : ∀ alt : Hash → Option BlockchainEntry,
        (fun j => if j ∈ ids then none else Function.update alt k none j) =
          fun j => if j ∈ k :: ids then none else alt j := by
      intro alt
      funext j
      by_cases hj : j = k
      · simp [hj]
      · simp [hj]
    rw [markBranchInvalid]
    by_cases hinvalid : (s.invalidBlockEntries id).isSome = true
    · rw [addBlockAsInvalid, if_pos hinvalid]
      dsimp only
      rw [ih (by exact hbody)]
      simp [hinvalid, halt]
    · rw [addBlockAsInvalid, if_neg hinvalid]
      dsimp only
      rw [hhash, ih (by simp)]
      simp [hinvalid, halt, hsame]

/-- An alternative block that has passed all checks. -/
structure Placed (env : Env) (bl : Block) (id : Hash) (branch : List Hash) (place : AltPlacement)
    (prevHeight : Nat) (prevDifficulty diff : UInt64) (s : Storage) : Prop where
  previous : s.previousWork bl.prevId = .ok (prevHeight, prevDifficulty)
  checkpoint : env.checkpoints.checkBlock (prevHeight + 1) id = (true, place.isACheckpoint)
  blockType : checkBlockType env bl = true
  difficulty : s.getNextDifficultyForAlternativeChain env branch (prevHeight + 1) = .ok diff
  positive : diff ≠ 0
  prevalidated : prevalidateMinerTransaction bl (prevHeight + 1) = true
  fresh : s.alternativeChainEntries id = none
  chain : place.chain = branch ++ [id]
  bent : place.bent = ⟨id, prevHeight + 1, bl.timestamp, 0, prevDifficulty + diff, 0⟩

theorem placeAlternativeBlock_eq_ok {place : AltPlacement}
    (h : s.placeAlternativeBlock env bl id branch = .ok (.ok place, s')) :
    (∃ prevHeight prevDifficulty diff,
      Placed env bl id branch place prevHeight prevDifficulty diff s) ∧
      s' = { s with alternativeChainEntries :=
        Function.update s.alternativeChainEntries id (some place.bent) } := by
  obtain ⟨⟨prevHeight, prevDifficulty⟩, hprev, h⟩ := reading_bind_eq_ok_iff.mp h
  dsimp only at h
  split at h
  · simp at h
  rename_i hcheck
  split at h
  · simp at h
  rename_i htype
  obtain ⟨diff, hdiff, h⟩ := reading_bind_eq_ok_iff.mp h
  split at h
  · simp at h
  rename_i hpositive
  obtain ⟨proven, -, h⟩ := reading_bind_eq_ok_iff.mp h
  split at h
  · simp at h
  split at h
  · simp at h
  split at h
  · simp at h
  rename_i hpre
  split at h
  · simp at h
  rename_i hfresh
  obtain ⟨hplace, rfl⟩ := Prod.mk.inj (Except.ok.inj h)
  obtain rfl := Except.ok.inj hplace
  exact ⟨⟨prevHeight, prevDifficulty, diff, hprev, Prod.ext (by simpa using hcheck) rfl,
    by simpa using htype, hdiff, hpositive, by simpa using hpre, by simpa using hfresh, rfl, rfl⟩, rfl⟩

theorem placeAlternativeBlock_eq_error {exit : AltExit}
    (h : s.placeAlternativeBlock env bl id branch = .ok (.error exit, s')) : s' = s := by
  obtain ⟨⟨prevHeight, prevDifficulty⟩, hprev, h⟩ := reading_bind_eq_ok_iff.mp h
  dsimp only at h
  split at h
  · exact (Prod.mk.inj (Except.ok.inj h)).2.symm
  split at h
  · exact (Prod.mk.inj (Except.ok.inj h)).2.symm
  obtain ⟨diff, hdiff, h⟩ := reading_bind_eq_ok_iff.mp h
  split at h
  · exact (Prod.mk.inj (Except.ok.inj h)).2.symm
  obtain ⟨proven, -, h⟩ := reading_bind_eq_ok_iff.mp h
  split at h
  · exact (Prod.mk.inj (Except.ok.inj h)).2.symm
  split at h
  · exact (Prod.mk.inj (Except.ok.inj h)).2.symm
  split at h
  · exact (Prod.mk.inj (Except.ok.inj h)).2.symm
  split at h
  · exact (Prod.mk.inj (Except.ok.inj h)).2.symm
  · simp at h

theorem Action.bodiesGrow (h : Action env D now s s') (hs : s.Sound env) : BodiesGrow s s' := by
  cases h with
  | connect _ _ hfits hrun =>
    rcases (handleBlockToMainChain_bodies hs.toWellFormed hrun).1 with hblocks | hblocks
    · intro id b hb
      rwa [hblocks]
    · exact .of_update hfits hblocks
  | disconnect hrun =>
    intro id b hb
    rw [(PopFrame.of_pop hrun).frame]
    exact hb
  | storeBody _ _ hfits => exact .of_update hfits rfl
  | place _ _ _ hplace =>
    rw [(placeAlternativeBlock_eq_ok hplace).2]
    exact .refl s
  | markInvalid ids hbody halt =>
    rw [markBranchInvalid_eq ids (hs.alternatives _ _ halt).1 hbody]
    exact .refl s
  | eraseAlternatives _ => exact .refl s
  | logSwitchFailed _ _ => exact .refl s
  | logPushFailed => exact .refl s

theorem Action.sound (h : Action env D now s s') (hs : s.Sound env) : s'.Sound env := by
  have hgrow := h.bodiesGrow hs
  cases h with
  | @connect bl id _ _ _ _ hid hfits hrun =>
    have hwf := (handleBlockToMainChain_wellFormed hfits hs.toWellFormed).out _ hrun
    obtain ⟨hblocks, halt⟩ := handleBlockToMainChain_bodies hs.toWellFormed hrun
    refine hs.of_wellFormed hwf hgrow (fun k b hb => ?_) (fun k bent hbent => ?_)
    · rcases hblocks with hblocks | hblocks <;> rw [hblocks] at hb
      · exact Or.inl hb
      · rw [Function.update_apply] at hb
        split_ifs at hb with hk
        · cases hb
          exact Or.inr (by rw [hk, hid])
        · exact Or.inl hb
    · exact Or.inl (by rwa [halt] at hbent)
  | disconnect hrun =>
    have hwf := (popBlockFromBlockchain_wellFormed hs.toWellFormed).out _ hrun
    have hframe := (PopFrame.of_pop hrun).frame
    refine hs.of_wellFormed hwf hgrow (fun k b hb => Or.inl ?_) (fun k bent hbent => Or.inl ?_)
    · rw [hframe] at hb
      exact hb
    · rw [hframe] at hbent
      exact hbent
  | @storeBody bl id _ _ hid hfits =>
    refine hs.of_wellFormed (hs.toWellFormed.congr hgrow rfl rfl rfl rfl rfl) hgrow
      (fun k b hb => ?_) (fun k bent hbent => Or.inl hbent)
    simp only [Function.update_apply] at hb
    split_ifs at hb with hk
    · cases hb
      exact Or.inr (by rw [hk, hid])
    · exact Or.inl hb
  | @place _ bl id branch _ _ place _ _ hbody _ _ hplace =>
    obtain ⟨⟨_, _, _, hplaced⟩, rfl⟩ := placeAlternativeBlock_eq_ok hplace
    refine hs.of_wellFormed (hs.toWellFormed.congr hgrow rfl rfl rfl rfl rfl) hgrow
      (fun k b hb => Or.inl hb) (fun k bent hbent => ?_)
    simp only [Function.update_apply] at hbent
    split_ifs at hbent with hk
    · cases hbent
      refine Or.inr ⟨by rw [hplaced.bent, hk], by rw [hk, hbody]; rfl⟩
    · exact Or.inl hbent
  | markInvalid ids hbody halt =>
    rw [markBranchInvalid_eq ids (hs.alternatives _ _ halt).1 hbody] at hgrow ⊢
    refine hs.of_wellFormed (hs.toWellFormed.congr hgrow rfl rfl rfl rfl rfl) hgrow
      (fun k b hb => Or.inl hb) (fun k bent hbent => Or.inl ?_)
    dsimp only at hbent
    split_ifs at hbent
    exact hbent
  | eraseAlternatives ids =>
    refine hs.of_wellFormed (hs.toWellFormed.congr hgrow rfl rfl rfl rfl rfl) hgrow
      (fun k b hb => Or.inl hb) (fun k bent hbent => Or.inl ?_)
    simp only [Storage.eraseAlternatives] at hbent
    split_ifs at hbent
    exact hbent
  | logSwitchFailed _ _ => exact ⟨hs.toWellFormed.congr hgrow rfl rfl rfl rfl rfl, hs.hashes, hs.alternatives⟩
  | logPushFailed => exact ⟨hs.toWellFormed.congr hgrow rfl rfl rfl rfl rfl, hs.hashes, hs.alternatives⟩

theorem Sound.learnLonghash (hs : s.Sound env) (id : Hash) (longhash : Option Hash) :
    (s.learnLonghash id longhash).Sound env :=
  ⟨hs.toWellFormed.congr (.refl s) rfl rfl rfl rfl rfl, hs.hashes, hs.alternatives⟩

theorem Actions.sound (h : Actions env D now s s') (hs : s.Sound env) : s'.Sound env := by
  induction h with
  | refl => exact hs
  | tail _ hlast ih => exact hlast.sound ih

theorem Actions.bodiesGrow (h : Actions env D now s s') (hs : s.Sound env) : BodiesGrow s s' := by
  induction h with
  | refl => exact .refl s
  | tail hrun hlast ih => exact ih.trans (hlast.bodiesGrow (Actions.sound hrun hs))

end Storage

end Pebblecoin
