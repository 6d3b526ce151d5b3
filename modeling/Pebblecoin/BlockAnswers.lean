import Pebblecoin.SyncTracking

/-!
Which blocks the core answers for: those whose id it has afterwards, unless it says
that they failed or are orphans.
-/

namespace Pebblecoin

open Control Wire

namespace Storage

section Answers

variable {env : Env} {now : UInt64} {s s' : Storage} {b : Block} {id : Hash}

/-- The exits that set no flag although the block was not added. -/
def HandleExit.isQuiet : HandleExit → Bool
  | .wrongPrevId | .difficultyOverhead => true
  | _ => false

theorem connectTransactions_not_quiet (txIds : List Hash) (totals : BlockTotals) (s : Storage) :
    Returns (s.connectTransactions env now b id txIds totals) fun r =>
      ∀ exit, r.1 = .error exit → exit.isQuiet = false := by
  induction txIds generalizing totals s with
  | nil => exact Returns.ok_iff.mpr fun _ h => (nomatch h)
  | cons txId rest ih =>
    rw [connectTransactions]
    split
    · refine Returns.bind_const fun r => Returns.ok_iff.mpr ?_
      rintro _ ⟨⟩
      rfl
    · refine Returns.bind_const fun valid => ?_
      split
      · refine Returns.bind_const fun _ => Returns.bind_const fun _ => Returns.ok_iff.mpr ?_
        rintro _ ⟨⟩
        rfl
      · refine Returns.bind_const fun r => ?_
        obtain ⟨added, t⟩ := r
        cases added with
        | false =>
          refine Returns.bind_const fun _ => Returns.bind_const fun _ => Returns.ok_iff.mpr ?_
          rintro _ ⟨⟩
          rfl
        | true => exact ih ..

theorem appendBlock_not_quiet (totals : BlockTotals) (diff : UInt64) (s : Storage) :
    Returns (s.appendBlock env now b id totals diff) fun r => r.1.isQuiet = false := by
  refine Returns.bind_const fun fee => ?_
  split
  · exact Returns.bind_const fun _ => Returns.ok_iff.mpr rfl
  · dsimp only
    split
    · exact Returns.bind_const fun _ => Returns.ok_iff.mpr rfl
    · refine Returns.bind_const fun t => Returns.bind_const fun r => ?_
      split
      · exact Returns.bind_const fun _ => Returns.ok_iff.mpr rfl
      · exact Returns.ok_iff.mpr rfl

theorem connectBlock_not_quiet (diff : UInt64) (s : Storage) :
    Returns (s.connectBlock env now b id diff) fun r => r.1.isQuiet = false := by
  refine Returns.bind_const fun valid => ?_
  split
  · exact Returns.ok_iff.mpr rfl
  · refine Returns.bind_const fun r => ?_
    obtain ⟨added, t⟩ := r
    cases added with
    | false => exact Returns.ok_iff.mpr rfl
    | true =>
      refine Returns.bind (connectTransactions_not_quiet ..) fun r hr => ?_
      obtain ⟨r, t⟩ := r
      cases r with
      | error exit => exact Returns.ok_iff.mpr (hr exit rfl)
      | ok totals => exact appendBlock_not_quiet ..

theorem checkProof_not_quiet : Returns (s.checkProof env b id) fun r =>
    ∀ exit, r = some exit → exit.isQuiet = false := by
  rw [checkProof]
  split
  · refine Returns.ok_iff.mpr fun exit h => ?_
    split at h <;> cases h
    rfl
  · refine Returns.map ⟨fun proof _ exit h => ?_⟩
    cases proof <;> cases h <;> rfl

theorem atLeastOne_ne_zero (n : UInt64) : (if n < 1 then 1 else n) ≠ 0 := by
  split
  · decide
  · rename_i hn
    rintro rfl
    exact hn (by decide)

theorem nextDifficulty_ne_zero (cfg : Config) (height : Nat) (timestamps diffs : List UInt64) :
    nextDifficulty cfg height timestamps diffs ≠ 0 := by
  by_cases hlength : (timestamps.take difficultyWindow).length ≤ 1
  · have hone : nextDifficulty cfg height timestamps diffs = 1 := if_pos hlength
    rw [hone]
    decide
  · have hres : nextDifficulty cfg height timestamps diffs = if _ < 1 then 1 else _ :=
      if_neg hlength
    rw [hres]
    exact atLeastOne_ne_zero _

theorem getDifficultyForNextBlock_ne_zero (env : Env) (s : Storage) :
    s.getDifficultyForNextBlock env ≠ 0 := by
  rw [getDifficultyForNextBlock]
  split
  · decide
  · exact nextDifficulty_ne_zero _ _ _ _

theorem checkBlockHeader_not_quiet (htail : b.prevId = s.getTailId) :
    Returns (s.checkBlockHeader env now b id) fun r =>
      ∀ exit, r = some exit → exit.isQuiet = false := by
  rw [checkBlockHeader, if_neg (not_not.mpr htail)]
  refine Returns.bind_const fun stamp => ?_
  by_cases hstamp : (!stamp) = true
  · rw [if_pos hstamp]
    exact Returns.ok_iff.mpr fun _ h => by cases h; rfl
  rw [if_neg hstamp]
  by_cases htype : (!checkBlockType env b) = true
  · rw [if_pos htype]
    exact Returns.ok_iff.mpr fun _ h => by cases h; rfl
  rw [if_neg htype, if_neg (getDifficultyForNextBlock_ne_zero env s)]
  refine Returns.bind checkProof_not_quiet fun proof hproof => Returns.ok_iff.mpr fun exit h => ?_
  cases proof with
  | some exit' => exact hproof exit h
  | none =>
    dsimp only at h
    split at h <;> cases h
    rfl

theorem handleBlockToMainChain_not_quiet {exit : HandleExit} (htail : b.prevId = s.getTailId)
    (h : s.handleBlockToMainChain env now b id = .ok (exit, s')) : exit.isQuiet = false := by
  obtain ⟨header, hheader, h⟩ := reading_bind_eq_ok_iff.mp h
  cases header with
  | none => exact (connectBlock_not_quiet ..).out _ h
  | some exit' =>
    obtain ⟨rfl, -⟩ := Prod.mk.inj (Except.ok.inj h)
    exact (checkBlockHeader_not_quiet htail).out _ hheader _ rfl

/-- The stored branch that ends in `prevId` is connected to the main chain. -/
def BranchConnected (s : Storage) (prevId : Hash) : Prop :=
  ∀ fuel front rest timestamps frontEnt frontBl,
    s.branchTo fuel prevId = .ok (front :: rest, timestamps) →
    s.alternativeChainEntries front = some frontEnt → s.blocksByHash frontEnt.hash = some frontBl →
    frontEnt.height < s.entries.length ∧
      s.entries[frontEnt.height - 1]?.map (·.hash) = some frontBl.prevId

theorem branchTo_eq_nil {fuel : Nat} {timestamps : List UInt64}
    (h : s.branchTo fuel id = .ok ([], timestamps)) : s.alternativeChainEntries id = none := by
  cases fuel with
  | zero => cases h
  | succ fuel =>
    rw [branchTo] at h
    cases halt : s.alternativeChainEntries id with
    | none => rfl
    | some bent =>
      simp only [halt] at h
      obtain ⟨bl, -, h⟩ := bind_eq_ok_iff.mp h
      obtain ⟨⟨ids, stamps⟩, -, h⟩ := bind_eq_ok_iff.mp h
      have hids := congrArg Prod.fst (Except.ok.inj h)
      simp at hids

theorem BranchConnected.branchTimestamps_ne_error {prevId : Hash} (hs : s.Sound env)
    (hconn : s.BranchConnected prevId)
    (hknown : ((s.alternativeChainEntries prevId).isNone && (s.blocksIndex prevId).isNone) = false)
    {fuel : Nat} {branch : List Hash} {timestamps : List UInt64} {exit : AltExit}
    (hbranch : s.branchTo fuel prevId = .ok (branch, timestamps)) :
    s.branchTimestamps branch timestamps (s.blocksIndex prevId) ≠ .ok (.error exit) := by
  intro h
  cases branch with
  | nil =>
    rw [branchTo_eq_nil hbranch] at hknown
    obtain ⟨height, hheight⟩ := Option.isSome_iff_exists.mp (by simpa using hknown)
    rw [hheight] at h
    cases h
  | cons front rest =>
    obtain ⟨frontEnt, hent, h⟩ := bind_eq_ok_iff.mp h
    have halt := getAlternativeEntry_eq_ok hent
    obtain ⟨hhash, hbody⟩ := hs.alternatives front frontEnt halt
    obtain ⟨frontBl, hbl⟩ := Option.isSome_iff_exists.mp hbody
    rw [← hhash] at hbl
    obtain ⟨hheight, hprev⟩ := hconn fuel front rest timestamps frontEnt frontBl hbranch halt hbl
    rw [if_neg (not_le.mpr hheight), getBlockByHash, hbl, ok_bind, if_neg (not_not.mpr hprev)] at h
    cases h

/-- The exits of an alternative block before its body is stored, apart from those of
an unconnected branch. -/
def AltExit.isEarly : AltExit → Bool
  | .wrongMinerTransaction | .notAllowed | .orphaned | .invalidTimestamp => true
  | _ => false

/-- A block that passes the first checks extends a connected branch. The height they
look at is the one that the block claims to have. -/
def ConnectedIfAllowed (env : Env) (s : Storage) (b : Block) : Prop :=
  getBlockHeight b ≠ 0 → env.checkpoints.isAlternativeBlockAllowed
    (s.getCurrentBlockchainHeight - 1) (getBlockHeight b).toNat = true → s.BranchConnected b.prevId

theorem prepareAlternativeBlock_stored {fuel : Nat} {r : Except AltExit AltPlacement}
    (hs : s.Sound env) (hconn : s.ConnectedIfAllowed env b)
    (h : s.prepareAlternativeBlock env fuel b id = .ok (r, s')) :
    (∃ exit, r = .error exit ∧ exit.isEarly = true) ∨ s'.blocksByHash id = some b := by
  unfold prepareAlternativeBlock at h
  split at h
  · cases h
    exact .inl ⟨_, rfl, rfl⟩
  rename_i hheight
  split at h
  · cases h
    exact .inl ⟨_, rfl, rfl⟩
  rename_i hallowed
  split at h
  · cases h
    exact .inl ⟨_, rfl, rfl⟩
  rename_i hknown
  have hconn := hconn hheight (by simpa using hallowed)
  obtain ⟨⟨branch, timestamps⟩, hbranch, h⟩ := reading_bind_eq_ok_iff.mp h
  obtain ⟨stamps, hstamps, h⟩ := reading_bind_eq_ok_iff.mp h
  cases stamps with
  | error exit =>
    exact absurd hstamps
      (hconn.branchTimestamps_ne_error hs (Bool.eq_false_iff.mpr hknown) hbranch)
  | ok window =>
    obtain ⟨valid, hvalid, h⟩ := reading_bind_eq_ok_iff.mp h
    cases valid with
    | false =>
      cases h
      exact .inl ⟨_, rfl, rfl⟩
    | true =>
      right
      cases r with
      | error exit =>
        rw [placeAlternativeBlock_eq_error h]
        exact Function.update_self ..
      | ok place =>
        rw [(placeAlternativeBlock_eq_ok h).2]
        exact Function.update_self ..

theorem handleAlternativeBlock_stored {fuel : Nat} {exit : AltExit} (hs : s.Sound env)
    (hid : getBlockHash env.crypto b = some id) (hfits : s.Fits b id)
    (hconn : s.ConnectedIfAllowed env b)
    (h : s.handleAlternativeBlock env now fuel b id = .ok (exit, s')) :
    exit.isEarly = true ∨ s'.blocksByHash id = some b := by
  cases fuel with
  | zero => cases h
  | succ fuel =>
    rw [handleAlternativeBlock] at h
    obtain ⟨⟨r, s₁⟩, hprepare, h⟩ := bind_eq_ok_iff.mp h
    have hstored := prepareAlternativeBlock_stored hs hconn hprepare
    have hactions : Actions env (fun _ => True) now s s₁ :=
      (prepareAlternativeBlock_actions now (Or.inl trivial) hid hfits).out _ hprepare
    have hs₁ := Actions.sound hactions hs
    cases r with
    | error exit' =>
      obtain ⟨rfl, rfl⟩ := Prod.mk.inj (Except.ok.inj h)
      refine hstored.imp_left ?_
      rintro ⟨exit, ⟨⟩, hearly⟩
      exact hearly
    | ok place =>
      obtain ⟨exit', hexit, -⟩ | hbody := hstored
      · cases hexit
      right
      dsimp only at h
      split at h
      · obtain ⟨⟨switched, t⟩, ht, h⟩ := bind_eq_ok_iff.mp h
        obtain ⟨-, rfl⟩ := Prod.mk.inj (Except.ok.inj h)
        have hlater : Actions env (fun _ => True) now s₁ t :=
          (switchToAlternativeBlockchain_actions (handleAlternativeBlock_actions fuel) hs₁).out
            _ ht
        exact Actions.bodiesGrow hlater hs₁ id b hbody
      · obtain ⟨-, rfl⟩ := Prod.mk.inj (Except.ok.inj h)
        exact hbody

/-- The core has an answer for the block: it has the block, the block is next on the
main chain, or the branch it extends is connected to the main chain. -/
def Answering (env : Env) (s : Storage) (b : Block) : Prop :=
  ∀ id, getBlockHash env.crypto b = some id → s.haveBlock id = false → b.prevId ≠ s.getTailId →
    s.ConnectedIfAllowed env b

theorem Answering.addNewBlock {fuel : Nat} {exit : AddExit} (hs : s.Sound env)
    (hanswering : s.Answering env b) (hid : getBlockHash env.crypto b = some id)
    (h : s.addNewBlock env now fuel b = .ok (exit, s')) :
    exit.verification.verificationFailed = true ∨ exit.verification.markedAsOrphaned = true ∨
      s'.haveBlock id = true := by
  rw [Storage.addNewBlock, hid] at h
  dsimp only at h
  by_cases hhave : s.haveBlock id = true
  · rw [if_pos hhave] at h
    cases h
    exact .inr (.inr hhave)
  rw [if_neg hhave] at h
  have hfits : s.Fits b id := by
    intro b' hb'
    simp [haveBlock, hb'] at hhave
  by_cases htail : b.prevId = s.getTailId
  · rw [if_pos htail] at h
    obtain ⟨⟨exit', t⟩, hhandle, h⟩ := bind_eq_ok_iff.mp h
    obtain ⟨rfl, rfl⟩ := Prod.mk.inj (Except.ok.inj h)
    have hquiet := handleBlockToMainChain_not_quiet htail hhandle
    by_cases hadded : exit' = .added
    · subst hadded
      obtain ⟨taken, l, fee, base, prev, happ⟩ := hs.appended hhandle
      refine .inr (.inr ?_)
      rw [haveBlock, happ.blocks, Function.update_self]
      rfl
    · left
      cases exit' <;> first | rfl | simp [HandleExit.isQuiet] at hquiet hadded
  · rw [if_neg htail] at h
    obtain ⟨⟨exit', t⟩, hhandle, h⟩ := bind_eq_ok_iff.mp h
    obtain ⟨rfl, rfl⟩ := Prod.mk.inj (Except.ok.inj h)
    rcases handleAlternativeBlock_stored hs hid hfits (hanswering id hid (Bool.eq_false_iff.mpr hhave) htail) hhandle with
      hearly | hbody
    · cases exit' <;> simp_all [AltExit.isEarly, AddExit.verification]
    · refine .inr (.inr ?_)
      rw [haveBlock, hbody]
      rfl

end Answers

end Storage

end Pebblecoin
