import Pebblecoin.ChainWork
import Pebblecoin.RunRecords

/-!
The difficulty and the timestamp rule on a branch, compared with those of the main
chain that the branch would be.
-/

namespace Pebblecoin

open Control

namespace Storage

variable {env : Env} {s : Storage}

variable {b : Block} {prevId : Hash} {branch : List Hash} {window timestamps : List UInt64}
  {above below : List (Hash × Block)}

theorem prepareAlternativeBlock_eq_ok {fuel : Nat} {id : Hash} {place : AltPlacement} {s₁ : Storage}
    (h : s.prepareAlternativeBlock env fuel b id = .ok (.ok place, s₁)) :
    ∃ branch timestamps window, s.branchTo fuel b.prevId = .ok (branch, timestamps) ∧
      s.branchTimestamps branch timestamps (s.blocksIndex b.prevId) = .ok (.ok window) ∧
      s.checkBlockTimestamp env window b = .ok true ∧
      placeAlternativeBlock env b id branch
        { s with blocksByHash := Function.update s.blocksByHash id (some b) } =
          .ok (.ok place, s₁) := by
  unfold prepareAlternativeBlock at h
  split at h
  · simp at h
  split at h
  · simp at h
  split at h
  · simp at h
  obtain ⟨⟨branch, timestamps⟩, hbranch, h⟩ := reading_bind_eq_ok_iff.mp h
  obtain ⟨stamps, hstamps, h⟩ := reading_bind_eq_ok_iff.mp h
  cases stamps with
  | error exit => simp at h
  | ok window =>
    obtain ⟨valid, hvalid, h⟩ := reading_bind_eq_ok_iff.mp h
    cases valid with
    | false => simp at h
    | true => exact ⟨branch, timestamps, window, hbranch, hstamps, hvalid, h⟩

/-- A new alternative block is stored with the work of its chain, and nothing that
follows replaces the bodies of that chain. -/
theorem handleAlternativeBlock_worked {now : UInt64} {fuel : Nat} {id : Hash} {place : AltPlacement}
    {s₁ s' : Storage} {exit : AltExit} (hs : s.Sound env) (hw : s.Worked env)
    (hid : getBlockHash env.crypto b = some id) (hfits : s.Fits b id)
    (hplace : s.prepareAlternativeBlock env fuel b id = .ok (.ok place, s₁))
    (h : s.handleAlternativeBlock env now (fuel + 1) b id = .ok (exit, s')) :
    s₁.Worked env ∧ s₁.alternativeChainEntries id = some place.bent ∧ BodiesGrow s₁ s' ∧
      s'.Sound env ∧ s'.Worked env := by
  have hactions : Actions env (fun _ => True) now s s₁ :=
    (prepareAlternativeBlock_actions now (Or.inl trivial) hid hfits).out _ hplace
  obtain ⟨branch, timestamps, window, -, -, -, hplaced⟩ := prepareAlternativeBlock_eq_ok hplace
  have hs₁ := Actions.sound hactions hs
  have hw₁ := Actions.worked hactions hs hw
  have hbent : s₁.alternativeChainEntries id = some place.bent := by
    rw [(placeAlternativeBlock_eq_ok hplaced).2]
    exact Function.update_self ..
  have hlater : Actions env (fun _ => True) now s₁ s' := by
    rw [handleAlternativeBlock, hplace] at h
    dsimp only [bind, Except.bind] at h
    split at h
    · obtain ⟨⟨switched, t⟩, ht, h⟩ := bind_eq_ok_iff.mp h
      obtain ⟨-, rfl⟩ := Prod.mk.inj (Except.ok.inj h)
      exact (switchToAlternativeBlockchain_actions (handleAlternativeBlock_actions fuel) hs₁).out _ ht
    · obtain ⟨-, rfl⟩ := Prod.mk.inj (Except.ok.inj h)
      exact .refl
  exact ⟨hw₁, hbent, Actions.bodiesGrow hlater hs₁, Actions.sound hlater hs₁,
    Actions.worked hlater hs₁ hw₁⟩

/-- The difficulty on a branch is the one that the next block would have if the
branch were the main chain.  The cumulative difficulty stored for an alternative
block, whether it was stored earlier or in the call that adds the block, is that of
its entry whenever it is on the main chain later. -/
theorem alternative_difficulty_eq_main (hs : s.Reachable env) :
    (∀ fuel prevId branch timestamps window height difficulty,
      s.branchTo fuel prevId = .ok (branch, timestamps) →
      s.branchTimestamps branch timestamps (s.blocksIndex prevId) = .ok (.ok window) →
      s.previousWork prevId = .ok (height, difficulty) →
      s.getNextDifficultyForAlternativeChain env branch (height + 1) =
        .ok ((s.onBranch prevId branch).getDifficultyForNextBlock env)) ∧
    (∀ ops s', s.Uninterrupted env ops → s.run env ops = .ok s' →
      ∀ id bent e, s.alternativeChainEntries id = some bent → e ∈ s'.entries → e.hash = id →
        e.cumulativeDifficulty = bent.cumulativeDifficulty) ∧
    (∀ now fuel b id place s₁ exit s' ops s'', getBlockHash env.crypto b = some id →
      s.haveBlock id = false →
      s.prepareAlternativeBlock env fuel b id = .ok (.ok place, s₁) →
      s.handleAlternativeBlock env now (fuel + 1) b id = .ok (exit, s') →
      s'.Uninterrupted env ops → s'.run env ops = .ok s'' →
      ∀ e ∈ s''.entries, e.hash = id →
        e.cumulativeDifficulty = place.bent.cumulativeDifficulty) := by
  have hsound := hs.sound
  have hw := hs.worked
  refine ⟨?_, ?_, ?_⟩
  · intro fuel prevId branch timestamps window height difficulty hbranch hwindow hprev
    obtain ⟨below, above, hon⟩ := branchTo_onMain hsound hw hbranch hwindow
    rw [(hon.previousWork_eq hw hprev).1, hon.difficulty, getDifficultyForNextBlock_eq]
    exact congrArg (fun works => Except.ok (nextWork env.config works)) hon.chainThrough_work.symm
  · intro ops s' hcalm hrun id bent e hbent he hid
    obtain ⟨-, hw'⟩ := run_worked hsound hw hcalm hrun
    exact congrArg Prod.snd (hw.work_eq hw' (run_bodiesGrow hsound hcalm hrun) hbent he hid)
  · intro now fuel b id place s₁ exit s' ops s'' hid hnew hplace hadd hcalm hrun e he hhash
    have hfits : s.Fits b id := by
      intro b' hb'
      simp [haveBlock, hb'] at hnew
    obtain ⟨hw₁, hbent, hgrow, hs', hw'⟩ :=
      handleAlternativeBlock_worked hsound hw hid hfits hplace hadd
    obtain ⟨-, hw''⟩ := run_worked hs' hw' hcalm hrun
    exact congrArg Prod.snd
      (hw₁.work_eq hw'' (hgrow.trans (run_bodiesGrow hs' hcalm hrun)) hbent he hhash)

def sampleAltBlock : Block :=
  sampleBlock 1 1 150 (sampleId sampleGenesis) [⟨30000000000, .toKey (Blob.ofNat 32 2)⟩]

def sampleAltPosBlock : Block := sampleBlock 2 2 250 (sampleId sampleAltBlock) []

/-- A second block on the genesis block is kept as an alternative. -/
def sampleForkOps : List (UInt64 × Op) :=
  [(1000, .addNewBlock 0 samplePowBlock), (1001, .addNewBlock 2 sampleAltBlock)]

def sampleForked : Storage := (play sampleEnv 1000 sampleGenesis sampleForkOps).getD Storage.empty

/-- A block on the alternative block turns the chain around. -/
def sampleSwitched : Storage :=
  resultD (sampleForked.calls sampleEnv [(1002, .addNewBlock 5 sampleAltPosBlock)]) Storage.empty

theorem sampleForked_reachable : sampleForked.Reachable sampleEnv :=
  (reachedBy_of_play (by decide +kernel) :
    sampleForked.ReachedBy sampleEnv sampleGenesis sampleForkOps).reachable

theorem alternative_difficulty_of_sampleForked :
    ∃ bent e, sampleForked.alternativeChainEntries (sampleId sampleAltBlock) = some bent ∧
      e ∈ sampleSwitched.entries ∧ e.hash = sampleId sampleAltBlock ∧
      e.cumulativeDifficulty = bent.cumulativeDifficulty := by
  obtain ⟨bent, hbent⟩ : ∃ bent,
      sampleForked.alternativeChainEntries (sampleId sampleAltBlock) = some bent :=
    Option.isSome_iff_exists.mp (by decide +kernel)
  obtain ⟨e, he, hhash⟩ : ∃ e ∈ sampleSwitched.entries, e.hash = sampleId sampleAltBlock :=
    by decide +kernel
  obtain ⟨hcalm, hrun⟩ := uninterrupted_of_calls
    (eq_ok_of_isOk _ (by decide +kernel) : sampleForked.calls sampleEnv
      [(1002, .addNewBlock 5 sampleAltPosBlock)] = .ok sampleSwitched)
  exact ⟨bent, e, hbent, he, hhash, (alternative_difficulty_eq_main sampleForked_reachable).2.1
    _ _ hcalm hrun _ bent e hbent he hhash⟩

theorem median_perm {l l' : List UInt64} (h : l.Perm l') : median l = median l' := by
  have hsort : l.insertionSort (· ≤ ·) = l'.insertionSort (· ≤ ·) :=
    List.Perm.eq_of_pairwise' (List.pairwise_insertionSort (· ≤ ·) l)
      (List.pairwise_insertionSort (· ≤ ·) l')
      (((List.perm_insertionSort _ l).trans h).trans (List.perm_insertionSort _ l').symm)
  rw [median, median, hsort]

/-- The earliest timestamp that a window admits. -/
def earliestTimestamp (timestamps : List UInt64) : UInt64 :=
  if timestamps.length < blockchainTimestampCheckWindow then 0 else median timestamps

theorem earliestTimestamp_reverse (l : List UInt64) :
    earliestTimestamp l.reverse = earliestTimestamp l := by
  rw [earliestTimestamp, earliestTimestamp, List.length_reverse, median_perm l.reverse_perm]

/-- Whether a delegate block keeps its distance from the block before it. -/
def keepsSpacing (env : Env) (b : Block) (s : Storage) : Bool :=
  !env.config.inPosEra (getBlockHeight b).toNat || (s.blocksByHash b.prevId).any fun prevBl =>
    decide (prevBl.timestamp + cryptonoteDposBlockMinimumBlockSpacing ≤ b.timestamp)

theorem checkBlockTimestamp_eq {prevBl : Block} (timestamps : List UInt64)
    (hprev : s.blocksByHash b.prevId = some prevBl) :
    s.checkBlockTimestamp env timestamps b =
      .ok (keepsSpacing env b s && decide (earliestTimestamp timestamps ≤ b.timestamp)) := by
  have hwindow : ∀ spaced : Bool, (if (!spaced) = true then .ok false
      else if timestamps.length < blockchainTimestampCheckWindow then .ok true
      else .ok (decide (median timestamps ≤ b.timestamp)) : Except Thrown Bool) =
        .ok (spaced && decide (earliestTimestamp timestamps ≤ b.timestamp)) := by
    intro spaced
    cases spaced with
    | false => rfl
    | true =>
      by_cases hshort : timestamps.length < blockchainTimestampCheckWindow
      · simp [earliestTimestamp, hshort]
      · simp [earliestTimestamp, hshort]
  cases hera : env.config.inPosEra (getBlockHeight b).toNat with
  | false =>
    rw [checkBlockTimestamp, hera, keepsSpacing, hera]
    exact hwindow true
  | true =>
    rw [checkBlockTimestamp, hera, keepsSpacing, hera, getBlockByHash, hprev]
    exact hwindow _

/-- The timestamps of a branch are completed to an upper part of those of the
whole chain, newest first. -/
theorem OnMain.window_eq_drop (h : OnMain env s prevId branch timestamps window below above) :
    window = (((s.chainThrough prevId branch).map (·.timestamp)).drop
      (if blockchainTimestampCheckWindow ≤ branch.length then below.length
       else if below.length = 1 then 0
       else below.length - 1 - (blockchainTimestampCheckWindow - branch.length) + 1)).reverse := by
  have hchain : (s.chainThrough prevId branch).map (·.timestamp) =
      (s.entries.take below.length).map (·.timestamp) ++ timestamps.reverse := by
    have hall := congrArg (List.map Prod.fst) h.chainThrough_work
    have hbelow := congrArg (List.map Prod.fst) h.works
    rw [lineageWork, chainWork_map_fst, List.map_map] at hall hbelow
    rw [List.map_append, ← hbelow] at hall
    rw [← h.toBranchOf.timestamps_eq, List.reverse_reverse]
    exact hall
  have hlength : branch.length = timestamps.length := by
    rw [← h.toBranchOf.ids, ← h.toBranchOf.timestamps_eq]
    simp
  have hpos := List.length_pos_iff.mpr h.toBranchOf.nonempty
  have htake : ((s.entries.take below.length).map (·.timestamp)).length = below.length := by
    rw [List.length_map, List.length_take, Nat.min_eq_left h.height_le]
  rw [h.window_eq, completeTimestampsVector, hchain, hlength]
  split
  · rw [List.drop_left' htake, List.reverse_reverse]
  rw [if_neg (by have := h.height_le; omega)]
  by_cases hone : below.length = 1
  · rw [if_pos (by omega), if_pos hone, hone, List.drop_zero, List.reverse_append,
      List.reverse_reverse]
    cases s.entries <;> rfl
  · rw [if_neg (by omega), if_neg hone, List.drop_append_of_le_length (by omega), List.reverse_append,
      List.reverse_reverse, Nat.sub_add_cancel hpos, ← List.map_drop]

theorem OnMain.timestamps_length (h : OnMain env s prevId branch timestamps window below above) :
    timestamps.length = branch.length ∧
      (s.chainThrough prevId branch).length = below.length + branch.length := by
  have hlength := congrArg List.length h.chainThrough_work
  rw [List.length_map, length_lineageWork, List.length_append] at hlength
  rw [hlength, ← h.toBranchOf.ids, ← h.toBranchOf.timestamps_eq]
  simp

theorem OnMain.earliest_of_long (h : OnMain env s prevId branch timestamps window below above)
    (hlong : blockchainTimestampCheckWindow < branch.length) :
    earliestTimestamp window = median timestamps := by
  have hlength := h.timestamps_length.1
  rw [h.window_eq, completeTimestampsVector, if_pos (by omega), earliestTimestamp,
    if_neg (by omega)]

/-- A chain of sixty blocks that branches off above the genesis block is not judged
at all. -/
theorem OnMain.earliest_of_sixty (h : OnMain env s prevId branch timestamps window below above)
    (hsixty : (s.chainThrough prevId branch).length = blockchainTimestampCheckWindow)
    (hbranch : branch.length + 1 < blockchainTimestampCheckWindow) :
    earliestTimestamp window = 0 := by
  have hlength := h.timestamps_length.2
  rw [h.window_eq_drop, earliestTimestamp_reverse, earliestTimestamp, if_pos]
  rw [if_neg (by omega), if_neg (by omega), List.length_drop, List.length_map]
  omega

theorem OnMain.earliest_eq (h : OnMain env s prevId branch timestamps window below above)
    (hlong : branch.length ≤ blockchainTimestampCheckWindow)
    (hsixty : (s.chainThrough prevId branch).length = blockchainTimestampCheckWindow →
      blockchainTimestampCheckWindow ≤ branch.length + 1) :
    earliestTimestamp window = earliestTimestamp (s.onBranch prevId branch).lastTimestamps := by
  have hlength := h.timestamps_length.2
  have hpos := List.length_pos_iff.mpr h.toBranchOf.nonempty
  rw [h.window_eq_drop, earliestTimestamp_reverse, lastTimestamps, onBranch, List.map_drop]
  dsimp only
  rcases Nat.lt_or_ge (s.chainThrough prevId branch).length blockchainTimestampCheckWindow with
    hshort | hfull
  · rw [earliestTimestamp, earliestTimestamp, if_pos, if_pos]
    · rw [List.length_drop, List.length_map]
      omega
    · rw [List.length_drop, List.length_map]
      omega
  · congr 2
    split
    · omega
    split
    · omega
    · omega

/-- The timestamp rule on a branch and the one on the chain that the branch would
be agree, except for the two windows that are built in another way. -/
theorem branch_timestamp_check_iff (hs : s.Reachable env) {fuel : Nat} {b : Block}
    {branch : List Hash} {timestamps window : List UInt64}
    (hbranch : s.branchTo fuel b.prevId = .ok (branch, timestamps))
    (hwindow : s.branchTimestamps branch timestamps (s.blocksIndex b.prevId) = .ok (.ok window)) :
    s.checkBlockTimestamp env window b =
        (s.onBranch b.prevId branch).checkBlockTimestamp env
          (s.onBranch b.prevId branch).lastTimestamps b ↔
      (keepsSpacing env b s = true →
        (60 < branch.length → (median timestamps ≤ b.timestamp ↔
          median (s.onBranch b.prevId branch).lastTimestamps ≤ b.timestamp)) ∧
        ((s.chainThrough b.prevId branch).length = 60 → branch.length < 59 →
          median (s.onBranch b.prevId branch).lastTimestamps ≤ b.timestamp)) := by
  obtain ⟨below, above, hon⟩ := branchTo_onMain hs.sound hs.worked hbranch hwindow
  obtain ⟨-, prevBl, -, -, hprev, -⟩ := hon.lineage.getLast_body hon.last
  have hlength := hon.timestamps_length.2
  have hlast : 60 ≤ (s.chainThrough b.prevId branch).length →
      earliestTimestamp (s.onBranch b.prevId branch).lastTimestamps =
        median (s.onBranch b.prevId branch).lastTimestamps := by
    intro hfull
    have hsixty : (s.onBranch b.prevId branch).lastTimestamps.length = 60 := by
      simp only [lastTimestamps, onBranch, List.length_map, List.length_drop,
        blockchainTimestampCheckWindow]
      omega
    rw [earliestTimestamp, hsixty, if_neg (by decide)]
  rw [checkBlockTimestamp_eq window hprev,
    checkBlockTimestamp_eq (s := s.onBranch b.prevId branch) _ hprev]
  have hanswers : (Except.ok (keepsSpacing env b s && decide (earliestTimestamp window ≤ b.timestamp)) :
      Except Thrown Bool) = .ok (keepsSpacing env b s && decide (earliestTimestamp
        (s.onBranch b.prevId branch).lastTimestamps ≤ b.timestamp)) ↔
      (keepsSpacing env b s = true → (earliestTimestamp window ≤ b.timestamp ↔
        earliestTimestamp (s.onBranch b.prevId branch).lastTimestamps ≤ b.timestamp)) := by
    cases keepsSpacing env b s <;> simp
  refine hanswers.trans (forall_congr' fun _ => ?_)
  by_cases hlong : 60 < branch.length
  · rw [hon.earliest_of_long hlong, hlast (by omega)]
    refine ⟨fun h => ⟨fun _ => h, fun hsixty _ => by omega⟩, fun h => h.1 hlong⟩
  by_cases hsixty : (s.chainThrough b.prevId branch).length = 60 ∧ branch.length < 59
  · rw [hon.earliest_of_sixty hsixty.1 (Nat.succ_lt_succ hsixty.2), hlast hsixty.1.ge]
    refine ⟨fun h => ⟨fun hlt => absurd hlt hlong, fun _ _ => h.mp UInt64.zero_le⟩, fun h => ?_⟩
    exact ⟨fun _ => h.2 hsixty.1 hsixty.2, fun _ => UInt64.zero_le⟩
  · rw [hon.earliest_eq (not_lt.mp hlong) fun heq => not_lt.mp fun hlt =>
      hsixty ⟨heq, Nat.lt_of_succ_lt_succ hlt⟩]
    exact ⟨fun _ => ⟨fun hlt => absurd hlt hlong, fun heq hlt => absurd ⟨heq, hlt⟩ hsixty⟩,
      fun _ => Iff.rfl⟩

/-- The alternative chain of exactly sixty blocks takes a block that is earlier than
its median. -/
theorem OnMain.accepts_early (h : OnMain env s b.prevId branch timestamps window below above)
    (hsixty : (s.chainThrough b.prevId branch).length = blockchainTimestampCheckWindow)
    (hbranch : branch.length + 1 < blockchainTimestampCheckWindow)
    (hspacing : keepsSpacing env b s = true)
    (hearly : b.timestamp < earliestTimestamp (s.onBranch b.prevId branch).lastTimestamps) :
    s.checkBlockTimestamp env window b = .ok true ∧
      (s.onBranch b.prevId branch).checkBlockTimestamp env
        (s.onBranch b.prevId branch).lastTimestamps b = .ok false := by
  obtain ⟨-, prevBl, -, -, hprev, -⟩ := h.lineage.getLast_body h.last
  constructor
  · rw [checkBlockTimestamp_eq window hprev, hspacing, h.earliest_of_sixty hsixty hbranch]
    simp
  · rw [checkBlockTimestamp_eq (s := s.onBranch b.prevId branch) _ hprev]
    simp [hearly]

def sampleLongBlocks : List Block := samplePowBlocks 60 1 (sampleId sampleGenesis)

/-- A second block at height 60. -/
def sampleLongFork : Block :=
  sampleBlock 1 60 200 ((sampleLongBlocks[58]?.map sampleId).getD nullHash)
    [⟨30000000000, .toKey (Blob.ofNat 32 2)⟩]

def sampleLongOps : List (UInt64 × Op) :=
  sampleLongBlocks.map (fun b => (1000, .addNewBlock 0 b)) ++ [(1000, .addNewBlock 2 sampleLongFork)]

/-- A second block at height 60, with the timestamp of the genesis block. -/
def sampleEarlyBlock (prevId : Hash) : Block := sampleBlock 1 60 0 prevId []

/-- The branch of the second block at height 60 gives a full window. -/
def fillsWindow (s : Storage) : Bool :=
  (s.branchTo 2 (sampleId sampleLongFork)).toOption.any fun r =>
    decide (r.1.length = 1) && decide ((s.chainThrough (sampleId sampleLongFork) r.1).length = 61) &&
      (s.branchTimestamps r.1 r.2 (s.blocksIndex (sampleId sampleLongFork))).toOption.any fun window =>
        window.toOption.any fun window => decide (window.length = 60)

theorem sampleLong_play :
    ((play samplePowEnv 1000 sampleGenesis sampleLongOps).map fun s =>
      (s.entries.map (·.timestamp),
        s.alternativeChainEntries ((s.entries[59]?.map (·.hash)).getD nullHash), s.fillsWindow)) =
      some (0 :: (List.range 60).map (fun i => UInt64.ofNat (101 + i)), none, true) := by
  decide +kernel

/-- On a branch of one block with a chain of sixty below, every timestamp is compared with the
same median. -/
theorem branch_timestamp_check_of_sampleLongFork :
    ∃ (s : Storage) (branch : List Hash) (timestamps window : List UInt64),
      s.branchTo 2 (sampleId sampleLongFork) = .ok (branch, timestamps) ∧
        s.branchTimestamps branch timestamps (s.blocksIndex (sampleId sampleLongFork)) =
          .ok (.ok window) ∧
        branch.length = 1 ∧ window.length = 60 ∧
        ∀ b : Block, b.prevId = sampleId sampleLongFork →
          s.checkBlockTimestamp samplePowEnv window b =
            (s.onBranch b.prevId branch).checkBlockTimestamp samplePowEnv
              (s.onBranch b.prevId branch).lastTimestamps b := by
  obtain ⟨s, hplay, hs⟩ := Option.map_eq_some_iff.mp sampleLong_play
  obtain ⟨-, hs⟩ := Prod.mk.inj hs
  obtain ⟨⟨branch, timestamps⟩, hbranch, hfills⟩ :=
    (Option.any_eq_true _ _).mp (Prod.mk.inj hs).2
  simp only [Bool.and_eq_true, decide_eq_true_eq] at hfills
  obtain ⟨⟨hone, hlength⟩, hany⟩ := hfills
  obtain ⟨r, hr, hany⟩ := (Option.any_eq_true _ _).mp hany
  obtain ⟨window, hwindow, hsixty⟩ := (Option.any_eq_true _ _).mp hany
  have hbranch := eq_ok_of_toOption hbranch
  have hwindow := (eq_ok_of_toOption hr).trans (congrArg Except.ok (eq_ok_of_toOption hwindow))
  refine ⟨s, branch, timestamps, window, hbranch, hwindow, hone, of_decide_eq_true hsixty,
    fun b hb => ?_⟩
  rw [← hb] at hbranch hwindow hlength
  refine (branch_timestamp_check_iff (reachedBy_of_play_eq hplay).reachable hbranch hwindow).mpr
    fun _ => ⟨fun hlong => ?_, fun hchain => ?_⟩
  · omega
  · omega

/-- A chain of sixty blocks is not compared with its median if it is an alternative
one, so that a block is taken whose timestamp the main chain would refuse. -/
theorem branch_accepts_early_timestamp :
    ∃ (s : Storage) (b : Block) (window : List UInt64),
      s.Reachable samplePowEnv ∧ s.entries.length = 61 ∧
      s.branchTo 1 b.prevId = .ok ([], []) ∧
      s.branchTimestamps [] [] (s.blocksIndex b.prevId) = .ok (.ok window) ∧
      s.checkBlockTimestamp samplePowEnv window b = .ok true ∧
      (s.onBranch b.prevId []).checkBlockTimestamp samplePowEnv
        (s.onBranch b.prevId []).lastTimestamps b = .ok false := by
  obtain ⟨s, hplay, hs⟩ := Option.map_eq_some_iff.mp sampleLong_play
  obtain ⟨hstamps, hs⟩ := Prod.mk.inj hs
  have halt := (Prod.mk.inj hs).1
  have hreach : s.Reachable samplePowEnv := (reachedBy_of_play_eq hplay).reachable
  have hentries : s.entries.length = 61 := by
    rw [← List.length_map (·.timestamp), hstamps]
    rfl
  obtain ⟨bent, hbent⟩ : ∃ bent, s.entries[59]? = some bent :=
    Option.ne_none_iff_exists'.mp (by rw [ne_eq, List.getElem?_eq_none_iff, hentries]; decide)
  rw [hbent, Option.map_some, Option.getD_some] at halt
  have hindex : s.blocksIndex bent.hash = some 59 := hreach.sound.chain.indexed 59 bent hbent
  have hbranch : s.branchTo 1 bent.hash = .ok ([], []) := by simp [branchTo, halt]
  have hwindow : s.branchTimestamps [] [] (s.blocksIndex bent.hash) =
      .ok (.ok (s.completeTimestampsVector 59 [])) := by
    rw [hindex]
    rfl
  have hchain : s.chainThrough bent.hash [] = s.entries.take 60 := by simp [chainThrough, hindex]
  have hlast : (s.onBranch bent.hash []).lastTimestamps =
      (0 :: (List.range 60).map (fun i => UInt64.ofNat (101 + i))).take 60 := by
    rw [← hstamps, ← List.map_take, lastTimestamps, onBranch]
    dsimp only
    rw [hchain, List.length_take, hentries, blockchainTimestampCheckWindow,
      Nat.min_eq_left (by decide), Nat.sub_self, List.drop_zero]
  obtain ⟨below, above, hon⟩ := branchTo_onMain hreach.sound hreach.worked hbranch hwindow
  refine ⟨s, sampleEarlyBlock bent.hash, _, hreach, hentries, hbranch, hwindow,
    OnMain.accepts_early (b := sampleEarlyBlock bent.hash) hon ?_ (by decide) ?_ ?_⟩
  · change (s.chainThrough bent.hash []).length = _
    rw [hchain, List.length_take, hentries]
    rfl
  · rfl
  · change (0 : UInt64) < earliestTimestamp (s.onBranch bent.hash []).lastTimestamps
    rw [hlast]
    decide +kernel

end Storage

end Pebblecoin
