import Pebblecoin.Containers.Lineage
import Pebblecoin.Operations

/-!
The work of a chain is a function of its timestamps alone, whether its blocks are
on the main chain or on a branch.
-/

namespace Pebblecoin

open Containers Control

variable {bl : Block} {id prevId : Hash} {above below chain : List (Hash × Block)}
  {window timestamps : List UInt64} {fuel : Nat} {branch : List Hash} {s' : Storage} {now : UInt64}

/-- Timestamp and cumulative difficulty. -/
abbrev Work := UInt64 × UInt64

section Spec

variable (cfg : Config)

/-- The difficulty of the block on top of a chain with the given works. -/
def nextWork (works : List Work) : UInt64 :=
  if cfg.inPosEra works.length then dposBlockDifficulty
  else
    let window := works.drop (max 1 (works.length - difficultyBlocksCount))
    nextDifficulty cfg works.length (window.map Prod.fst) (window.map Prod.snd)

def extendWork (works : List Work) (timestamp : UInt64) : List Work :=
  works ++ [(timestamp, nextWork cfg works + ((works.getLast?.map Prod.snd).getD 0))]

/-- The works that the blocks of a chain receive one after the other. -/
def chainWork (timestamps : List UInt64) : List Work :=
  timestamps.foldl (extendWork cfg) []

end Spec

section ChainWork

variable {cfg : Config}

theorem chainWork_snoc (ts : List UInt64) (t : UInt64) :
    chainWork cfg (ts ++ [t]) = extendWork cfg (chainWork cfg ts) t := by
  simp [chainWork]

@[simp] theorem chainWork_map_fst (ts : List UInt64) : (chainWork cfg ts).map Prod.fst = ts := by
  induction ts using List.reverseRecOn with
  | nil => rfl
  | append_singleton ts t ih => rw [chainWork_snoc, extendWork, List.map_append, ih]; rfl

@[simp] theorem length_chainWork (ts : List UInt64) : (chainWork cfg ts).length = ts.length := by
  rw [← List.length_map Prod.fst, chainWork_map_fst]

theorem chainWork_append (ts ts' : List UInt64) :
    ∃ above, chainWork cfg (ts ++ ts') = chainWork cfg ts ++ above := by
  induction ts' using List.reverseRecOn with
  | nil => exact ⟨[], by simp⟩
  | append_singleton ts' t ih =>
    obtain ⟨above, habove⟩ := ih
    rw [← List.append_assoc, chainWork_snoc, extendWork, habove, List.append_assoc]
    exact ⟨_, rfl⟩

theorem chainWork_take (ts : List UInt64) (n : Nat) :
    (chainWork cfg ts).take n = chainWork cfg (ts.take n) := by
  obtain ⟨above, habove⟩ :
      ∃ above, chainWork cfg (ts.take n ++ ts.drop n) = chainWork cfg (ts.take n) ++ above :=
    chainWork_append ..
  rw [List.take_append_drop] at habove
  rw [habove]
  rcases Nat.le_total n ts.length with hn | hn
  · exact List.take_left' (by simp [hn])
  · have hall : above = [] := by
      have hlength := congrArg List.length habove
      simp only [length_chainWork, List.length_append, List.length_take, Nat.min_eq_right hn] at hlength
      exact List.length_eq_zero_iff.mp (by omega)
    rw [hall, List.append_nil, List.take_of_length_le (by simp)]

end ChainWork

def BlockchainEntry.work (bent : BlockchainEntry) : Work :=
  (bent.timestamp, bent.cumulativeDifficulty)

namespace Storage

variable {env : Env} {s : Storage}

theorem getDifficultyForNextBlock_eq (env : Env) (s : Storage) :
    s.getDifficultyForNextBlock env = nextWork env.config (s.entries.map (·.work)) := by
  simp [getDifficultyForNextBlock, difficultyEntries, nextWork, BlockchainEntry.work,
    ← List.map_drop, Function.comp_def]

theorem newEntry_work {totals : BlockTotals} {base : UInt64} :
    (s.entries ++ [s.newEntry bl id totals (s.getDifficultyForNextBlock env) base]).map (·.work) =
      extendWork env.config (s.entries.map (·.work)) bl.timestamp := by
  rw [List.map_append, extendWork, getDifficultyForNextBlock_eq]
  simp [newEntry, BlockchainEntry.work, Function.comp_def]

/-- A chain of stored blocks, lowest first. -/
def Lineage (s : Storage) (chain : List (Hash × Block)) : Prop :=
  Containers.Lineage (fun b : Block => b.prevId) (fun b => (getBlockHeight b).toNat) s.blocksByHash chain

def lineageWork (env : Env) (chain : List (Hash × Block)) : List Work :=
  chainWork env.config (chain.map (·.2.timestamp))

@[simp] theorem length_lineageWork (chain : List (Hash × Block)) :
    (lineageWork env chain).length = chain.length := by
  simp [lineageWork]

theorem lineageWork_snoc (chain : List (Hash × Block)) (id : Hash) (b : Block) :
    lineageWork env (chain ++ [(id, b)]) =
      extendWork env.config (lineageWork env chain) b.timestamp := by
  simp [lineageWork, chainWork_snoc]

theorem lineageWork_take (chain : List (Hash × Block)) (n : Nat) :
    lineageWork env (chain.take n) = (lineageWork env chain).take n := by
  rw [lineageWork, lineageWork, chainWork_take, List.map_take]

/-- Every entry, of the main chain or of a branch, has the work that its stored
chain gives it. -/
structure Worked (env : Env) (s : Storage) : Prop where
  main : ∃ chain, s.Lineage chain ∧ chain.map Prod.fst = s.entries.map (·.hash) ∧
    s.entries.map (·.work) = lineageWork env chain
  index : ∀ id h, s.blocksIndex id = some h → s.entries[h]?.map (·.hash) = some id
  alternatives : ∀ id bent, s.alternativeChainEntries id = some bent →
    ∃ chain b, chain ≠ [] ∧ s.Lineage (chain ++ [(id, b)]) ∧ bent.height = chain.length ∧
      (lineageWork env (chain ++ [(id, b)])).getLast? = some bent.work

theorem Lineage.getLast_body (h : s.Lineage chain) (hlast : chain.getLast?.map Prod.fst = some id) :
    ∃ below b, chain = below ++ [(id, b)] ∧ s.Lineage below ∧ s.blocksByHash id = some b ∧
      (getBlockHeight b).toNat = below.length ∧
      ∀ q, below.getLast? = some q → q.1 = b.prevId := by
  rcases List.eq_nil_or_concat' chain with rfl | ⟨below, ⟨k, b⟩, rfl⟩
  · simp at hlast
  · obtain rfl : k = id := by simpa using hlast
    obtain ⟨hbelow, hbody, hheight, hprev⟩ := Containers.Lineage.snoc_iff.mp h
    exact ⟨below, b, rfl, hbelow, hbody, hheight, hprev⟩

theorem Worked.alternative {bent : BlockchainEntry} (hw : s.Worked env) (h : s.Lineage chain)
    (hlast : chain.getLast?.map Prod.fst = some id)
    (hbent : s.alternativeChainEntries id = some bent) :
    ∃ below b, below ≠ [] ∧ chain = below ++ [(id, b)] ∧ bent.height = below.length ∧
      bent.timestamp = b.timestamp ∧
      lineageWork env chain = lineageWork env below ++ [bent.work] := by
  obtain ⟨below, b, hne, hlineage, hheight, hwork⟩ := hw.alternatives id bent hbent
  obtain rfl : chain = below ++ [(id, b)] := h.unique hlineage hlast (by simp)
  rw [lineageWork_snoc, extendWork] at hwork ⊢
  have hlastWork := Option.some.inj (by simpa using hwork :
    some (b.timestamp, _) = some bent.work)
  exact ⟨below, b, hne, rfl, hheight, (congrArg Prod.fst hlastWork).symm, by rw [← hlastWork]⟩

/-- What `branchTo` finds is the upper part of the stored chain. -/
structure BranchOf (env : Env) (s : Storage) (branch : List Hash) (timestamps : List UInt64)
    (below above : List (Hash × Block)) : Prop where
  ids : above.map Prod.fst = branch
  timestamps_eq : (above.map (·.2.timestamp)).reverse = timestamps
  nonempty : below ≠ []
  leaves : ∀ p, below.getLast? = some p → s.alternativeChainEntries p.1 = none
  works : branch.mapM s.alternativeWork =
    .ok ((lineageWork env (below ++ above)).drop below.length)
  entries : (branch.filterMap s.alternativeChainEntries).map (·.work) =
    (lineageWork env (below ++ above)).drop below.length
  front : ∀ id bent, branch.head? = some id → s.alternativeChainEntries id = some bent →
    bent.height = below.length

theorem BranchOf.front_isSome {front : Hash} {rest : List Hash}
    (h : BranchOf env s (front :: rest) timestamps below above) :
    ∃ bent, s.alternativeChainEntries front = some bent := by
  have hworks := h.works
  rw [List.mapM_cons] at hworks
  obtain ⟨work, hwork, -⟩ := bind_eq_ok_iff.mp hworks
  obtain ⟨bl, -, hwork⟩ := bind_eq_ok_iff.mp hwork
  obtain ⟨bent, hbent, -⟩ := bind_eq_ok_iff.mp hwork
  exact ⟨bent, getAlternativeEntry_eq_ok hbent⟩

theorem branchTo_branchOf (hs : s.Sound env) (hw : s.Worked env) (hchain : s.Lineage chain)
    (hlast : chain.getLast?.map Prod.fst = some id)
    (h : s.branchTo fuel id = .ok (branch, timestamps)) :
    ∃ below above, chain = below ++ above ∧ BranchOf env s branch timestamps below above := by
  induction fuel generalizing id branch timestamps chain with
  | zero => simp [branchTo] at h
  | succ fuel ih =>
    rw [branchTo] at h
    cases hbent : s.alternativeChainEntries id with
    | none =>
      simp only [hbent] at h
      obtain ⟨rfl, rfl⟩ := Prod.mk.inj (Except.ok.inj h)
      refine ⟨chain, [], (List.append_nil _).symm, rfl, rfl, ?_, ?_, ?_, ?_, ?_⟩
      · rintro rfl
        simp at hlast
      · intro p hp
        rw [hp] at hlast
        rwa [Option.some.inj hlast]
      · simp [pure, Except.pure]
      · simp
      · simp
    | some bent =>
      simp only [hbent] at h
      obtain ⟨lower, b, hne, rfl, hheight, htime, hwork⟩ :=
        hw.alternative hchain hlast hbent
      obtain ⟨hlower, hbody, -, hprev⟩ := Containers.Lineage.snoc_iff.mp hchain
      obtain ⟨bl, hbl, h⟩ := bind_eq_ok_iff.mp h
      obtain ⟨⟨ids, ts⟩, hids, h⟩ := bind_eq_ok_iff.mp h
      obtain ⟨rfl, rfl⟩ := Prod.mk.inj (Except.ok.inj h)
      rw [(hs.alternatives id bent hbent).1] at hbl
      obtain rfl : bl = b := Option.some.inj ((getBlockByHash_eq_ok hbl).symm.trans hbody)
      obtain ⟨q, hq⟩ : ∃ q, lower.getLast? = some q := ⟨_, List.getLast?_eq_some_getLast hne⟩
      obtain ⟨below, above, rfl, hbranch⟩ :=
        ih hlower (by rw [hq, Option.map_some, hprev q hq]) hids
      have hsplit : (lineageWork env ((below ++ above) ++ [(id, bl)])).drop below.length =
          (lineageWork env (below ++ above)).drop below.length ++ [bent.work] := by
        rw [hwork, List.drop_append_of_le_length (by simp)]
      refine ⟨below, above ++ [(id, bl)], List.append_assoc .., ?_, ?_, hbranch.nonempty,
        hbranch.leaves, ?_, ?_, ?_⟩
      · rw [List.map_append, hbranch.ids]
        rfl
      · simp [← hbranch.timestamps_eq]
      · have hlastWork : s.alternativeWork id = .ok bent.work := by
          simp [alternativeWork, hbl, getAlternativeEntry, hbent, BlockchainEntry.work, htime,
            bind, Except.bind]
        rw [← List.append_assoc, hsplit, List.mapM_append, hbranch.works]
        simp [hlastWork, bind, Except.bind, pure, Except.pure]
      · rw [← List.append_assoc, hsplit, List.filterMap_append, List.map_append, hbranch.entries]
        simp [hbent]
      · intro k bent' hk hbent'
        cases above with
        | nil =>
          obtain rfl : ids = [] := hbranch.ids.symm
          obtain rfl : id = k := by simpa using hk
          obtain rfl : bent = bent' := Option.some.inj (hbent.symm.trans hbent')
          simpa using hheight
        | cons p above =>
          refine hbranch.front k bent' ?_ hbent'
          rw [← hbranch.ids] at hk ⊢
          simpa using hk

/-- The lower part of the stored chain is the foot of the main chain. -/
structure OnMain (env : Env) (s : Storage) (prevId : Hash) (branch : List Hash)
    (timestamps window : List UInt64) (below above : List (Hash × Block)) : Prop where
  toBranchOf : BranchOf env s branch timestamps below above
  lineage : s.Lineage (below ++ above)
  last : (below ++ above).getLast?.map Prod.fst = some prevId
  height_le : below.length ≤ s.entries.length
  works : (s.entries.take below.length).map (·.work) = lineageWork env below
  index : branch = [] → s.blocksIndex prevId = some (below.length - 1)
  alternative : branch ≠ [] → s.alternativeChainEntries prevId ≠ none
  window_eq : window = s.completeTimestampsVector (below.length - 1) timestamps

theorem Worked.take_main (hw : s.Worked env) {n : Nat} (hn : s.entries[n]?.map (·.hash) = some id) :
    ∃ chain, s.Lineage chain ∧ chain.length = n + 1 ∧ chain.getLast?.map Prod.fst = some id ∧
      (s.entries.take (n + 1)).map (·.work) = lineageWork env chain := by
  obtain ⟨chain, hchain, hids, hworks⟩ := hw.main
  have hlt : n < s.entries.length := by
    by_contra hge
    rw [List.getElem?_eq_none (by omega)] at hn
    cases hn
  have hlength : chain.length = s.entries.length := by
    simpa using congrArg List.length hids
  have htake : (chain.take (n + 1)).length = n + 1 := by
    rw [List.length_take]
    omega
  refine ⟨chain.take (n + 1), hchain.take _, htake, ?_, ?_⟩
  · rw [List.getLast?_eq_getElem?, htake, Nat.add_sub_cancel, List.getElem?_take_of_lt (by omega),
      ← List.getElem?_map, hids, List.getElem?_map, hn]
  · rw [lineageWork_take, List.map_take, hworks]

theorem branchTo_onMain (hs : s.Sound env) (hw : s.Worked env)
    (hbranch : s.branchTo fuel prevId = .ok (branch, timestamps))
    (hwindow : s.branchTimestamps branch timestamps (s.blocksIndex prevId) = .ok (.ok window)) :
    ∃ below above, OnMain env s prevId branch timestamps window below above := by
  cases branch with
  | nil =>
    cases hindex : s.blocksIndex prevId with
    | none => simp [branchTimestamps, hindex] at hwindow
    | some h =>
      obtain ⟨chain, hchain, hlength, hlast, hworks⟩ := hw.take_main (hw.index prevId h hindex)
      obtain ⟨below, above, rfl, hof⟩ := branchTo_branchOf hs hw hchain hlast hbranch
      obtain rfl : above = [] := List.map_eq_nil_iff.mp hof.ids
      rw [List.append_nil] at hlength hworks
      refine ⟨below, [], hof, hchain, hlast, ?_, by rwa [hlength], fun _ => ?_,
        fun hne => absurd rfl hne, ?_⟩
      · have hlt := congrArg List.length hworks
        simp only [List.length_map, List.length_take, length_lineageWork] at hlt
        omega
      · rw [hindex, hlength, Nat.add_sub_cancel]
      · rw [hlength, Nat.add_sub_cancel]
        simpa [branchTimestamps, hindex] using hwindow.symm
  | cons front rest =>
    obtain ⟨bent, bl, hbent, hheight, hbl, hprev, hwin⟩ := branchTimestamps_cons_iff.mp hwindow
    have hbent := getAlternativeEntry_eq_ok hbent
    obtain ⟨bentPrev, hbentPrev⟩ : ∃ bentPrev, s.alternativeChainEntries prevId = some bentPrev := by
      cases fuel with
      | zero => simp [branchTo] at hbranch
      | succ fuel =>
        cases halt : s.alternativeChainEntries prevId with
        | none => simp [branchTo, halt] at hbranch
        | some bentPrev => exact ⟨bentPrev, rfl⟩
    obtain ⟨lower, b, -, hchain, -, -⟩ := hw.alternatives prevId bentPrev hbentPrev
    obtain ⟨below, above, heq, hof⟩ :=
      branchTo_branchOf hs hw hchain (by simp) hbranch
    rw [heq] at hchain
    have hfront : bent.height = below.length := hof.front front bent rfl hbent
    -- the foot of the branch stands on the block that the main chain has there
    obtain ⟨⟨k, bf⟩, above, rfl⟩ : ∃ p rest, above = p :: rest := by
      cases above with
      | nil => exact absurd hof.ids (by simp)
      | cons p rest => exact ⟨p, rest, rfl⟩
    obtain rfl : k = front := by simpa using congrArg List.head? hof.ids
    obtain ⟨q, hq⟩ : ∃ q, below.getLast? = some q :=
      ⟨_, List.getLast?_eq_some_getLast hof.nonempty⟩
    have hpos := List.length_pos_iff.mpr hof.nonempty
    have hfoot : s.Lineage (below ++ [(k, bf)]) := by
      rw [List.append_cons] at hchain
      exact hchain.append_left
    obtain ⟨hbelow, hbody, -, hlink⟩ := Containers.Lineage.snoc_iff.mp hfoot
    rw [(hs.alternatives k bent hbent).1] at hbl
    obtain rfl : bl = bf := Option.some.inj ((getBlockByHash_eq_ok hbl).symm.trans hbody)
    rw [hfront] at hprev hwin hheight
    obtain ⟨main, hmain, hlength, hlast, hworks⟩ := hw.take_main hprev
    rw [Nat.sub_add_cancel hpos] at hworks
    obtain rfl : below = main := hbelow.unique hmain (by rw [hq, Option.map_some, hlink q hq]) hlast
    exact ⟨below, (k, bl) :: above, hof, hchain, by rw [← heq]; simp, hheight.le, hworks,
      by simp, fun _ => by simp [hbentPrev], hwin.symm⟩

/-- The window over the foot of the main chain and the branch is that of the whole
chain. -/
theorem OnMain.difficulty (h : OnMain env s prevId branch timestamps window below above) :
    s.getNextDifficultyForAlternativeChain env branch (below ++ above).length =
      .ok (nextWork env.config (lineageWork env (below ++ above))) := by
  have hpos := List.length_pos_iff.mpr h.toBranchOf.nonempty
  have hlength : branch.length = above.length := by
    rw [← h.toBranchOf.ids, List.length_map]
  have hworks : (s.entries.take below.length).map (·.work) =
      (lineageWork env (below ++ above)).take below.length := by
    rw [h.works, ← lineageWork_take, List.take_left]
  rw [nextWork, length_lineageWork, getNextDifficultyForAlternativeChain]
  split
  · rfl
  set works := lineageWork env (below ++ above)
  split
  · rename_i hshort
    have hwindow : (s.mainChainWindow branch.length below.length).map (·.work) ++
        works.drop below.length =
          works.drop (max 1 ((below ++ above).length - difficultyBlocksCount)) := by
      rw [mainChainWindow, List.map_drop, hworks, ← List.drop_append_of_le_length,
        List.take_append_drop, List.length_append]
      · congr 1
        omega
      · rw [List.length_take, length_lineageWork, List.length_append]
        omega
    have htimestamps := congrArg (List.map Prod.fst) hwindow
    have hdifficulties := congrArg (List.map Prod.snd) hwindow
    rw [List.map_append, List.map_map] at htimestamps hdifficulties
    have hjoin : (do
        let alt ← branch.mapM s.alternativeWork
        .ok (nextDifficulty env.config (below ++ above).length
          ((s.mainChainWindow branch.length below.length).map (·.timestamp) ++ alt.map (·.1))
          ((s.mainChainWindow branch.length below.length).map (·.cumulativeDifficulty) ++
            alt.map (·.2)))) = (.ok (nextDifficulty env.config (below ++ above).length
          ((works.drop (max 1 ((below ++ above).length - difficultyBlocksCount))).map Prod.fst)
          ((works.drop (max 1 ((below ++ above).length - difficultyBlocksCount))).map Prod.snd)) :
            Except Thrown UInt64) := by
      rw [h.toBranchOf.works, ← htimestamps, ← hdifficulties]
      rfl
    cases branch with
    | nil =>
      obtain rfl : above = [] := List.length_eq_zero_iff.mp hlength.symm
      simpa using hjoin
    | cons front rest =>
      obtain ⟨bent, hbent⟩ := h.toBranchOf.front_isSome
      have hheight := h.toBranchOf.front front bent rfl hbent
      simpa [getAlternativeEntry, hbent, hheight] using hjoin
  · rename_i hlong
    rw [mapM_drop_eq_ok h.toBranchOf.works]
    have hdrop : (works.drop below.length).drop (branch.length - difficultyBlocksCount) =
        works.drop (max 1 ((below ++ above).length - difficultyBlocksCount)) := by
      rw [List.drop_drop]
      congr 1
      rw [List.length_append]
      omega
    rw [hdrop]
    rfl

theorem OnMain.previousWork_eq {height : Nat} {difficulty : UInt64} (hw : s.Worked env)
    (h : OnMain env s prevId branch timestamps window below above)
    (hprev : s.previousWork prevId = .ok (height, difficulty)) :
    height + 1 = (below ++ above).length ∧
      (lineageWork env (below ++ above)).getLast?.map Prod.snd = some difficulty := by
  rw [previousWork] at hprev
  cases halt : s.alternativeChainEntries prevId with
  | some bent =>
    simp only [halt] at hprev
    obtain ⟨rfl, rfl⟩ := Prod.mk.inj (Except.ok.inj hprev)
    obtain ⟨lower, b, -, hchain, hheight, -, hwork⟩ := hw.alternative h.lineage h.last halt
    refine ⟨by rw [hchain, hheight]; simp, ?_⟩
    rw [hwork]
    simp [BlockchainEntry.work]
  | none =>
    obtain rfl : branch = [] := by
      by_contra hne
      exact h.alternative hne halt
    obtain rfl : above = [] := List.map_eq_nil_iff.mp h.toBranchOf.ids
    have hpos := List.length_pos_iff.mpr h.toBranchOf.nonempty
    simp only [halt, h.index rfl] at hprev
    cases hent : s.entries[below.length - 1]? with
    | none => simp [hent] at hprev
    | some bent =>
      simp only [hent] at hprev
      obtain ⟨rfl, rfl⟩ := Prod.mk.inj (Except.ok.inj hprev)
      rw [List.append_nil]
      refine ⟨by omega, ?_⟩
      rw [← h.works, List.getLast?_eq_getElem?, List.length_map, List.length_take,
        Nat.min_eq_left h.height_le, List.getElem?_map, List.getElem?_take_of_lt (by omega), hent]
      rfl

theorem Lineage.grow (h : s.Lineage chain) (hgrow : BodiesGrow s s') : s'.Lineage chain :=
  h.mono hgrow

theorem Worked.congr (hw : s.Worked env) (hgrow : BodiesGrow s s')
    (hentries : s'.entries = s.entries) (hindex : s'.blocksIndex = s.blocksIndex)
    (halt : ∀ id bent, s'.alternativeChainEntries id = some bent →
      s.alternativeChainEntries id = some bent) : s'.Worked env := by
  refine ⟨?_, by rw [hentries, hindex]; exact hw.index, fun id bent hbent => ?_⟩
  · obtain ⟨chain, hchain, hrest⟩ := hw.main
    exact ⟨chain, hchain.grow hgrow, by rwa [hentries]⟩
  · obtain ⟨chain, b, hne, hchain, hrest⟩ := hw.alternatives id bent (halt id bent hbent)
    exact ⟨chain, b, hne, hchain.grow hgrow, hrest⟩

theorem Worked.place {place : AltPlacement} (hs : s.Sound env) (hw : s.Worked env)
    (hbody : s.blocksByHash id = some bl)
    (hbranch : s.branchTo fuel bl.prevId = .ok (branch, timestamps))
    (hwindow : s.branchTimestamps branch timestamps (s.blocksIndex bl.prevId) = .ok (.ok window))
    (h : s.placeAlternativeBlock env bl id branch = .ok (.ok place, s')) : s'.Worked env := by
  obtain ⟨⟨prevHeight, prevDifficulty, diff, hplaced⟩, rfl⟩ := placeAlternativeBlock_eq_ok h
  obtain ⟨below, above, hon⟩ := branchTo_onMain hs hw hbranch hwindow
  obtain ⟨hheight, hlast⟩ := hon.previousWork_eq hw hplaced.previous
  have hdiff := hplaced.difficulty
  rw [hheight, hon.difficulty] at hdiff
  obtain rfl := Except.ok.inj hdiff
  have hlineage : s.Lineage (below ++ above ++ [(id, bl)]) := by
    refine Containers.Lineage.snoc_iff.mpr ⟨hon.lineage, hbody, ?_, fun q hq => ?_⟩
    · rw [getBlockHeight_of_prevalidate hplaced.prevalidated, hheight]
    · simpa [hq] using hon.last
  refine ⟨hw.main, hw.index, fun k bent hbent => ?_⟩
  simp only [Function.update_apply] at hbent
  split_ifs at hbent with hk
  · obtain rfl := Option.some.inj hbent
    refine ⟨below ++ above, bl, by simp [hon.toBranchOf.nonempty], hk ▸ hlineage, ?_, ?_⟩
    · rw [hplaced.bent, hheight]
    · rw [hplaced.bent, lineageWork_snoc, extendWork, hlast]
      simp [BlockchainEntry.work, UInt64.add_comm]
  · exact hw.alternatives k bent hbent

theorem Appended.worked {taken : List Taken} {l : Ledger} {fee base : UInt64} {prev : Option Block}
    (h : Appended env now bl id taken l fee base prev s s') (hw : s.Worked env)
    (hfits : s.Fits bl id) : s'.Worked env := by
  obtain ⟨hprev, -, -, -, -, hpre⟩ := checkBlockHeader_eq_none h.header
  have hgrow : BodiesGrow s s' := .of_update hfits h.blocks
  refine ⟨?_, fun k i hk => ?_, fun k bent hbent => ?_⟩
  · obtain ⟨chain, hchain, hids, hworks⟩ := hw.main
    have hlength : chain.length = s.entries.length := by
      simpa using congrArg List.length hids
    refine ⟨chain ++ [(id, bl)], ?_, ?_, ?_⟩
    · refine Containers.Lineage.snoc_iff.mpr ⟨hchain.grow hgrow, ?_, ?_, fun q hq => ?_⟩
      · rw [h.blocks, Function.update_self]
      · rw [hlength, getBlockHeight_of_prevalidate hpre]
      · have hlast : (s.entries.map (·.hash)).getLast? = some q.1 := by
          rw [← hids, List.getLast?_map, hq]
          rfl
        rw [hprev, getTailId]
        rw [List.getLast?_map] at hlast
        simp [hlast]
    · rw [h.entries, List.map_append, List.map_append, hids]
      rfl
    · rw [h.entries, newEntry_work, hworks, lineageWork_snoc]
  · rw [h.index, Function.update_apply] at hk
    rw [h.entries]
    split_ifs at hk with heq
    · obtain rfl := Option.some.inj hk
      simp [newEntry, heq]
    · have hold := hw.index k i hk
      have hlt : i < s.entries.length := by
        by_contra hge
        rw [List.getElem?_eq_none (by omega)] at hold
        cases hold
      rwa [List.getElem?_append_left hlt]
  · rw [h.alternatives] at hbent
    obtain ⟨chain, b, hne, hchain, hrest⟩ := hw.alternatives k bent hbent
    exact ⟨chain, b, hne, hchain.grow hgrow, hrest⟩

theorem popBlockFromBlockchain_worked {popped : Bool} (hw : s.Worked env)
    (h : s.popBlockFromBlockchain env now = .ok (popped, s')) : s'.Worked env := by
  have hpop := PopFrame.of_pop h
  have hgrow : BodiesGrow s s' := by
    intro id b hb
    rw [hpop.frame]
    exact hb
  have halt : s'.alternativeChainEntries = s.alternativeChainEntries := by rw [hpop.frame]
  cases popped with
  | false =>
    obtain ⟨hentries, hindex⟩ := hpop.failed rfl
    exact hw.congr hgrow hentries hindex fun id bent hbent => by rwa [halt] at hbent
  | true =>
    obtain ⟨-, hentries, bent, hbent, hindex⟩ := hpop.done rfl
    refine ⟨?_, fun k i hk => ?_, fun k bent hbent => ?_⟩
    · obtain ⟨chain, hchain, hids, hworks⟩ := hw.main
      have hlength : chain.length = s.entries.length := by
        simpa using congrArg List.length hids
      refine ⟨chain.dropLast, ?_, ?_, ?_⟩
      · rw [List.dropLast_eq_take]
        exact Containers.Lineage.take (hchain.grow hgrow) _
      · rw [hentries, List.map_dropLast, hids, List.map_dropLast]
      · rw [hentries, List.map_dropLast, hworks, List.dropLast_eq_take, List.dropLast_eq_take,
          lineageWork_take, length_lineageWork]
    · rw [hindex, Function.update_apply] at hk
      split_ifs at hk with heq
      have hold := hw.index k i hk
      rw [hentries, List.dropLast_eq_take]
      have hlt : i < s.entries.length - 1 := by
        rw [List.getLast?_eq_getElem?] at hbent
        by_contra hge
        rcases Nat.lt_or_ge i s.entries.length with hlast | hout
        · obtain rfl : i = s.entries.length - 1 := by omega
          rw [hbent] at hold
          exact heq (Option.some.inj hold).symm
        · rw [List.getElem?_eq_none hout] at hold
          cases hold
      rwa [List.getElem?_take_of_lt hlt]
    · rw [halt] at hbent
      obtain ⟨chain, b, hne, hchain, hrest⟩ := hw.alternatives k bent hbent
      exact ⟨chain, b, hne, hchain.grow hgrow, hrest⟩

theorem Action.worked {D : Block → Prop} (h : Action env D now s s') (hs : s.Sound env)
    (hw : s.Worked env) : s'.Worked env := by
  have hgrow := h.bodiesGrow hs
  cases h with
  | @connect bl id exit _ _ _ _ hfits hrun =>
    rcases hs.handle_cases hrun with ⟨taken, l, fee, base, prev, -, happ⟩ | ⟨-, hrej⟩
    · exact happ.worked hw hfits
    · refine hw.congr hgrow (by rw [hrej.frame]) (by rw [hrej.frame]) fun id bent hbent => ?_
      rwa [hrej.frame] at hbent
  | disconnect hrun => exact popBlockFromBlockchain_worked hw hrun
  | storeBody _ _ _ => exact hw.congr hgrow rfl rfl fun _ _ hbent => hbent
  | place hbody hbranch hwindow hplace => exact hw.place hs hbody hbranch hwindow hplace
  | markInvalid ids hbody halt =>
    rw [markBranchInvalid_eq ids (hs.alternatives _ _ halt).1 hbody] at hgrow ⊢
    refine hw.congr hgrow rfl rfl fun id bent hbent => ?_
    dsimp only at hbent
    split_ifs at hbent
    exact hbent
  | eraseAlternatives ids =>
    refine hw.congr hgrow rfl rfl fun id bent hbent => ?_
    simp only [Storage.eraseAlternatives] at hbent
    split_ifs at hbent
    exact hbent
  | logSwitchFailed _ _ => exact hw.congr hgrow rfl rfl fun _ _ hbent => hbent
  | logPushFailed => exact hw.congr hgrow rfl rfl fun _ _ hbent => hbent

theorem Actions.worked {D : Block → Prop} (h : Actions env D now s s') (hs : s.Sound env)
    (hw : s.Worked env) : s'.Worked env := by
  induction h with
  | refl => exact hw
  | tail hrun hlast ih => exact hlast.worked (Actions.sound hrun hs) ih

theorem Worked.empty (env : Env) : Storage.empty.Worked env :=
  ⟨⟨[], Containers.Lineage.nil, rfl, rfl⟩, fun _ _ h => (nomatch h), fun _ _ h => (nomatch h)⟩

theorem Initial.worked (h : s.Initial env) : s.Worked env := by
  obtain ⟨now, genesis, id, taken, l, fee, base, prev, -, happ⟩ := h.appended
  exact happ.worked (.empty env) (fun _ h => (nomatch h))

theorem run_worked {ops : List (UInt64 × Op)} (hs : s.Sound env) (hw : s.Worked env)
    (hcalm : s.Uninterrupted env ops) (h : s.run env ops = .ok s') :
    s'.Sound env ∧ s'.Worked env := by
  refine run_invariant (fun _ => True) (fun _ => True) (fun _ _ => True) (Worked env) ?_ ?_
    (fun _ hw => hw.congr (.refl _) rfl rfl fun _ _ hbent => hbent) hs hw (fun op _ => ?_) hcalm h
  · intro now blob kept s r _ _ hw hr
    rw [(handleIncomingTx_sameButPool blob kept s).out _ hr]
    exact hw.congr (.refl _) rfl rfl fun _ _ hbent => hbent
  · intro now s s' hs hw haction
    exact haction.worked hs hw
  · obtain ⟨now, op⟩ := op
    cases op <;> exact trivial

theorem Reachable.worked (h : s.Reachable env) : s.Worked env := by
  obtain ⟨s₀, ops, hinit, hcalm, hrun⟩ := h
  exact (run_worked hinit.sound hinit.worked hcalm hrun).2

theorem run_bodiesGrow {ops : List (UInt64 × Op)} (hs : s.Sound env)
    (hcalm : s.Uninterrupted env ops) (h : s.run env ops = .ok s') : BodiesGrow s s' := by
  refine (run_invariant (fun _ => True) (fun _ => True) (fun _ _ => True) (BodiesGrow s) ?_ ?_
    (fun _ hgrow => hgrow) hs (.refl s) (fun op _ => ?_) hcalm h).2
  · intro now blob kept t r _ _ hgrow hr
    rw [(handleIncomingTx_sameButPool blob kept t).out _ hr]
    exact hgrow
  · intro now t t' ht hgrow haction
    exact hgrow.trans (haction.bodiesGrow ht)
  · obtain ⟨now, op⟩ := op
    cases op <;> exact trivial

theorem Worked.work_eq (hw : s.Worked env) (hw' : s'.Worked env) (hgrow : BodiesGrow s s')
    {bent e : BlockchainEntry} (hbent : s.alternativeChainEntries id = some bent)
    (he : e ∈ s'.entries) (hid : e.hash = id) : e.work = bent.work := by
  obtain ⟨i, hi⟩ := List.mem_iff_getElem?.mp he
  obtain ⟨main, hmain, hlength, hlast, hworks⟩ := hw'.take_main (by rw [hi, Option.map_some, hid])
  obtain ⟨below, b, -, hchain, -, hwork⟩ := hw.alternatives id bent hbent
  obtain rfl : main = below ++ [(id, b)] := hmain.unique (hchain.grow hgrow) hlast (by simp)
  rw [← hworks, List.getLast?_eq_getElem?, List.length_map, List.length_take, List.getElem?_map] at hwork
  have hlt := (List.getElem?_eq_some_iff.mp hi).1
  rw [Nat.min_eq_left (by omega), Nat.add_sub_cancel, List.getElem?_take_of_lt (by omega), hi] at hwork
  exact Option.some.inj hwork

/-- The entries of the chain that a block on `prevId` extends: the main chain up to
the branch, then the branch. -/
def chainThrough (prevId : Hash) (branch : List Hash) (s : Storage) : List BlockchainEntry :=
  s.entries.take (((branch.head?.bind s.alternativeChainEntries).map (·.height)).getD
    (((s.blocksIndex prevId).map (· + 1)).getD 0)) ++ branch.filterMap s.alternativeChainEntries

/-- The storage if the branch were the main chain. -/
def onBranch (prevId : Hash) (branch : List Hash) (s : Storage) : Storage :=
  { s with entries := s.chainThrough prevId branch }

theorem OnMain.chainThrough_eq (h : OnMain env s prevId branch timestamps window below above) :
    s.chainThrough prevId branch =
      s.entries.take below.length ++ branch.filterMap s.alternativeChainEntries := by
  rw [chainThrough]
  congr 2
  cases branch with
  | nil =>
    have hpos := List.length_pos_iff.mpr h.toBranchOf.nonempty
    simp [h.index rfl]
    omega
  | cons front rest =>
    obtain ⟨bent, hbent⟩ := h.toBranchOf.front_isSome
    simp [hbent, h.toBranchOf.front front bent rfl hbent]

theorem OnMain.chainThrough_work (h : OnMain env s prevId branch timestamps window below above) :
    (s.chainThrough prevId branch).map (·.work) = lineageWork env (below ++ above) := by
  rw [h.chainThrough_eq, List.map_append, h.works, h.toBranchOf.entries]
  conv_rhs => rw [← List.take_append_drop below.length (lineageWork env (below ++ above))]
  rw [← lineageWork_take, List.take_left]

end Storage

end Pebblecoin
