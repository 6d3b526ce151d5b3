import Pebblecoin.AlternativeWindows
import Pebblecoin.WalletForks

/-!
What a daemon answers to the short history of another daemon's chain.
-/

namespace Pebblecoin

open Containers Control

/-- `BLOCKS_IDS_SYNCHRONIZING_DEFAULT_COUNT` -/
def blocksIdsSynchronizingDefaultCount : Nat := 10000

/-- `NOTIFY_RESPONSE_CHAIN_ENTRY::request` -/
structure ResponseChainEntry where
  startHeight : UInt64
  totalHeight : UInt64
  blockIds : List Hash
  deriving DecidableEq

namespace Wallet2

/-- The first height of the history below the fork is at most as far from the fork
as the fork is from the top. The heights tried so far are not below the fork, and
an offset is never more than twice as far from the top as the one before it. -/
theorem find_historyHeightsLoop {size fork fuel i multiplier backOffset start : Nat}
    (hfork : 0 < fork) (hsize : fork ≤ size) (hfuel : size ≤ backOffset + fuel)
    (hoffset : backOffset ≤ 2 * (size - fork + 1))
    (hstep : i < 10 ∧ multiplier = 1 ∧ backOffset = i + 1 ∨
      10 ≤ i ∧ 0 < multiplier ∧ backOffset = 2 * multiplier + 9)
    (hstart : (historyHeightsLoop size fuel i multiplier backOffset ++ [0]).find?
      (fun height => decide (height < fork)) = some start) :
    start < fork ∧ fork - 1 - start ≤ size - (fork - 1) := by
  -- where the loop ends, the genesis block is the next one that is tried
  have hend : ∀ offset, size ≤ offset → offset ≤ 2 * (size - fork + 1) →
      [0].find? (fun height => decide (height < fork)) = some start →
      start < fork ∧ fork - 1 - start ≤ size - (fork - 1) := by
    intro offset hlast hnear h
    rw [List.find?_cons_of_pos (by simpa using hfork)] at h
    obtain rfl := Option.some.inj h
    omega
  induction fuel generalizing i multiplier backOffset with
  | zero => exact hend backOffset hfuel hoffset hstart
  | succ fuel ih =>
    rw [historyHeightsLoop] at hstart
    by_cases hlt : backOffset < size
    · rw [if_pos hlt, List.cons_append] at hstart
      by_cases hfound : size - backOffset < fork
      · rw [List.find?_cons_of_pos (by simpa using hfound)] at hstart
        obtain rfl := Option.some.inj hstart
        omega
      · rw [List.find?_cons_of_neg (by simpa using hfound)] at hstart
        split_ifs at hstart with hi
        · exact ih (by omega) (by omega) (by omega) hstart
        · exact ih (by omega) (by omega) (by omega) hstart
    · rw [if_neg hlt] at hstart
      exact hend backOffset (by omega) hoffset hstart

theorem Related.supplement_near_fork {c d : List Hash} (h : Related c d) :
    ∃ start, Pebblecoin.findBlockchainSupplement d (getShortChainHistory c) = some start ∧
      start < forkIndex c d ∧ forkIndex c d - 1 - start ≤ c.length - (forkIndex c d - 1) := by
  obtain ⟨start, hstart, hlt⟩ := h.findBlockchainSupplement
  have hfind : (historyHeightsLoop c.length c.length 0 1 1 ++ [0]).find?
      (fun height => decide (height < forkIndex c d)) = some start :=
    h.findBlockchainSupplement_eq.symm.trans hstart
  exact ⟨start, hstart, find_historyHeightsLoop (by omega) (forkIndex_le_left c d) (by omega)
    (by omega) (by simp) hfind⟩

end Wallet2

namespace Storage

/-- The ids of the main chain. -/
def mainIds (s : Storage) : List Hash := s.entries.map (·.hash)

/-- The daemon samples its chain with the same loop as the wallet. -/
def getShortChainHistory (s : Storage) : List Hash := Wallet2.getShortChainHistory s.mainIds

def findBlockchainSupplement (s : Storage) (qblockIds : List Hash) : Option Nat :=
  if qblockIds.isEmpty then none
  else if qblockIds.getLast? ≠ s.mainIds.head? then none
  else qblockIds.findSome? s.blocksIndex

/-- The overload that fills the answer for a peer. -/
def findBlockchainSupplementEntry (s : Storage) (qblockIds : List Hash) :
    Option ResponseChainEntry :=
  (s.findBlockchainSupplement qblockIds).map fun starterOffset =>
    { startHeight := UInt64.ofNat starterOffset
      totalHeight := UInt64.ofNat s.entries.length
      blockIds := (s.mainIds.drop starterOffset).take blocksIdsSynchronizingDefaultCount }

section Supplement

variable {env env' : Env} {s t : Storage}

theorem idxOf?_mainIds (hs : s.Sound env) (hw : s.Worked env) (id : Hash) :
    s.mainIds.idxOf? id = s.blocksIndex id := by
  cases hindex : s.blocksIndex id with
  | none =>
    refine List.idxOf?_eq_none_iff.mpr fun hmem => ?_
    obtain ⟨bent, hbent, rfl⟩ := List.mem_map.mp hmem
    exact hs.chain.ne_of_fresh hindex hbent rfl
  | some height =>
    have hget : s.mainIds[height]? = some id := by
      rw [mainIds, List.getElem?_map]
      exact hw.index id height hindex
    obtain ⟨j, hj⟩ := Option.isSome_iff_exists.mp
      (List.isSome_idxOf?.mpr (List.mem_of_getElem? hget))
    obtain ⟨chain, hchain, hids, -⟩ := hw.main
    have hget' := Wallet2.getElem?_of_idxOf? hj
    rw [mainIds, ← hids] at hget hget'
    rw [hj, hchain.index_unique hget' hget]

theorem findBlockchainSupplement_eq (hs : s.Sound env) (hw : s.Worked env)
    (qblockIds : List Hash) :
    s.findBlockchainSupplement qblockIds =
      Pebblecoin.findBlockchainSupplement s.mainIds qblockIds := by
  rw [findBlockchainSupplement, Pebblecoin.findBlockchainSupplement]
  congr 3
  exact funext fun id => (idxOf?_mainIds hs hw id).symm

/-- Blocks of both main chains with the same id name the same block before them. -/
def LinkedAlike (s t : Storage) : Prop :=
  ∀ id b b', id ∈ s.mainIds → id ∈ t.mainIds → s.blocksByHash id = some b →
    t.blocksByHash id = some b' → b.prevId = b'.prevId

theorem related_mainIds (hs : s.Sound env) (hw : s.Worked env) (hw' : t.Worked env')
    (hgenesis : s.mainIds.head? = t.mainIds.head?) (hlinked : LinkedAlike s t) :
    Wallet2.Related s.mainIds t.mainIds := by
  obtain ⟨chain, hchain, hids, -⟩ := hw.main
  obtain ⟨chain', hchain', hids', -⟩ := hw'.main
  refine ⟨hgenesis, fun h => hs.nonempty (List.map_eq_nil_iff.mp h), ?_⟩
  rw [mainIds, mainIds, ← hids, ← hids'] at hgenesis ⊢
  intro i j id hi hj
  refine hchain.take_eq_of_shared hchain' hgenesis (fun k n n' hn hn' => ?_) hi hj
  obtain ⟨p, hp⟩ := List.mem_iff_getElem?.mp hn
  obtain ⟨q, hq⟩ := List.mem_iff_getElem?.mp hn'
  refine hlinked k n n' ?_ ?_ (hchain p _ hp).1 (hchain' q _ hq).1
  · rw [mainIds, ← hids]
    exact List.mem_map.mpr ⟨_, hn, rfl⟩
  · rw [mainIds, ← hids']
    exact List.mem_map.mpr ⟨_, hn', rfl⟩

/-- The main chains of both hold the same block at this height. -/
def SharedAt (s t : Storage) (height : Nat) : Prop :=
  ∃ id, s.mainIds[height]? = some id ∧ t.mainIds[height]? = some id

theorem sharedAt_iff (h : Wallet2.Related s.mainIds t.mainIds) {height : Nat} :
    SharedAt s t height ↔ height < forkIndex s.mainIds t.mainIds := by
  constructor
  · rintro ⟨id, hs, ht⟩
    exact h.lt_forkIndex hs ht
  · intro hlt
    have hle := forkIndex_le_left s.mainIds t.mainIds
    have hs : s.mainIds[height]? = some s.mainIds[height] := List.getElem?_eq_getElem (by omega)
    refine ⟨_, hs, ?_⟩
    rw [← hs, ← List.getElem?_take_of_lt hlt, ← take_forkIndex, List.getElem?_take_of_lt hlt]

/-- The history of one daemon is answered by another from a block on that both
have, which is at most as far below the last such block as that is below the top. -/
theorem supplement_of_shortChainHistory (hs : s.Reachable env) (ht : t.Reachable env')
    (hgenesis : s.mainIds.head? = t.mainIds.head?) (hlinked : LinkedAlike s t) :
    ∃ p start id, IsGreatest {height | SharedAt s t height} p ∧ SharedAt s t start ∧ start ≤ p ∧
      p - start ≤ s.entries.length - p ∧ t.mainIds[start]? = some id ∧
      t.findBlockchainSupplement s.getShortChainHistory = some start ∧
      t.findBlockchainSupplementEntry s.getShortChainHistory =
        some ⟨UInt64.ofNat start, UInt64.ofNat t.entries.length,
          id :: (t.mainIds.drop (start + 1)).take (blocksIdsSynchronizingDefaultCount - 1)⟩ := by
  have hrelated := related_mainIds hs.sound hs.worked ht.worked hgenesis hlinked
  obtain ⟨start, hstart, hlt, hnear⟩ := hrelated.supplement_near_fork
  have hshared : ∀ height, SharedAt s t height ↔ height < forkIndex s.mainIds t.mainIds :=
    fun _ => sharedAt_iff hrelated
  obtain ⟨id, -, hid⟩ := (hshared start).mpr hlt
  have hfound : t.findBlockchainSupplement s.getShortChainHistory = some start := by
    rw [findBlockchainSupplement_eq ht.sound ht.worked]
    exact hstart
  refine ⟨forkIndex s.mainIds t.mainIds - 1, start, id, ⟨(hshared _).mpr (by omega), ?_⟩,
    (hshared start).mpr hlt, by omega, ?_, hid, hfound, ?_⟩
  · intro height hheight
    have := (hshared height).mp hheight
    omega
  · simpa [mainIds] using hnear
  · obtain ⟨hbound, hget⟩ := List.getElem?_eq_some_iff.mp hid
    rw [findBlockchainSupplementEntry, hfound, Option.map_some, List.drop_eq_getElem_cons hbound, hget]
    rfl

end Supplement

theorem linkedAlike_of_forall {s t : Storage} (h : ∀ id ∈ s.mainIds, id ∈ t.mainIds →
    (s.blocksByHash id).map (·.prevId) = (t.blocksByHash id).map (·.prevId)) : LinkedAlike s t := by
  intro id b b' hs ht hb hb'
  have := h id hs ht
  rw [hb, hb'] at this
  exact Option.some.inj this

/-- The chains have forked on the genesis block. -/
theorem supplement_of_sampleSwitched :
    sampleReached.mainIds.length = 2 ∧ sampleSwitched.mainIds.length = 3 ∧
    ∃ p start id, IsGreatest {height | SharedAt sampleReached sampleSwitched height} p ∧
      SharedAt sampleReached sampleSwitched start ∧ start ≤ p ∧
      p - start ≤ sampleReached.entries.length - p ∧
      sampleSwitched.mainIds[start]? = some id ∧
      sampleSwitched.findBlockchainSupplement sampleReached.getShortChainHistory = some start ∧
      sampleSwitched.findBlockchainSupplementEntry sampleReached.getShortChainHistory =
        some ⟨UInt64.ofNat start, UInt64.ofNat sampleSwitched.entries.length,
          id :: (sampleSwitched.mainIds.drop (start + 1)).take
            (blocksIdsSynchronizingDefaultCount - 1)⟩ := by
  have hswitched : sampleSwitched.Reachable sampleEnv := by
    have hrun : sampleForked.calls sampleEnv [(1002, .addNewBlock 5 sampleAltPosBlock)] =
        .ok sampleSwitched := eq_ok_of_isOk _ (by decide +kernel)
    obtain ⟨t, ht, hlast⟩ := bind_eq_ok_iff.mp hrun
    rw [← Except.ok.inj hlast]
    exact sampleForked_reachable.call 1002 _ ht
  exact ⟨by decide +kernel, by decide +kernel, supplement_of_shortChainHistory
    sampleReached_reachedBy.reachable hswitched (by decide +kernel)
    (linkedAlike_of_forall (by decide +kernel))⟩

end Storage

end Pebblecoin
