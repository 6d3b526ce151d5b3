import Mathlib.Algebra.BigOperators.Group.List.Basic
import Mathlib.Data.List.GetD
import Mathlib.Data.Prod.Lex
import Pebblecoin.Containers.Ranking
import Pebblecoin.Difficulty
import Pebblecoin.Wire.Words

/-!
The difficulty of the next block in exact numbers.
-/

namespace Pebblecoin

open Containers Wire

/-- Differences of neighbours; a backward one counts as zero. -/
def gaps (l : List Nat) : List Nat := (l.zip l.tail).map fun p => p.2 - p.1

/-- The number of gaps before gap `i`: the smaller ones, and the equal ones at earlier
positions. -/
def gapRank (g : List Nat) (i : Nat) : Nat :=
  (List.range g.length).countP fun j =>
    decide (g.getD j 0 < g.getD i 0) || (decide (g.getD j 0 = g.getD i 0) && decide (j < i))

/-- At most sixty gaps are kept, of more than sixty the middle ones. -/
def isKept (g : List Nat) (i : Nat) : Bool :=
  if g.length ≤ 60 then true
  else
    let dropped := (g.length - 60 + 1) / 2
    decide (dropped ≤ gapRank g i) && decide (gapRank g i < dropped + 60)

/-- The values at the positions of the gaps that are kept. -/
def keptSum (g values : List Nat) : Nat :=
  (((List.range g.length).filter (isKept g)).map fun i => values.getD i 0).sum

def clampedQuotient (target time work n : Nat) : Nat :=
  max (work / 4 / n) (min ((work * target + (max 1 time - 1)) / max 1 time) (4 * work / n))

def easedDifficulty (height r : Nat) : Nat :=
  if height < boulderhash2SwitchBlock + 72 then
    72 * r / (72 + 14 * (boulderhash2SwitchBlock + 72 - height))
  else r

def exactDifficulty (target height : Nat) (timestamps diffs : List Nat) : Nat :=
  let g := gaps timestamps
  max 1 (easedDifficulty height
    (clampedQuotient target (keptSum g g) (keptSum g (gaps diffs)) g.length))

theorem toNat_clamp (rawRes lo hi : UInt64) (h : lo.toNat ≤ hi.toNat) :
    (if rawRes < lo then lo else if hi < rawRes then hi else rawRes).toNat =
      max lo.toNat (min rawRes.toNat hi.toNat) := by
  simp only [UInt64.lt_iff_toNat_lt]
  split_ifs with hlow hhigh
  · omega
  · omega
  · omega

theorem toNat_max_one (res : UInt64) : (if res < 1 then 1 else res).toNat = max 1 res.toNat := by
  have hone : (1 : UInt64).toNat = 1 := UInt64.toNat_one
  simp only [UInt64.lt_iff_toNat_lt, hone]
  split_ifs
  · omega
  · omega

theorem toNat_nonzero (timeSpan : UInt64) :
    (if timeSpan = 0 then 1 else timeSpan).toNat = max 1 timeSpan.toNat := by
  split_ifs with hzero
  · rw [hzero]
    rfl
  · have hpos : timeSpan.toNat ≠ 0 := fun h => hzero (UInt64.toNat_inj.mp h)
    omega

theorem toNat_rawRes (product : Nat) (timeSpan : UInt64) (hpos : 1 ≤ timeSpan.toNat)
    (hfits : product + timeSpan.toNat < 2 ^ 64 + 1) (hproduct : product < 2 ^ 64) :
    (if 2 ^ 64 ≤ product ∨ UInt64.ofNat product + timeSpan - 1 < UInt64.ofNat product then 0
      else (UInt64.ofNat product + timeSpan - 1) / timeSpan).toNat =
      (product + (timeSpan.toNat - 1)) / timeSpan.toNat := by
  have hlow := toNat_ofNat_of_lt hproduct
  have htime := timeSpan.toNat_lt
  have hone : (1 : UInt64).toNat = 1 := UInt64.toNat_one
  have hsum : (UInt64.ofNat product + timeSpan - 1).toNat = product + (timeSpan.toNat - 1) := by
    rw [UInt64.toNat_sub, UInt64.toNat_add, hlow, hone]
    omega
  rw [if_neg, UInt64.toNat_div, hsum]
  rw [UInt64.lt_iff_toNat_lt, hsum, hlow]
  omega

theorem clampedQuotient_le (target time work n : Nat) :
    clampedQuotient target time work n ≤ 4 * work := by
  have hlow : work / 4 / n ≤ 4 * work :=
    (Nat.div_le_self _ _).trans ((Nat.div_le_self _ _).trans (by omega))
  have hhigh : 4 * work / n ≤ 4 * work := Nat.div_le_self _ _
  rw [clampedQuotient]
  omega

theorem toNat_retarget {target height count : Nat} {timeSpan totalWork : UInt64}
    (hheight : boulderhash2SwitchBlock ≤ height) (hfits : count < 2 ^ 64)
    (hbound : 4 * totalWork.toNat * max target 72 + timeSpan.toNat < 2 ^ 64) :
    (retarget target height count timeSpan totalWork).toNat =
      max 1 (easedDifficulty height
        (clampedQuotient target timeSpan.toNat totalWork.toNat count)) := by
  have htarget : totalWork.toNat * target ≤ totalWork.toNat * max target 72 :=
    Nat.mul_le_mul_left _ (Nat.le_max_left _ _)
  have hwork : totalWork.toNat * 72 ≤ totalWork.toNat * max target 72 :=
    Nat.mul_le_mul_left _ (Nat.le_max_right _ _)
  rw [Nat.mul_assoc] at hbound
  have htime := toNat_nonzero timeSpan
  have hraw := toNat_rawRes (totalWork.toNat * target) (if timeSpan = 0 then 1 else timeSpan)
    (by omega) (by omega) (by omega)
  have hlo : (totalWork / 4 / UInt64.ofNat count).toNat = totalWork.toNat / 4 / count := by
    rw [UInt64.toNat_div, UInt64.toNat_div, toNat_ofNat_of_lt hfits]
    rfl
  have hhi : (totalWork * 4 / UInt64.ofNat count).toNat = 4 * totalWork.toNat / count := by
    have hfour : (totalWork * 4).toNat = 4 * totalWork.toNat := by
      rw [UInt64.toNat_mul]
      change totalWork.toNat * 4 % 2 ^ 64 = _
      omega
    rw [UInt64.toNat_div, hfour, toNat_ofNat_of_lt hfits]
  have hle : totalWork.toNat / 4 / count ≤ 4 * totalWork.toNat / count :=
    Nat.div_le_div_right (by omega)
  obtain ⟨span, hspan⟩ : ∃ span, span = if timeSpan = 0 then 1 else timeSpan := ⟨_, rfl⟩
  rw [← hspan] at htime hraw
  obtain ⟨rawRes, hrawRes⟩ : ∃ rawRes, rawRes = if 2 ^ 64 ≤ totalWork.toNat * target ∨
      UInt64.ofNat (totalWork.toNat * target) + span - 1 < UInt64.ofNat (totalWork.toNat * target)
    then 0 else (UInt64.ofNat (totalWork.toNat * target) + span - 1) / span := ⟨_, rfl⟩
  rw [← hrawRes, htime] at hraw
  have hclamp := toNat_clamp rawRes (totalWork / 4 / UInt64.ofNat count)
    (totalWork * 4 / UInt64.ofNat count) (by rwa [hlo, hhi])
  rw [hraw, hlo, hhi] at hclamp
  change _ = clampedQuotient target timeSpan.toNat totalWork.toNat count at hclamp
  obtain ⟨res, hres⟩ : ∃ res, res = if rawRes < totalWork / 4 / UInt64.ofNat count
    then totalWork / 4 / UInt64.ofNat count
    else if totalWork * 4 / UInt64.ofNat count < rawRes then totalWork * 4 / UInt64.ofNat count
    else rawRes := ⟨_, rfl⟩
  rw [← hres] at hclamp
  have hsmall := clampedQuotient_le target timeSpan.toNat totalWork.toNat count
  rw [← hclamp] at hsmall ⊢
  rw [retarget, toNat_max_one]
  simp only [← hspan, ← hrawRes, ← hres]
  congr 1
  rw [easedDifficulty]
  by_cases heasy : height < boulderhash2SwitchBlock + 72
  · have hdivisor : (UInt64.ofNat (boulderhash2SwitchEasyWindow +
        14 * (boulderhash2SwitchBlock + boulderhash2SwitchEasyWindow - height))).toNat =
        72 + 14 * (boulderhash2SwitchBlock + 72 - height) := by
      refine toNat_ofNat_of_lt ?_
      change 72 + 14 * (boulderhash2SwitchBlock + 72 - height) < 2 ^ 64
      omega
    have hproduct : (res * UInt64.ofNat boulderhash2SwitchEasyWindow).toNat = 72 * res.toNat := by
      rw [UInt64.toNat_mul]
      change res.toNat * 72 % 2 ^ 64 = _
      omega
    rw [if_pos ⟨hheight, heasy⟩, if_pos heasy, UInt64.toNat_div, hdivisor, hproduct]
  · rw [if_neg fun h => heasy h.2, if_neg heasy]

theorem zip_tail_of_pairwise {α : Type} {r : α → α → Prop} {l : List α} (h : l.Pairwise r) :
    ∀ p ∈ l.zip l.tail, r p.1 p.2 := by
  induction l with
  | nil => simp
  | cons a l ih =>
    obtain ⟨hfirst, hrest⟩ := List.pairwise_cons.mp h
    cases l with
    | nil => simp
    | cons b l =>
      intro p hp
      rcases List.mem_cons.mp hp with rfl | hp
      · exact hfirst b List.mem_cons_self
      · exact ih hrest p hp

theorem gaps_map_toNat (l : List UInt64) :
    gaps (l.map UInt64.toNat) = (l.zip l.tail).map fun p => p.2.toNat - p.1.toNat := by
  rw [gaps, ← List.map_tail, List.zip_map, List.map_map]
  rfl

/-- The gaps of the source, without their positions. -/
def wordGaps (timestamps : List UInt64) : List UInt64 :=
  (timestamps.zip timestamps.tail).map fun p => if p.2 < p.1 then 0 else p.2 - p.1

theorem timespansIndices_eq {height : Nat} (hheight : boulderhash2SwitchBlock ≤ height)
    (timestamps : List UInt64) :
    timespansIndices height timestamps = (wordGaps timestamps).zipIdx := by
  simp only [timespansIndices, wordGaps, hheight, true_and]

theorem map_toNat_wordGaps (timestamps : List UInt64) :
    (wordGaps timestamps).map UInt64.toNat = gaps (timestamps.map UInt64.toNat) := by
  rw [gaps_map_toNat, wordGaps, List.map_map]
  refine List.map_congr_left fun p _ => ?_
  change (if p.2 < p.1 then 0 else p.2 - p.1).toNat = p.2.toNat - p.1.toNat
  split_ifs with hlt
  · rw [Nat.sub_eq_zero_of_le (UInt64.lt_iff_toNat_lt.mp hlt).le]
    rfl
  · exact UInt64.toNat_sub_of_le _ _ (not_lt.mp hlt)

theorem map_toNat_difficulties {diffs : List UInt64} (hsorted : diffs.Pairwise (· < ·)) :
    ((diffs.zip diffs.tail).map fun p => p.2 - p.1).map UInt64.toNat =
      gaps (diffs.map UInt64.toNat) := by
  rw [gaps_map_toNat, List.map_map]
  refine List.map_congr_left fun p hp => ?_
  exact UInt64.toNat_sub_of_le _ _ (zip_tail_of_pairwise hsorted p hp).le

theorem wordGaps_lt {timestamps : List UInt64} (hsmall : ∀ t ∈ timestamps, t.toNat < 2 ^ 63) :
    ∀ gap ∈ wordGaps timestamps, gap.toNat < 2 ^ 63 := by
  intro gap hgap
  obtain ⟨p, hp, rfl⟩ := List.mem_map.mp hgap
  have hlater := hsmall p.2 (List.mem_of_mem_tail (List.of_mem_zip hp).2)
  split_ifs with hlt
  · decide
  · rw [UInt64.toNat_sub_of_le _ _ (not_lt.mp hlt)]
    omega

theorem signedRank_of_lt {x : UInt64} (hx : x.toNat < 2 ^ 63) :
    signedRank x = x.toNat + 2 ^ 63 := by
  have hhalf : (0x8000000000000000 : UInt64).toNat = 2 ^ 63 := by decide
  rw [signedRank, UInt64.toNat_add, hhalf]
  omega

/-- The order of the source's pairs. -/
def spanKey (p : UInt64 × Nat) : Nat ×ₗ Nat := toLex (signedRank p.1, p.2)

theorem timespanLe_iff (a b : UInt64 × Nat) : timespanLe a b = true ↔ spanKey a ≤ spanKey b := by
  rw [spanKey, spanKey, Prod.Lex.toLex_le_toLex]
  simp [timespanLe]

theorem zipIdx_eq_map_range (g : List UInt64) :
    g.zipIdx = (List.range g.length).map fun i => (g.getD i 0, i) := by
  refine List.ext_getElem (by simp) fun i hi _ => ?_
  have hlt : i < g.length := by simpa using hi
  simp [List.getElem?_eq_getElem hlt]

theorem filter_zipIdx (g : List UInt64) (keep : UInt64 × Nat → Bool) :
    g.zipIdx.filter keep =
      ((List.range g.length).filter fun i => keep (g.getD i 0, i)).map fun i => (g.getD i 0, i) := by
  rw [zipIdx_eq_map_range, List.filter_map]
  rfl

theorem getD_map_toNat (g : List UInt64) (i : Nat) :
    (g.map UInt64.toNat).getD i 0 = (g.getD i 0).toNat :=
  List.getD_map g 0 UInt64.toNat

theorem nodup_map_spanKey (g : List UInt64) : (g.zipIdx.map spanKey).Nodup := by
  have hpositions : (g.zipIdx.map fun p => p.2).Nodup := by
    rw [zipIdx_eq_map_range, List.map_map]
    exact (List.map_id _).symm ▸ List.nodup_range
  refine List.Nodup.of_map (fun key => (ofLex key).2) ?_
  rw [List.map_map]
  exact hpositions

section Kept

variable {height : Nat} {g timestamps : List UInt64} (hsmall : ∀ gap ∈ g, gap.toNat < 2 ^ 63)
include hsmall

theorem getD_toNat_lt (i : Nat) : (g.getD i 0).toNat < 2 ^ 63 := by
  rcases Nat.lt_or_ge i g.length with hi | hi
  · rw [List.getD_eq_getElem _ _ hi]
    exact hsmall _ (List.getElem_mem hi)
  · rw [List.getD_eq_default _ _ hi]
    decide

theorem spanKey_lt_iff (i j : Nat) :
    spanKey (g.getD j 0, j) < spanKey (g.getD i 0, i) ↔
      (g.getD j 0).toNat < (g.getD i 0).toNat ∨
        (g.getD j 0).toNat = (g.getD i 0).toNat ∧ j < i := by
  rw [spanKey, spanKey, Prod.Lex.toLex_lt_toLex, signedRank_of_lt (getD_toNat_lt hsmall i),
    signedRank_of_lt (getD_toNat_lt hsmall j), Nat.add_lt_add_iff_right, Nat.add_right_cancel_iff]

theorem countP_spanKey (i : Nat) :
    g.zipIdx.countP (fun p => spanKey p < spanKey (g.getD i 0, i)) =
      gapRank (g.map UInt64.toNat) i := by
  rw [zipIdx_eq_map_range, List.countP_map, gapRank, List.length_map]
  refine List.countP_congr fun j _ => ?_
  rw [getD_map_toNat, getD_map_toNat, Function.comp_apply, decide_eq_true_iff,
    spanKey_lt_iff hsmall]
  simp

theorem perm_kept (hheight : boulderhash2SwitchBlock ≤ height) (htimes : wordGaps timestamps = g)
    (hcount : timestamps.length - 1 = g.length) :
    (keptTimespans height timestamps).Perm
      (((List.range g.length).filter (isKept (g.map UInt64.toNat))).map
        fun i => (g.getD i 0, i)) := by
  have hcut := perm_cut_insertionSort (r := fun a b => timespanLe a b = true) (f := spanKey)
    (l := g.zipIdx) ((g.length - 60 + 1) / 2) ((g.length - 60 + 1) / 2 + 60) timespanLe_iff
    (nodup_map_spanKey g)
  rw [keptTimespans, timespansIndices_eq hheight, htimes, hcount]
  change List.Perm (((g.zipIdx.insertionSort fun a b => timespanLe a b = true).take
    (if g.length ≤ 60 then g.length else
      (if g.length ≤ 60 then 0 else (g.length - 60 + 1) / 2) + 60)).drop
        (if g.length ≤ 60 then 0 else (g.length - 60 + 1) / 2)) _
  rcases Nat.lt_or_ge 60 g.length with hmany | hfew
  · rw [if_neg (not_le.mpr hmany), if_neg (not_le.mpr hmany)]
    refine hcut.trans (List.Perm.of_eq ?_)
    rw [filter_zipIdx]
    refine congrArg (List.map _) (List.filter_congr fun i _ => ?_)
    simp only [countP_spanKey hsmall, isKept, List.length_map,
      if_neg (not_le.mpr hmany)]
  · rw [if_pos hfew, if_pos hfew, List.drop_zero, List.take_of_length_le (by simp)]
    have hall : (List.range g.length).filter (isKept (g.map UInt64.toNat)) =
        List.range g.length := by
      refine List.filter_eq_self.mpr fun i _ => ?_
      rw [isKept, List.length_map, if_pos hfew]
    rw [hall, ← zipIdx_eq_map_range]
    exact List.perm_insertionSort _ _

theorem toNat_sum_kept (hheight : boulderhash2SwitchBlock ≤ height)
    (htimes : wordGaps timestamps = g) (hcount : timestamps.length - 1 = g.length)
    (value : UInt64 × Nat → UInt64) {values : List Nat}
    (hvalue : ∀ i, (value (g.getD i 0, i)).toNat = values.getD i 0)
    (hfits : keptSum (g.map UInt64.toNat) values < 2 ^ 64) :
    ((keptTimespans height timestamps).map value).sum.toNat =
      keptSum (g.map UInt64.toNat) values := by
  have hnumbers : (((keptTimespans height timestamps).map value).map UInt64.toNat).sum =
      keptSum (g.map UInt64.toNat) values := by
    rw [(((perm_kept hsmall hheight htimes hcount).map value).map UInt64.toNat).sum_eq,
      List.map_map, List.map_map, keptSum, List.length_map]
    refine congrArg List.sum (List.map_congr_left fun i _ => ?_)
    exact hvalue i
  rw [toNat_sum_of_lt (hnumbers ▸ hfits), hnumbers]

end Kept

theorem length_gaps (l : List Nat) : (gaps l).length = l.length - 1 := by
  rw [gaps, List.length_map, List.length_zip, List.length_tail]
  omega

/-- The next difficulty is the exact quotient, clamped, eased after the switch and at
least one. -/
theorem toNat_nextDifficultyFor (target height : Nat) (timestamps diffs : List UInt64)
    (hheight : boulderhash2SwitchBlock ≤ height)
    (hwindow : 2 ≤ timestamps.length ∧ timestamps.length ≤ 72)
    (hlength : diffs.length = timestamps.length) (hsmall : ∀ t ∈ timestamps, t.toNat < 2 ^ 63)
    (hsorted : diffs.Pairwise (· < ·))
    (hbound : 4 * keptSum (gaps (timestamps.map UInt64.toNat)) (gaps (diffs.map UInt64.toNat)) *
        max target 72 +
      keptSum (gaps (timestamps.map UInt64.toNat)) (gaps (timestamps.map UInt64.toNat)) < 2 ^ 64) :
    (nextDifficultyFor target height timestamps diffs).toNat =
      exactDifficulty target height (timestamps.map UInt64.toNat) (diffs.map UInt64.toNat) := by
  have htimes := map_toNat_wordGaps timestamps
  have hworks := map_toNat_difficulties hsorted
  have hcount : (gaps (timestamps.map UInt64.toNat)).length = timestamps.length - 1 := by
    rw [length_gaps, List.length_map]
  have hcount' : timestamps.length - 1 = (wordGaps timestamps).length := by
    rw [← hcount, ← htimes, List.length_map]
  rw [← htimes] at hbound
  have hpositive : keptSum ((wordGaps timestamps).map UInt64.toNat) (gaps (diffs.map UInt64.toNat)) ≤
      keptSum ((wordGaps timestamps).map UInt64.toNat) (gaps (diffs.map UInt64.toNat)) *
        max target 72 := Nat.le_mul_of_pos_right _ (by omega)
  rw [Nat.mul_assoc] at hbound
  have htime := toNat_sum_kept (wordGaps_lt hsmall) hheight rfl hcount' Prod.fst
    (fun i => (getD_map_toNat _ i).symm) (by omega)
  have hwork := toNat_sum_kept (wordGaps_lt hsmall) hheight rfl hcount'
    (fun p => ((diffs.zip diffs.tail).map fun p => p.2 - p.1).getD p.2 0)
    (fun i => (getD_map_toNat _ i).symm) (by rw [hworks]; omega)
  rw [hworks] at hwork
  have htake : timestamps.take difficultyWindow = timestamps :=
    List.take_of_length_le hwindow.2
  have htake' : diffs.take difficultyWindow = diffs :=
    List.take_of_length_le (hlength.trans_le hwindow.2)
  rw [nextDifficultyFor, htake, htake', if_neg (by omega)]
  dsimp only
  have hnumber : ((diffs.zip diffs.tail).map fun p => p.2 - p.1).length = timestamps.length - 1 := by
    rw [← hlength, List.length_map, List.length_zip, List.length_tail]
    omega
  rw [hnumber, toNat_retarget hheight (by omega) (by rw [htime, hwork, Nat.mul_assoc]; exact hbound),
    htime, hwork, htimes, exactDifficulty, hcount]

/-- Three gaps, one of them backward, right after the switch. -/
theorem toNat_nextDifficultyFor_after_switch :
    (nextDifficultyFor 120 boulderhash2SwitchBlock [1000, 1100, 1050, 1200]
      [10, 30, 60, 100]).toNat = 2 := by
  have hall : ([1000, 1100, 1050, 1200] : List UInt64).all (fun t => decide (t.toNat < 2 ^ 63)) =
      true := by
    decide
  exact (toNat_nextDifficultyFor 120 boulderhash2SwitchBlock [1000, 1100, 1050, 1200]
    [10, 30, 60, 100] le_rfl (by decide) rfl
    (fun t ht => of_decide_eq_true (List.all_eq_true.mp hall t ht)) (by decide) (by decide)).trans
    (by decide)

end Pebblecoin
