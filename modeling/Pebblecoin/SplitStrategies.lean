import Pebblecoin.WalletTxBuilder
import Pebblecoin.Wire.Words

/-!
How amounts are split into outputs.  The amounts of a split add up to what was split, in
exact numbers.
-/

namespace Pebblecoin

open Wire

/-- What the two handlers are called with. -/
inductive Piece where
  | chunk (amount : UInt64)
  | dust (amount : UInt64)
deriving DecidableEq

namespace Piece

def amount : Piece → UInt64
  | .chunk amount => amount
  | .dust amount => amount

def chunk? : Piece → Option UInt64
  | .chunk amount => some amount
  | .dust _ => none

def dust? : Piece → Option UInt64
  | .chunk _ => none
  | .dust amount => some amount

end Piece

/-- The dust, unless it was handled before or there is none. -/
def handleDust (isDustHandled : Bool) (dust : UInt64) : List Piece :=
  if !isDustHandled && decide (0 ≠ dust) then [.dust dust] else []

def handleChunk (chunk : UInt64) : List Piece := if 0 ≠ chunk then [.chunk chunk] else []

/-- One round for each digit, so twenty rounds are enough. -/
def decomposeLoop (dustThreshold : UInt64) :
    (rounds : Nat) → (amount dust order : UInt64) → (isDustHandled : Bool) → List Piece
  | 0, _, dust, _, isDustHandled => handleDust isDustHandled dust
  | rounds + 1, amount, dust, order, isDustHandled =>
    if 0 ≠ amount then
      let chunk := (amount % 10) * order
      if dust + chunk ≤ dustThreshold then
        decomposeLoop dustThreshold rounds (amount / 10) (dust + chunk) (order * 10) isDustHandled
      else
        handleDust isDustHandled dust ++ handleChunk chunk ++
          decomposeLoop dustThreshold rounds (amount / 10) dust (order * 10)
            (isDustHandled || decide (0 ≠ dust))
    else handleDust isDustHandled dust

def decomposeAmountIntoDigits (amount dustThreshold : UInt64) : List Piece :=
  if 0 = amount then [] else decomposeLoop dustThreshold 20 amount 0 1 false

def piecesTotal (pieces : List Piece) : Nat := (pieces.map fun p => p.amount.toNat).sum

/-- Digits at their places and so many dusts, which add up to the total. -/
structure SplitsInto (dustThreshold : UInt64) (pieces : List Piece) (total dusts : Nat) : Prop where
  total_eq : piecesTotal pieces = total
  chunks : ∀ amount, .chunk amount ∈ pieces → ∃ d k, 0 < d ∧ d < 10 ∧ amount.toNat = d * 10 ^ k
  dust_le : ∀ amount, .dust amount ∈ pieces → amount ≤ dustThreshold
  dusts_le : (pieces.filterMap Piece.dust?).length ≤ dusts

namespace SplitsInto

variable {dustThreshold : UInt64} {l l' : List Piece} {a b m n : Nat}

theorem nil (dustThreshold : UInt64) : SplitsInto dustThreshold [] 0 0 :=
  ⟨rfl, fun _ h => absurd h List.not_mem_nil, fun _ h => absurd h List.not_mem_nil, Nat.le_refl _⟩

theorem append (h : SplitsInto dustThreshold l a m) (h' : SplitsInto dustThreshold l' b n) :
    SplitsInto dustThreshold (l ++ l') (a + b) (m + n) := by
  refine ⟨?_, fun amount hmem => ?_, fun amount hmem => ?_, ?_⟩
  · rw [← h.total_eq, ← h'.total_eq, piecesTotal, List.map_append, List.sum_append, piecesTotal,
      piecesTotal]
  · exact (List.mem_append.mp hmem).elim (h.chunks amount) (h'.chunks amount)
  · exact (List.mem_append.mp hmem).elim (h.dust_le amount) (h'.dust_le amount)
  · rw [List.filterMap_append, List.length_append]
    exact Nat.add_le_add h.dusts_le h'.dusts_le

theorem congr {total dusts : Nat} (h : SplitsInto dustThreshold l a m) (htotal : a = total)
    (hdusts : m ≤ dusts) : SplitsInto dustThreshold l total dusts :=
  ⟨h.total_eq.trans htotal, h.chunks, h.dust_le, h.dusts_le.trans hdusts⟩

theorem dust {amount : UInt64} (h : amount ≤ dustThreshold) :
    SplitsInto dustThreshold [.dust amount] amount.toNat 1 := by
  refine ⟨Nat.add_zero _, fun c hmem => ?_, fun d hmem => ?_, Nat.le_refl _⟩
  · cases List.mem_singleton.mp hmem
  · rw [Piece.dust.inj (List.mem_singleton.mp hmem)]
    exact h

theorem chunk {amount : UInt64} {d k : Nat} (hpos : 0 < d) (hlt : d < 10)
    (hamount : amount.toNat = d * 10 ^ k) :
    SplitsInto dustThreshold [.chunk amount] amount.toNat 0 := by
  refine ⟨Nat.add_zero _, fun c hmem => ?_, fun d hmem => ?_, Nat.le_refl _⟩
  · rw [Piece.chunk.inj (List.mem_singleton.mp hmem)]
    exact ⟨d, k, hpos, hlt, hamount⟩
  · cases List.mem_singleton.mp hmem

end SplitsInto

/-- The dust that is still to be handled, and how often that can be. -/
def pendingDust (handled : Bool) (dust : UInt64) : Nat := if handled then 0 else dust.toNat

def pendingDusts (handled : Bool) : Nat := if handled then 0 else 1

theorem handleDust_splits {dustThreshold dust : UInt64} (handled : Bool) (h : dust ≤ dustThreshold) :
    ∃ dusts, SplitsInto dustThreshold (handleDust handled dust) (pendingDust handled dust) dusts ∧
      dusts + pendingDusts (handled || decide (0 ≠ dust)) = pendingDusts handled ∧
      pendingDust (handled || decide (0 ≠ dust)) dust = 0 := by
  rw [handleDust]
  cases handled with
  | true => exact ⟨0, .nil _, rfl, rfl⟩
  | false =>
    by_cases hdust : 0 = dust
    · subst hdust
      exact ⟨0, .nil _, rfl, rfl⟩
    · have hyes : decide (0 ≠ dust) = true := decide_eq_true hdust
      rw [hyes]
      exact ⟨1, .dust h, rfl, rfl⟩

theorem handleChunk_splits {dustThreshold chunk : UInt64} {d k : Nat} (hlt : d < 10)
    (hchunk : chunk.toNat = d * 10 ^ k) :
    SplitsInto dustThreshold (handleChunk chunk) chunk.toNat 0 := by
  rw [handleChunk]
  by_cases hzero : 0 = chunk
  · subst hzero
    exact .nil _
  · rw [if_pos hzero]
    refine .chunk (Nat.pos_of_ne_zero fun hd => hzero ?_) hlt hchunk
    rw [hd, Nat.zero_mul] at hchunk
    exact (UInt64.toNat_inj.mp hchunk).symm

/-- What the loop knows when it has come to a digit: the rest still fits, and once the dust is
handled no further digit fits into it. -/
structure DigitState (dustThreshold amount dust order : UInt64) (handled : Bool) (k : Nat) : Prop where
  order_eq : amount ≠ 0 → order.toNat = 10 ^ k
  fits : dust.toNat + amount.toNat * 10 ^ k < 2 ^ 64
  dust_le : dust ≤ dustThreshold
  full : handled = true → dustThreshold.toNat < dust.toNat + 10 ^ k

theorem digit_split (n k : Nat) : n * 10 ^ k = n % 10 * 10 ^ k + n / 10 * 10 ^ (k + 1) := by
  conv_lhs => rw [← Nat.mod_add_div n 10]
  ring

section Step

variable {dustThreshold amount dust order : UInt64} {handled : Bool} {k : Nat}
  (h : DigitState dustThreshold amount dust order handled k)
include h

theorem DigitState.toNat_chunk (hamount : amount ≠ 0) :
    (amount % 10 * order).toNat = amount.toNat % 10 * 10 ^ k := by
  have hfits := h.fits
  have hle : amount.toNat % 10 * 10 ^ k ≤ amount.toNat * 10 ^ k :=
    Nat.mul_le_mul_right _ (Nat.mod_le _ _)
  have hmod : (amount % 10).toNat = amount.toNat % 10 := UInt64.toNat_mod _ _
  rw [UInt64.toNat_mul, h.order_eq hamount, hmod]
  exact Nat.mod_eq_of_lt (by omega)

theorem DigitState.toNat_dust (hamount : amount ≠ 0) :
    (dust + amount % 10 * order).toNat = dust.toNat + amount.toNat % 10 * 10 ^ k := by
  have hfits := h.fits
  rw [digit_split] at hfits
  rw [UInt64.toNat_add, h.toNat_chunk hamount]
  exact Nat.mod_eq_of_lt (by omega)

theorem DigitState.order_next (hamount : amount ≠ 0) (hrest : amount / 10 ≠ 0) :
    (order * 10).toNat = 10 ^ (k + 1) := by
  have hpos : 0 < (amount / 10).toNat :=
    Nat.pos_of_ne_zero fun hzero => hrest (UInt64.toNat_inj.mp hzero)
  have hdiv : (amount / 10).toNat = amount.toNat / 10 := UInt64.toNat_div _ _
  have hfits := h.fits
  rw [digit_split, ← hdiv] at hfits
  have hle : 10 ^ (k + 1) ≤ (amount / 10).toNat * 10 ^ (k + 1) := Nat.le_mul_of_pos_left _ hpos
  have hten : (10 : UInt64).toNat = 10 := rfl
  rw [UInt64.toNat_mul, h.order_eq hamount, hten, ← pow_succ]
  exact Nat.mod_eq_of_lt (by omega)

theorem DigitState.collect (hamount : amount ≠ 0) (hfit : dust + amount % 10 * order ≤ dustThreshold) :
    DigitState dustThreshold (amount / 10) (dust + amount % 10 * order) (order * 10) handled (k + 1) := by
  refine ⟨h.order_next hamount, ?_, hfit, fun hhandled => ?_⟩
  · rw [h.toNat_dust hamount, UInt64.toNat_div]
    have hfits := h.fits
    rw [digit_split, ← Nat.add_assoc] at hfits
    exact hfits
  · have hfull := h.full hhandled
    have hle : 10 ^ k ≤ 10 ^ (k + 1) := Nat.pow_le_pow_right (by decide) (Nat.le_succ k)
    rw [h.toNat_dust hamount]
    omega

theorem DigitState.emit (hamount : amount ≠ 0) (hfit : ¬ dust + amount % 10 * order ≤ dustThreshold)
    (handled' : Bool) : DigitState dustThreshold (amount / 10) dust (order * 10) handled' (k + 1) := by
  have hdigit : amount.toNat % 10 * 10 ^ k ≤ 9 * 10 ^ k :=
    Nat.mul_le_mul_right _ (Nat.le_of_lt_succ (Nat.mod_lt _ (by decide)))
  refine ⟨h.order_next hamount, ?_, h.dust_le, fun _ => ?_⟩
  · rw [UInt64.toNat_div]
    have hfits := h.fits
    rw [digit_split] at hfits
    have hten : (10 : UInt64).toNat = 10 := rfl
    rw [hten]
    omega
  · rw [UInt64.not_le, UInt64.lt_iff_toNat_lt, h.toNat_dust hamount] at hfit
    rw [pow_succ]
    have := Nat.pow_pos (n := k) (by decide : 0 < 10)
    omega

theorem DigitState.digit_eq_zero (hamount : amount ≠ 0) (hhandled : handled = true)
    (hfit : dust + amount % 10 * order ≤ dustThreshold) : amount.toNat % 10 * 10 ^ k = 0 := by
  have hfull := h.full hhandled
  rw [UInt64.le_iff_toNat_le, h.toNat_dust hamount] at hfit
  by_contra hpos
  have hdigit : 0 < amount.toNat % 10 := Nat.pos_of_ne_zero fun hzero => hpos (by rw [hzero, Nat.zero_mul])
  have := Nat.le_mul_of_pos_left (10 ^ k) hdigit
  omega

end Step

theorem DigitState.stop {dustThreshold amount dust order : UInt64} {handled : Bool} {k : Nat}
    (h : DigitState dustThreshold amount dust order handled k) (hzero : amount.toNat = 0) :
    SplitsInto dustThreshold (handleDust handled dust)
      (pendingDust handled dust + amount.toNat * 10 ^ k) (pendingDusts handled) := by
  obtain ⟨dusts, hsplits, hcount, -⟩ := handleDust_splits handled h.dust_le
  exact hsplits.congr (by rw [hzero, Nat.zero_mul, Nat.add_zero]) (by omega)

theorem decomposeLoop_splits {dustThreshold amount dust order : UInt64} {handled : Bool}
    {rounds k : Nat} (h : DigitState dustThreshold amount dust order handled k)
    (hrounds : amount.toNat < 10 ^ rounds) :
    SplitsInto dustThreshold (decomposeLoop dustThreshold rounds amount dust order handled)
      (pendingDust handled dust + amount.toNat * 10 ^ k) (pendingDusts handled) := by
  induction rounds generalizing amount dust order handled k with
  | zero => exact h.stop (Nat.lt_one_iff.mp hrounds)
  | succ rounds ih =>
    rw [decomposeLoop]
    by_cases hzero : 0 = amount
    · rw [if_neg (by simpa using hzero)]
      exact h.stop (by rw [← hzero]; rfl)
    have hamount : amount ≠ 0 := Ne.symm hzero
    have hdiv : (amount / 10).toNat = amount.toNat / 10 := UInt64.toNat_div _ _
    have hnext : (amount / 10).toNat < 10 ^ rounds := by
      rw [hdiv, Nat.div_lt_iff_lt_mul (by decide)]
      exact hrounds
    have hsplit := digit_split amount.toNat k
    rw [if_pos hzero]
    dsimp only
    by_cases hfit : dust + amount % 10 * order ≤ dustThreshold
    · rw [if_pos hfit]
      refine (ih (h.collect hamount hfit) hnext).congr ?_ (Nat.le_refl _)
      rw [hdiv]
      cases handled with
      | true =>
        have := h.digit_eq_zero hamount rfl hfit
        simp only [pendingDust, if_true]
        omega
      | false =>
        simp only [pendingDust, Bool.false_eq_true, if_false, h.toNat_dust hamount]
        omega
    · rw [if_neg hfit]
      obtain ⟨dusts, hdust, hcount, hnone⟩ := handleDust_splits handled h.dust_le
      have hchunk : SplitsInto dustThreshold (handleChunk (amount % 10 * order)) _ _ :=
        handleChunk_splits (Nat.mod_lt _ (by decide)) (h.toNat_chunk hamount)
      refine ((hdust.append hchunk).append (ih (h.emit hamount hfit _) hnext)).congr ?_ ?_
      · rw [h.toNat_chunk hamount, hdiv, hnone]
        omega
      · omega

theorem decomposeAmountIntoDigits_splits (amount dustThreshold : UInt64) :
    SplitsInto dustThreshold (decomposeAmountIntoDigits amount dustThreshold) amount.toNat 1 := by
  rw [decomposeAmountIntoDigits]
  split_ifs with hzero
  · subst hzero
    exact (SplitsInto.nil _).congr rfl (Nat.zero_le 1)
  · have hlt := amount.toNat_lt
    have hstart : DigitState dustThreshold amount 0 1 false 0 := by
      refine ⟨fun _ => rfl, ?_, UInt64.le_iff_toNat_le.mpr (Nat.zero_le _), fun h => by cases h⟩
      rw [UInt64.toNat_zero, pow_zero, Nat.mul_one, Nat.zero_add]
      exact hlt
    have hrounds : amount.toNat < 10 ^ 20 := hlt.trans (by decide)
    exact (decomposeLoop_splits hstart hrounds).congr (by simp [pendingDust]) (Nat.le_refl _)

/-- An amount for the same address. -/
def payTo (de : TxDestinationEntry) (amount : UInt64) : TxDestinationEntry := ⟨de.cp, amount, de.addr⟩

/-- Dust of the destinations is paid to them, that of the change is left. -/
def digitSplitStrategy : SplitStrategy := fun dsts changeDst dustThreshold =>
  let splitted := dsts.map fun de =>
    ((decomposeAmountIntoDigits de.amount dustThreshold).map Piece.amount).map (payTo de)
  let pieces := decomposeAmountIntoDigits changeDst.amount dustThreshold
  (splitted.flatten ++ (pieces.filterMap Piece.chunk?).map (payTo changeDst),
    (pieces.filterMap Piece.dust?).getLast?.getD 0)

/-- None if the rounds do not suffice; the source then goes on with an order that has wrapped. -/
def nullSplitLoop (amount dustThreshold : UInt64) :
    (rounds : Nat) → (order dust change : UInt64) → Option (UInt64 × UInt64)
  | 0, _, _, _ => none
  | rounds + 1, order, dust, change =>
    if order ≤ 10 * dustThreshold then
      let dustCandidate := amount % order
      let changeCandidate := amount / order * order
      if dustCandidate ≤ dustThreshold then
        nullSplitLoop amount dustThreshold rounds (order * 10) dustCandidate changeCandidate
      else some (dust, change)
    else some (dust, change)

def nullSplitStrategy (dsts : List TxDestinationEntry) (changeDst : TxDestinationEntry)
    (dustThreshold : UInt64) : Option (List TxDestinationEntry × UInt64) :=
  let r :=
    if 0 < dustThreshold then nullSplitLoop changeDst.amount dustThreshold 20 10 0 changeDst.amount
    else some (0, changeDst.amount)
  r.map fun (dust, change) =>
    (dsts ++ if 0 ≠ change then [payTo changeDst change] else [], dust)

/-- Outputs of one coin type to one address, and what they are worth. -/
structure Pays (de : TxDestinationEntry) (entries : List TxDestinationEntry) (amount : Nat) : Prop where
  same : ∀ e ∈ entries, e.cp = de.cp ∧ e.addr = de.addr
  total : (entries.map fun e => e.amount.toNat).sum = amount

/-- Every destination gets its amount, and the change is paid back up to the dust. -/
structure Conserves (dsts : List TxDestinationEntry) (changeDst : TxDestinationEntry)
    (dustThreshold : UInt64) (r : List TxDestinationEntry × UInt64) : Prop where
  exists_groups : ∃ groups changes, r.1 = groups.flatten ++ changes ∧
    List.Forall₂ (fun de group => Pays de group de.amount.toNat) dsts groups ∧
    ∃ amount, Pays changeDst changes amount ∧ amount + r.2.toNat = changeDst.amount.toNat
  dust_le : r.2 ≤ dustThreshold

theorem pays_map (de : TxDestinationEntry) (amounts : List UInt64) :
    Pays de (amounts.map (payTo de)) (amounts.map UInt64.toNat).sum := by
  refine ⟨fun e he => ?_, ?_⟩
  · obtain ⟨amount, -, rfl⟩ := List.mem_map.mp he
    exact ⟨rfl, rfl⟩
  · rw [List.map_map]
    rfl

theorem piecesTotal_eq (pieces : List Piece) :
    piecesTotal pieces = ((pieces.filterMap Piece.chunk?).map UInt64.toNat).sum +
      ((pieces.filterMap Piece.dust?).map UInt64.toNat).sum := by
  induction pieces with
  | nil => rfl
  | cons p pieces ih =>
    rw [piecesTotal, List.map_cons, List.sum_cons, ← piecesTotal, ih]
    cases p with
    | chunk amount => exact (Nat.add_assoc _ _ _).symm
    | dust amount => exact Nat.add_left_comm _ _ _

theorem sum_eq_getLast {l : List UInt64} (h : l.length ≤ 1) :
    (l.map UInt64.toNat).sum = (l.getLast?.getD 0).toNat := by
  rcases l with _ | ⟨x, _ | ⟨y, l⟩⟩
  · rfl
  · exact Nat.add_zero _
  · rw [List.length_cons, List.length_cons] at h
    omega

theorem SplitsInto.last_dust_le {dustThreshold : UInt64} {pieces : List Piece} {total dusts : Nat}
    (h : SplitsInto dustThreshold pieces total dusts) :
    (pieces.filterMap Piece.dust?).getLast?.getD 0 ≤ dustThreshold := by
  cases hlast : (pieces.filterMap Piece.dust?).getLast? with
  | none => exact UInt64.le_iff_toNat_le.mpr (Nat.zero_le _)
  | some amount =>
    obtain ⟨p, hp, hdust⟩ := List.mem_filterMap.mp (List.mem_of_getLast? hlast)
    cases p with
    | chunk _ => cases hdust
    | dust _ =>
      obtain rfl := Option.some.inj hdust
      exact h.dust_le _ hp

theorem digitSplitStrategy_conserves (dsts : List TxDestinationEntry) (changeDst : TxDestinationEntry)
    (dustThreshold : UInt64) :
    Conserves dsts changeDst dustThreshold (digitSplitStrategy dsts changeDst dustThreshold) := by
  have hsplits := decomposeAmountIntoDigits_splits changeDst.amount dustThreshold
  have htotal := hsplits.total_eq
  rw [piecesTotal_eq, sum_eq_getLast hsplits.dusts_le] at htotal
  refine ⟨⟨_, _, rfl, ?_, _, pays_map changeDst _, htotal⟩, hsplits.last_dust_le⟩
  rw [List.forall₂_map_right_iff, List.forall₂_same]
  intro de _
  have hde := (decomposeAmountIntoDigits_splits de.amount dustThreshold).total_eq
  rw [piecesTotal, ← Function.comp_def UInt64.toNat Piece.amount, ← List.map_map] at hde
  have hpays := pays_map de ((decomposeAmountIntoDigits de.amount dustThreshold).map Piece.amount)
  rwa [hde] at hpays

theorem nullSplitLoop_eq_some {amount dustThreshold order dust change : UInt64} {rounds k : Nat}
    (hthreshold : dustThreshold.toNat < 10 ^ 18) (horder : order.toNat = 10 ^ k) (hk : k ≤ 19)
    (hrounds : 20 ≤ k + rounds) (htotal : change.toNat + dust.toNat = amount.toNat)
    (hdust : dust ≤ dustThreshold) :
    ∃ dust' change', nullSplitLoop amount dustThreshold rounds order dust change =
        some (dust', change') ∧
      change'.toNat + dust'.toNat = amount.toNat ∧ dust' ≤ dustThreshold := by
  have hten : (10 * dustThreshold).toNat = 10 * dustThreshold.toNat := by
    rw [UInt64.toNat_mul]
    exact Nat.mod_eq_of_lt (by change 10 * _ < _; omega)
  induction rounds generalizing order dust change k with
  | zero => omega
  | succ rounds ih =>
    rw [nullSplitLoop]
    by_cases hgo : order ≤ 10 * dustThreshold
    · rw [if_pos hgo]
      dsimp only
      by_cases hfit : amount % order ≤ dustThreshold
      · rw [if_pos hfit]
        have hless : 10 ^ k < 10 ^ 19 := by
          rw [UInt64.le_iff_toNat_le, horder, hten] at hgo
          omega
        have hklt : k < 19 := (Nat.pow_lt_pow_iff_right (by decide)).mp hless
        have hsmall : 10 ^ (k + 1) ≤ 10 ^ 19 := Nat.pow_le_pow_right (by decide) hklt
        have hnext : (order * 10).toNat = 10 ^ (k + 1) := by
          have hten' : (10 : UInt64).toNat = 10 := rfl
          rw [UInt64.toNat_mul, horder, hten', ← pow_succ]
          exact Nat.mod_eq_of_lt (Nat.lt_of_le_of_lt hsmall (by decide))
        have hproduct : (amount / order * order).toNat = amount.toNat / order.toNat * order.toNat := by
          have hle := Nat.div_mul_le_self amount.toNat order.toNat
          have hlt := amount.toNat_lt
          rw [UInt64.toNat_mul, UInt64.toNat_div]
          exact Nat.mod_eq_of_lt (by omega)
        refine ih hnext hklt (by omega) ?_ hfit
        rw [hproduct, UInt64.toNat_mod, Nat.mul_comm, Nat.div_add_mod]
      · rw [if_neg hfit]
        exact ⟨dust, change, rfl, htotal, hdust⟩
    · rw [if_neg hgo]
      exact ⟨dust, change, rfl, htotal, hdust⟩

theorem nullSplitStrategy_conserves (dsts : List TxDestinationEntry) (changeDst : TxDestinationEntry)
    {dustThreshold : UInt64} (hthreshold : dustThreshold.toNat < 10 ^ 18) :
    ∃ r, nullSplitStrategy dsts changeDst dustThreshold = some r ∧
      Conserves dsts changeDst dustThreshold r := by
  have hloop : ∃ dust change, (if 0 < dustThreshold then
        nullSplitLoop changeDst.amount dustThreshold 20 10 0 changeDst.amount
        else some (0, changeDst.amount)) = some (dust, change) ∧
      change.toNat + dust.toNat = changeDst.amount.toNat ∧ dust ≤ dustThreshold := by
    have hzero : (0 : UInt64) ≤ dustThreshold := UInt64.le_iff_toNat_le.mpr (Nat.zero_le _)
    split_ifs
    · exact nullSplitLoop_eq_some hthreshold (k := 1) rfl (by decide) (by decide) rfl hzero
    · exact ⟨_, _, rfl, rfl, hzero⟩
  obtain ⟨dust, change, heq, htotal, hdust⟩ := hloop
  have hchange : Pays changeDst (if 0 ≠ change then [payTo changeDst change] else []) change.toNat := by
    by_cases hnone : 0 = change
    · subst hnone
      exact pays_map changeDst []
    · rw [if_pos hnone]
      exact pays_map changeDst [change]
  refine ⟨(dsts ++ if 0 ≠ change then [payTo changeDst change] else [], dust), ?_,
    ⟨dsts.map fun de => [de], _, ?_, ?_, change.toNat, hchange, htotal⟩, hdust⟩
  · rw [nullSplitStrategy, heq, Option.map_some]
  · rw [← List.flatMap_def, List.flatMap_singleton']
  · rw [List.forall₂_map_right_iff, List.forall₂_same]
    intro de _
    refine ⟨fun e he => ?_, Nat.add_zero _⟩
    rw [List.mem_singleton.mp he]
    exact ⟨rfl, rfl⟩

end Pebblecoin
