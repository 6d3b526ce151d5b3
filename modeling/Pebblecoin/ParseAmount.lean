import Pebblecoin.Wire.Decimal

/-!
Amounts as text.  The parser edits the text until only the digits of the atomic units are
left, and converts these.
-/

namespace Pebblecoin

open Wire

def cryptonoteDisplayDecimalPoint : Nat := 8

def pointChar : UInt8 := 46

/-- White space of the classic locale. -/
def isSpace (c : UInt8) : Bool := c == 32 || (decide (9 ≤ c) && decide (c ≤ 13))

def trim (s : Bytes) : Bytes := (s.rdropWhile isSpace).dropWhile isSpace

/-- Only digits are converted, and only if they fit. -/
def getXtypeFromString (strId : Bytes) : Option UInt64 :=
  if strId.all isDigit && !strId.isEmpty && decide (decimal strId < 2 ^ 64) then
    some (UInt64.ofNat (decimal strId))
  else none

/-- Zeros at the end of too long a fraction are erased. -/
def trimFraction : (fractionSize : Nat) → (strAmount : Bytes) → Nat × Bytes
  | 0, strAmount => (0, strAmount)
  | fractionSize + 1, strAmount =>
    if cryptonoteDisplayDecimalPoint < fractionSize + 1 ∧ strAmount.getLast? = some zeroChar then
      trimFraction fractionSize strAmount.dropLast
    else (fractionSize + 1, strAmount)

/-- The digits that are left, with as many of them after the point. -/
def parseDigits (fractionSize : Nat) (strAmount : Bytes) : Option UInt64 :=
  if strAmount.isEmpty then none
  else if fractionSize < cryptonoteDisplayDecimalPoint then
    getXtypeFromString
      (strAmount ++ List.replicate (cryptonoteDisplayDecimalPoint - fractionSize) zeroChar)
  else getXtypeFromString strAmount

def parseTrimmed (strAmount : Bytes) : Option UInt64 :=
  match strAmount.findIdx? (· == pointChar) with
  | none => parseDigits 0 strAmount
  | some pointIndex =>
    let trimmed := trimFraction (strAmount.length - pointIndex - 1) strAmount
    if cryptonoteDisplayDecimalPoint < trimmed.1 then none
    else parseDigits trimmed.1 (trimmed.2.eraseIdx pointIndex)

def parseAmount (strAmount : Bytes) : Option UInt64 := parseTrimmed (trim strAmount)

def printMoneyWith (amount : UInt64) (decimals : Nat) : Bytes :=
  let s := printDecimal amount.toNat
  let s := List.replicate (decimals + 1 - s.length) zeroChar ++ s
  s.take (s.length - decimals) ++ pointChar :: s.drop (s.length - decimals)

def printMoney (amount : UInt64) : Bytes := printMoneyWith amount cryptonoteDisplayDecimalPoint

/-- What the text of an amount is: digits with at most one point, and zeros only after the
last place.  The value is that of the decimal fraction, counted in atomic units. -/
def IsAmount (text : Bytes) (amount : UInt64) : Prop :=
  ∃ whole fraction : Bytes,
    (text = whole ∧ fraction = [] ∨ text = whole ++ pointChar :: fraction) ∧
    (∀ c ∈ whole ++ fraction, isDigit c = true) ∧ whole ++ fraction ≠ [] ∧
    (∀ c ∈ fraction.drop cryptonoteDisplayDecimalPoint, c = zeroChar) ∧
    amount.toNat * 10 ^ fraction.length =
      decimal (whole ++ fraction) * 10 ^ cryptonoteDisplayDecimalPoint

theorem getXtypeFromString_eq_some_iff {s : Bytes} {amount : UInt64} :
    getXtypeFromString s = some amount ↔
      (∀ c ∈ s, isDigit c = true) ∧ s ≠ [] ∧ amount.toNat = decimal s := by
  rw [getXtypeFromString]
  constructor
  · intro h
    split_ifs at h with hs
    simp only [Bool.and_eq_true, List.all_eq_true, Bool.not_eq_true', List.isEmpty_eq_false_iff,
      decide_eq_true_eq] at hs
    obtain ⟨⟨hdigits, hne⟩, hfits⟩ := hs
    rw [← Option.some.inj h]
    exact ⟨hdigits, hne, Nat.mod_eq_of_lt hfits⟩
  · rintro ⟨hdigits, hne, hamount⟩
    have hfits : decimal s < 2 ^ 64 := hamount ▸ amount.toNat_lt
    rw [if_pos, ← hamount, UInt64.ofNat_toNat]
    simp only [Bool.and_eq_true, List.all_eq_true, Bool.not_eq_true', List.isEmpty_eq_false_iff,
      decide_eq_true_eq]
    exact ⟨⟨hdigits, hne⟩, hfits⟩

theorem parseDigits_eq_some_iff {fractionSize : Nat} {s : Bytes} {amount : UInt64}
    (h : fractionSize ≤ cryptonoteDisplayDecimalPoint) :
    parseDigits fractionSize s = some amount ↔
      (∀ c ∈ s, isDigit c = true) ∧ s ≠ [] ∧
        amount.toNat * 10 ^ fractionSize = decimal s * 10 ^ cryptonoteDisplayDecimalPoint := by
  have hvalue : amount.toNat = decimal s * 10 ^ (cryptonoteDisplayDecimalPoint - fractionSize) ↔
      amount.toNat * 10 ^ fractionSize = decimal s * 10 ^ cryptonoteDisplayDecimalPoint := by
    rw [← Nat.mul_left_inj (pow_ne_zero fractionSize (by decide : 10 ≠ 0)), Nat.mul_assoc, ← pow_add,
      Nat.sub_add_cancel h]
  rw [← hvalue, parseDigits]
  by_cases hempty : s = []
  · rw [hempty]
    constructor
    · intro h
      cases h
    · intro h
      exact absurd rfl h.2.1
  rw [if_neg (by simpa using hempty)]
  split_ifs with hless
  · rw [getXtypeFromString_eq_some_iff, decimal_append_zeros]
    refine and_congr ?_ (and_congr ⟨fun _ => hempty, fun _ => ?_⟩ Iff.rfl)
    · rw [List.forall_mem_append]
      refine and_iff_left fun c hc => ?_
      rw [List.eq_of_mem_replicate hc]
      exact isDigit_zeroChar
    · exact List.append_ne_nil_of_left_ne_nil hempty _
  · obtain rfl : fractionSize = cryptonoteDisplayDecimalPoint := Nat.le_antisymm h (Nat.not_lt.mp hless)
    rw [getXtypeFromString_eq_some_iff, Nat.sub_self, Nat.pow_zero, Nat.mul_one]

/-- What the loop leaves of a fraction: only zeros go, and none from the places that count. -/
theorem trimFraction_eq (start fraction : Bytes) :
    ∃ kept zeros, fraction = kept ++ List.replicate zeros zeroChar ∧
      trimFraction fraction.length (start ++ fraction) = (kept.length, start ++ kept) ∧
      (0 < zeros → cryptonoteDisplayDecimalPoint ≤ kept.length) ∧
      (cryptonoteDisplayDecimalPoint < kept.length → kept.getLast? ≠ some zeroChar) := by
  induction fraction using List.reverseRecOn with
  | nil => exact ⟨[], 0, rfl, rfl, fun h => absurd h (Nat.lt_irrefl 0), fun h => by cases h⟩
  | append_singleton fraction c ih =>
    have hlast : (start ++ (fraction ++ [c])).getLast? = some c := by
      rw [← List.append_assoc, List.getLast?_concat]
    rw [List.length_append, List.length_singleton, trimFraction, hlast]
    by_cases herase : cryptonoteDisplayDecimalPoint < fraction.length + 1 ∧ some c = some zeroChar
    · obtain ⟨hlong, hc⟩ := herase
      obtain rfl := Option.some.inj hc
      obtain ⟨kept, zeros, hsplit, htrim, hplaces, hend⟩ := ih
      rw [if_pos ⟨hlong, rfl⟩, ← List.append_assoc, List.dropLast_concat, htrim]
      refine ⟨kept, zeros + 1, ?_, rfl, fun _ => ?_, hend⟩
      · rw [List.replicate_succ', ← List.append_assoc, ← hsplit]
      · rcases Nat.eq_zero_or_pos zeros with rfl | hpos
        · rw [List.replicate_zero, List.append_nil] at hsplit
          rw [← hsplit]
          exact Nat.le_of_lt_succ hlong
        · exact hplaces hpos
    · rw [if_neg herase]
      refine ⟨fraction ++ [c], 0, (List.append_nil _).symm, ?_, fun h => absurd h (Nat.lt_irrefl 0),
        fun hlong hzero => herase ⟨?_, ?_⟩⟩
      · rw [List.length_append, List.length_singleton]
      · rwa [List.length_append, List.length_singleton] at hlong
      · rwa [List.getLast?_concat] at hzero

theorem findIdx?_point {whole : Bytes} (hwhole : pointChar ∉ whole) (fraction : Bytes) :
    (whole ++ pointChar :: fraction).findIdx? (· == pointChar) = some whole.length := by
  induction whole with
  | nil => rfl
  | cons c whole ih =>
    rw [List.cons_append, List.findIdx?_cons, ih (List.not_mem_of_not_mem_cons hwhole), if_neg]
    · rfl
    · exact fun h => List.ne_of_not_mem_cons hwhole (beq_iff_eq.mp h).symm

theorem parseTrimmed_point {whole : Bytes} (hwhole : pointChar ∉ whole) (fraction : Bytes)
    {amount : UInt64} :
    parseTrimmed (whole ++ pointChar :: fraction) = some amount ↔
      (∀ c ∈ whole ++ fraction, isDigit c = true) ∧ whole ++ fraction ≠ [] ∧
        (∀ c ∈ fraction.drop cryptonoteDisplayDecimalPoint, c = zeroChar) ∧
        amount.toNat * 10 ^ fraction.length =
          decimal (whole ++ fraction) * 10 ^ cryptonoteDisplayDecimalPoint := by
  obtain ⟨kept, zeros, hsplit, htrim, hplaces, hend⟩ := trimFraction_eq (whole ++ [pointChar]) fraction
  rw [List.append_assoc, List.append_assoc, List.singleton_append, List.singleton_append] at htrim
  have hsize : (whole ++ pointChar :: fraction).length - whole.length - 1 = fraction.length := by
    rw [List.length_append, List.length_cons]
    omega
  have herase : (whole ++ pointChar :: kept).eraseIdx whole.length = whole ++ kept := by
    rw [List.eraseIdx_append_of_length_le (Nat.le_refl _), Nat.sub_self, List.eraseIdx_cons_zero]
  rw [parseTrimmed, findIdx?_point hwhole]
  dsimp only
  rw [hsize, htrim, herase]
  by_cases hlong : cryptonoteDisplayDecimalPoint < kept.length
  · rw [if_pos hlong]
    constructor
    · intro h
      cases h
    · rintro ⟨-, -, hzeros, -⟩
      -- the last digit that is kept is beyond the last place
      rcases List.eq_nil_or_concat kept with rfl | ⟨start, c, rfl⟩
      · cases hlong
      rw [List.concat_eq_append] at hsplit hlong hend
      have hplace : cryptonoteDisplayDecimalPoint ≤ start.length := by
        rw [List.length_append, List.length_singleton] at hlong
        exact Nat.le_of_lt_succ hlong
      have hc : c ∈ fraction.drop cryptonoteDisplayDecimalPoint := by
        rw [hsplit, List.append_assoc, List.drop_append_of_le_length hplace]
        exact List.mem_append_right _ (List.mem_append_left _ (List.mem_singleton_self c))
      refine absurd ?_ (hend hlong)
      rw [List.getLast?_concat, hzeros c hc]
  · rw [if_neg hlong, parseDigits_eq_some_iff (Nat.not_lt.mp hlong)]
    subst hsplit
    have hdigits : (∀ c ∈ whole ++ (kept ++ List.replicate zeros zeroChar), isDigit c = true) ↔
        ∀ c ∈ whole ++ kept, isDigit c = true := by
      rw [← List.append_assoc, List.forall_mem_append]
      refine and_iff_left fun c hc => ?_
      rw [List.eq_of_mem_replicate hc]
      exact isDigit_zeroChar
    have hempty : whole ++ (kept ++ List.replicate zeros zeroChar) ≠ [] ↔ whole ++ kept ≠ [] := by
      rcases Nat.eq_zero_or_pos zeros with rfl | hpos
      · rw [List.replicate_zero, List.append_nil]
      · have hkept : kept ≠ [] := List.ne_nil_of_length_pos
          (Nat.lt_of_lt_of_le (by decide) (hplaces hpos))
        simp [hkept]
    have hbeyond : ∀ c ∈ (kept ++ List.replicate zeros zeroChar).drop cryptonoteDisplayDecimalPoint,
        c = zeroChar := by
      intro c hc
      rw [List.drop_append, List.drop_eq_nil_of_le (Nat.not_lt.mp hlong), List.nil_append] at hc
      exact List.eq_of_mem_replicate (List.mem_of_mem_drop hc)
    have hvalue : amount.toNat * 10 ^ (kept ++ List.replicate zeros zeroChar).length =
          decimal (whole ++ (kept ++ List.replicate zeros zeroChar)) *
            10 ^ cryptonoteDisplayDecimalPoint ↔
        amount.toNat * 10 ^ kept.length =
          decimal (whole ++ kept) * 10 ^ cryptonoteDisplayDecimalPoint := by
      rw [← List.append_assoc, decimal_append_zeros, List.length_append, List.length_replicate,
        pow_add, ← Nat.mul_assoc, Nat.mul_right_comm _ (10 ^ zeros),
        Nat.mul_left_inj (pow_ne_zero zeros (by decide))]
    rw [hdigits, hempty, hvalue, and_iff_right hbeyond]

theorem findIdx?_no_point {text : Bytes} (h : pointChar ∉ text) :
    text.findIdx? (· == pointChar) = none :=
  List.findIdx?_eq_none_iff.mpr fun _ hc => beq_false_of_ne fun hpoint => h (hpoint ▸ hc)

theorem not_isDigit_pointChar : isDigit pointChar ≠ true := by decide

theorem parseTrimmed_iff {text : Bytes} {amount : UInt64} :
    parseTrimmed text = some amount ↔ IsAmount text amount := by
  constructor
  · intro h
    by_cases hpoint : pointChar ∈ text
    · obtain ⟨whole, fraction, rfl, hwhole⟩ := List.eq_append_cons_of_mem hpoint
      exact ⟨whole, fraction, .inr rfl, (parseTrimmed_point hwhole fraction).mp h⟩
    · rw [parseTrimmed, findIdx?_no_point hpoint] at h
      obtain ⟨hdigits, hne, hvalue⟩ := (parseDigits_eq_some_iff (Nat.zero_le _)).mp h
      refine ⟨text, [], .inl ⟨rfl, rfl⟩, ?_⟩
      rw [List.append_nil]
      exact ⟨hdigits, hne, List.forall_mem_nil _, hvalue⟩
  · rintro ⟨whole, fraction, htext, hamount⟩
    have hwhole : pointChar ∉ whole := fun hmem =>
      not_isDigit_pointChar (hamount.1 pointChar (List.mem_append_left _ hmem))
    rcases htext with ⟨rfl, rfl⟩ | rfl
    · rw [List.append_nil] at hamount
      rw [parseTrimmed, findIdx?_no_point hwhole]
      exact (parseDigits_eq_some_iff (Nat.zero_le _)).mpr ⟨hamount.1, hamount.2.1, hamount.2.2.2⟩
    · exact (parseTrimmed_point hwhole fraction).mpr hamount

theorem isAmount_printMoney (amount : UInt64) : IsAmount (printMoney amount) amount := by
  rw [printMoney, printMoneyWith]
  generalize hs : List.replicate (cryptonoteDisplayDecimalPoint + 1 - (printDecimal amount.toNat).length)
    zeroChar ++ printDecimal amount.toNat = s
  have hdigits : ∀ c ∈ s, isDigit c = true := by
    rw [← hs, List.forall_mem_append]
    refine ⟨fun c hc => ?_, printDecimal_digits _⟩
    rw [List.eq_of_mem_replicate hc]
    exact isDigit_zeroChar
  have hlength : cryptonoteDisplayDecimalPoint + 1 ≤ s.length := by
    rw [← hs, List.length_append, List.length_replicate]
    omega
  have hvalue : decimal s = amount.toNat := by
    rw [← hs, decimal_zeros_append, decimal_printDecimal]
  have hfraction : (s.drop (s.length - cryptonoteDisplayDecimalPoint)).length =
      cryptonoteDisplayDecimalPoint := by
    rw [List.length_drop]
    omega
  refine ⟨_, _, .inr rfl, ?_⟩
  rw [List.take_append_drop, hvalue, hfraction]
  refine ⟨hdigits, List.ne_nil_of_length_pos (by omega), fun c hc => ?_, rfl⟩
  rw [List.drop_eq_nil_of_le (Nat.le_of_eq hfraction)] at hc
  cases hc

theorem not_isSpace_of_isDigit : ∀ n < 256, isDigit (UInt8.ofNat n) = true →
    isSpace (UInt8.ofNat n) = false := by
  decide +kernel

theorem trim_of_isAmount {text : Bytes} {amount : UInt64} (h : IsAmount text amount) :
    trim text = text := by
  have hspace : ∀ c ∈ text, isSpace c = false := by
    obtain ⟨whole, fraction, htext, hdigits, -⟩ := h
    have hdigit : ∀ c ∈ whole ++ fraction, isSpace c = false := by
      intro c hc
      have := not_isSpace_of_isDigit c.toNat c.toNat_lt
      rw [UInt8.ofNat_toNat] at this
      exact this (hdigits c hc)
    obtain ⟨hwhole, hfraction⟩ := List.forall_mem_append.mp hdigit
    rcases htext with ⟨rfl, rfl⟩ | rfl
    · exact hwhole
    · rw [List.forall_mem_append, List.forall_mem_cons]
      exact ⟨hwhole, by decide, hfraction⟩
  have hright : text.rdropWhile isSpace = text :=
    List.rdropWhile_eq_self_iff.mpr fun hne hlast => by
      rw [hspace _ (List.getLast_mem hne)] at hlast
      cases hlast
  rw [trim, hright]
  cases text with
  | nil => rfl
  | cons c text => rw [List.dropWhile_cons_of_neg (by rw [hspace c List.mem_cons_self]; decide)]

/-- The texts that the parser accepts are those of amounts, and it returns their value.  A
printed amount is read back. -/
theorem parseAmount_iff_isAmount :
    (∀ (text : Bytes) (amount : UInt64),
      parseAmount text = some amount ↔ IsAmount (trim text) amount) ∧
      ∀ amount, parseAmount (printMoney amount) = some amount := by
  refine ⟨fun text amount => parseTrimmed_iff, fun amount => ?_⟩
  have hprinted := isAmount_printMoney amount
  rw [parseAmount, trim_of_isAmount hprinted]
  exact parseTrimmed_iff.mpr hprinted

end Pebblecoin
