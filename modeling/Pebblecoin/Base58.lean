import Mathlib.Data.Nat.Digits.Lemmas
import Pebblecoin.BlockReward
import Pebblecoin.Wire.Blocks

/-!
The base 58 code of byte strings.  Eight bytes are written as eleven letters, and what is left
at the end by as many letters as its length needs.
-/

namespace Pebblecoin

open Wire

namespace Base58

variable {letters : List UInt8} {ds : List Nat} {enc data block : Bytes} {size : Nat}

def alphabet : Bytes :=
  "123456789ABCDEFGHJKLMNPQRSTUVWXYZabcdefghijkmnopqrstuvwxyz".toList.map fun c => c.toNat.toUInt8

def alphabetSize : Nat := 58

def encodedBlockSizes : List Nat := [0, 2, 3, 5, 6, 7, 9, 10, 11]

def fullBlockSize : Nat := 8

def fullEncodedBlockSize : Nat := 11

def letter (digit : Nat) : UInt8 := alphabet.getD digit 0

/-- The table of the digits that letters stand for, from the first letter on. -/
def reverseAlphabetData : List Int :=
  (List.range alphabetSize).foldl
    (fun data i => data.set ((letter i).toNat - (letter 0).toNat) i)
    (List.replicate ((letter (alphabetSize - 1)).toNat - (letter 0).toNat + 1) (-1))

/-- Characters have a sign, and a letter before the first one is beyond the table. -/
def reverseAlphabet (c : UInt8) : Int :=
  let idx := c.toInt8.toInt - (letter 0).toInt8.toInt
  if 0 ≤ idx then reverseAlphabetData.getD idx.toNat (-1) else -1

def decodedBlockSizesData : List Int :=
  (List.range (fullBlockSize + 1)).foldl (fun data i => data.set (encodedBlockSizes.getD i 0) i)
    (List.replicate (fullEncodedBlockSize + 1) (-1))

def decodedBlockSizes (encodedBlockSize : Nat) : Int := decodedBlockSizesData.getD encodedBlockSize (-1)

def uint8beTo64 (data : Bytes) : UInt64 :=
  data.foldl (fun res b => (res <<< 8) ||| b.toUInt64) 0

/-- The last bytes of the number written with the highest byte first. -/
def uint64To8be (num : UInt64) (size : Nat) : Bytes :=
  (Codec.encodeLE 8 num.toNat).reverse.drop (8 - size)

/-- The letters are written from the end of the block, here of what is left of it.  There is
no place for a further one at its start. -/
def encodeLoop : (i : Nat) → (num : UInt64) → (res : Bytes) → Option Bytes
  | 0, num, res => if 0 < num then none else some res
  | i + 1, num, res =>
    if 0 < num then encodeLoop i (num / 58) (res.set i (letter (num % 58).toNat)) else some res

def encodeBlock (block : Bytes) : Option Bytes :=
  let size := encodedBlockSizes.getD block.length 0
  encodeLoop size (uint8beTo64 block) (List.replicate size (letter 0))

/-- The number that the letters stand for, the last one first. -/
def decodeLoop : (letters : List UInt8) → (resNum order : UInt64) → Option UInt64
  | [], resNum, _ => some resNum
  | c :: letters, resNum, order =>
    let digit := reverseAlphabet c
    if digit < 0 then none
    else
      let product := mul128 order (UInt64.ofNat digit.toNat)
      let tmp := resNum + product.2
      if tmp < resNum ∨ product.1 ≠ 0 then none
      else decodeLoop letters tmp (order * 58)

def decodeBlock (block : Bytes) : Option Bytes :=
  let resSize := decodedBlockSizes block.length
  if resSize ≤ 0 then none
  else (decodeLoop block.reverse 0 1).bind fun resNum =>
    if resSize.toNat < fullBlockSize ∧ (1 : UInt64) <<< (8 * UInt64.ofNat resSize.toNat) ≤ resNum then none
    else some (uint64To8be resNum resSize.toNat)

def encode (data : Bytes) : Option Bytes :=
  if data.isEmpty then some [] else blockwise fullBlockSize encodeBlock data

def decode (enc : Bytes) : Option Bytes :=
  if enc.isEmpty then some []
  else if decodedBlockSizes (enc.length % fullEncodedBlockSize) < 0 then none
  else blockwise fullEncodedBlockSize decodeBlock enc

theorem reverseAlphabet_letter : ∀ i < alphabetSize, reverseAlphabet (letter i) = i := by
  decide +kernel

theorem letter_reverseAlphabet_ofNat : ∀ n < 256, 0 ≤ reverseAlphabet (UInt8.ofNat n) →
    (reverseAlphabet (UInt8.ofNat n)).toNat < alphabetSize ∧
      letter (reverseAlphabet (UInt8.ofNat n)).toNat = UInt8.ofNat n := by
  decide +kernel

theorem letter_reverseAlphabet {c : UInt8} (h : 0 ≤ reverseAlphabet c) :
    (reverseAlphabet c).toNat < alphabetSize ∧ letter (reverseAlphabet c).toNat = c := by
  have hspec := letter_reverseAlphabet_ofNat c.toNat c.toNat_lt
  rw [UInt8.ofNat_toNat] at hspec
  exact hspec h

/-- The letters of a number, with the lowest digit first. -/
structure Spells (letters : List UInt8) (ds : List Nat) : Prop where
  eq_map : letters = ds.map letter
  lt : ∀ d ∈ ds, d < 58

theorem Spells.cons {d : Nat} (h : Spells letters ds) (hd : d < 58) :
    Spells (letter d :: letters) (d :: ds) :=
  ⟨by rw [h.eq_map, List.map_cons], List.forall_mem_cons.mpr ⟨hd, h.lt⟩⟩

theorem Spells.zeros (n : Nat) : Spells (List.replicate n (letter 0)) (List.replicate n 0) :=
  ⟨List.map_replicate.symm, fun d hd => by rw [List.eq_of_mem_replicate hd]; decide⟩

theorem Spells.length (h : Spells letters ds) : letters.length = ds.length := by
  rw [h.eq_map, List.length_map]

theorem Spells.eq_of_value {letters' : List UInt8} {ds' : List Nat} (h : Spells letters ds)
    (h' : Spells letters' ds') (hlength : letters.length = letters'.length)
    (hvalue : Nat.ofDigits 58 ds = Nat.ofDigits 58 ds') : letters = letters' := by
  rw [h.length, h'.length] at hlength
  rw [h.eq_map, h'.eq_map, Nat.ofDigits_inj_of_len_eq (by decide) hlength h.lt h'.lt hvalue]

theorem encodeLoop_spells {i : Nat} {num : UInt64} {res : Bytes}
    (hres : res.take i = List.replicate i (letter 0)) (hnum : num.toNat < 58 ^ i) :
    ∃ letters ds, Spells letters ds ∧ ds.length = i ∧ Nat.ofDigits 58 ds = num.toNat ∧
      encodeLoop i num res = some (letters.reverse ++ res.drop i) := by
  induction i generalizing num res with
  | zero =>
    have hzero : num.toNat = 0 := Nat.lt_one_iff.mp hnum
    refine ⟨[], [], Spells.zeros 0, rfl, hzero.symm, ?_⟩
    rw [encodeLoop, if_neg]
    · rfl
    · rw [UInt64.lt_iff_toNat_lt, hzero]
      exact Nat.lt_irrefl 0
  | succ i ih =>
    have hlength : i + 1 ≤ res.length := by
      have := congrArg List.length hres
      rw [List.length_take, List.length_replicate] at this
      omega
    by_cases hpos : 0 < num
    · have hdiv : (num / 58).toNat = num.toNat / 58 := UInt64.toNat_div _ _
      have hmod : (num % 58).toNat = num.toNat % 58 := UInt64.toNat_mod _ _
      have htake : (res.set i (letter (num % 58).toNat)).take i = List.replicate i (letter 0) := by
        rw [List.take_set_of_le (Nat.le_refl i)]
        have := congrArg (List.take i) hres
        rwa [List.take_take, List.take_replicate, Nat.min_eq_left (Nat.le_succ i)] at this
      have hless : (num / 58).toNat < 58 ^ i := by
        rw [hdiv, Nat.div_lt_iff_lt_mul (by decide), ← Nat.pow_succ]
        exact hnum
      obtain ⟨letters, ds, hspells, hlen, hvalue, heq⟩ := ih htake hless
      have hdrop : (res.set i (letter (num % 58).toNat)).drop i =
          letter (num % 58).toNat :: res.drop (i + 1) := by
        rw [List.drop_eq_getElem_cons (by rw [List.length_set]; omega), List.getElem_set_self,
          List.drop_set_of_lt (Nat.lt_succ_self i)]
      refine ⟨_, _, hspells.cons (hmod ▸ Nat.mod_lt _ (by decide)), by rw [List.length_cons, hlen],
        ?_, ?_⟩
      · rw [Nat.ofDigits_cons, hvalue, hmod, hdiv]
        exact Nat.mod_add_div _ _
      · rw [encodeLoop, if_pos hpos, heq, hdrop, List.reverse_cons, List.append_assoc,
          List.singleton_append]
    · have hzero : num.toNat = 0 := by
        rw [UInt64.lt_iff_toNat_lt] at hpos
        exact Nat.eq_zero_of_not_pos hpos
      refine ⟨_, _, Spells.zeros (i + 1), List.length_replicate, ?_, ?_⟩
      · rw [Nat.ofDigits_replicate_zero, hzero]
      · rw [encodeLoop, if_neg hpos, List.reverse_replicate, ← hres, List.take_append_drop]

theorem exists_spells_of_decodeLoop {resNum order num : UInt64}
    (h : decodeLoop letters resNum order = some num) : ∃ ds, Spells letters ds := by
  induction letters generalizing resNum order with
  | nil => exact ⟨[], Spells.zeros 0⟩
  | cons c letters ih =>
    rw [decodeLoop] at h
    dsimp only at h
    split_ifs at h with hdigit hfits
    obtain ⟨ds, hspells⟩ := ih h
    obtain ⟨hlt, hletter⟩ := letter_reverseAlphabet (Int.not_lt.mp hdigit)
    have hcons := hspells.cons hlt
    rw [hletter] at hcons
    exact ⟨_, hcons⟩

theorem decodeLoop_step (resNum order : UInt64) (d : Nat) (hd : d < 58) :
    (resNum + (mul128 order (UInt64.ofNat d)).2 < resNum ∨ (mul128 order (UInt64.ofNat d)).1 ≠ 0 ↔
        2 ^ 64 ≤ resNum.toNat + order.toNat * d) ∧
      (resNum.toNat + order.toNat * d < 2 ^ 64 →
        (resNum + (mul128 order (UInt64.ofNat d)).2).toNat = resNum.toNat + order.toNat * d) := by
  have hproduct := mul128_eq order (UInt64.ofNat d)
  rw [toNat_ofNat_of_lt (by omega)] at hproduct
  have hlo := (mul128 order (UInt64.ofNat d)).2.toNat_lt
  have hzero : (mul128 order (UInt64.ofNat d)).1 ≠ 0 ↔ (mul128 order (UInt64.ofNat d)).1.toNat ≠ 0 :=
    not_congr UInt64.toNat_inj.symm
  rw [add_lt_left_iff, hzero, UInt64.toNat_add]
  constructor
  · omega
  · intro hfits
    rw [Nat.mod_eq_of_lt (by omega)]
    omega

theorem decodeLoop_eq (hspells : Spells letters ds) {resNum order : UInt64} {k : Nat}
    (hk : k + ds.length ≤ 11) (horder : ds ≠ [] → order.toNat = 58 ^ k) :
    decodeLoop letters resNum order =
      if resNum.toNat + 58 ^ k * Nat.ofDigits 58 ds < 2 ^ 64 then
        some (UInt64.ofNat (resNum.toNat + 58 ^ k * Nat.ofDigits 58 ds))
      else none := by
  obtain ⟨rfl, hlt⟩ := hspells
  induction ds generalizing resNum order k with
  | nil =>
    have := resNum.toNat_lt
    rw [Nat.ofDigits_nil, Nat.mul_zero, Nat.add_zero, if_pos this, UInt64.ofNat_toNat]
    rfl
  | cons d ds ih =>
    obtain ⟨hd, hlt⟩ := List.forall_mem_cons.mp hlt
    have hdigit : reverseAlphabet (letter d) = d := reverseAlphabet_letter d hd
    obtain ⟨hstep, hsum⟩ := decodeLoop_step resNum order d hd
    rw [horder (List.cons_ne_nil _ _)] at hstep hsum
    have hvalue : 58 ^ k * Nat.ofDigits 58 (d :: ds) =
        58 ^ k * d + 58 ^ (k + 1) * Nat.ofDigits 58 ds := by
      rw [Nat.ofDigits_cons]
      ring
    rw [List.length_cons] at hk
    rw [List.map_cons, decodeLoop, hdigit, hvalue]
    dsimp only
    rw [if_neg (by omega), Int.toNat_natCast]
    by_cases hfits : resNum.toNat + 58 ^ k * d < 2 ^ 64
    · have hnext : ds ≠ [] → (order * 58).toNat = 58 ^ (k + 1) := by
        intro hne
        have hpos := List.length_pos_of_ne_nil hne
        have hsmall : 58 ^ (k + 1) ≤ 58 ^ 10 := Nat.pow_le_pow_right (by decide) (by omega)
        rw [UInt64.toNat_mul, horder (List.cons_ne_nil _ _), Nat.mod_eq_of_lt]
        · rfl
        · exact Nat.lt_of_le_of_lt hsmall (by decide)
      have hk : k + 1 + ds.length ≤ 11 := by omega
      rw [if_neg (mt hstep.mp (Nat.not_le.mpr hfits)), ih hk hnext hlt, hsum hfits, Nat.add_assoc]
    · rw [if_pos (hstep.mpr (Nat.not_lt.mp hfits)), if_neg (by omega)]

theorem toNat_shiftLeft_or_byte {a : UInt64} (b : UInt8) (ha : a.toNat < 2 ^ 56) :
    ((a <<< 8) ||| b.toUInt64).toNat = b.toNat + 256 * a.toNat := by
  have hb := b.toNat_lt
  have hshift : (a <<< 8).toNat = a.toNat <<< 8 := by
    rw [UInt64.toNat_shiftLeft]
    change (a.toNat <<< 8) % 2 ^ 64 = _
    rw [Nat.shiftLeft_eq, Nat.mod_eq_of_lt (by omega)]
  rw [UInt64.toNat_or, hshift, UInt8.toNat_toUInt64, ← Nat.shiftLeft_add_eq_or_of_lt hb,
    Nat.shiftLeft_eq]
  omega

theorem toNat_uint8beTo64 (h : data.length ≤ 8) :
    (uint8beTo64 data).toNat = Codec.decodeLE data.reverse := by
  induction data using List.reverseRecOn with
  | nil => rfl
  | append_singleton data b ih =>
    rw [List.length_append, List.length_singleton] at h
    have hvalue := ih (by omega)
    have hlt := Codec.decodeLE_lt data.reverse
    rw [List.length_reverse] at hlt
    have hsmall : 256 ^ data.length ≤ 256 ^ 7 := Nat.pow_le_pow_right (by decide) (by omega)
    have hless : (uint8beTo64 data).toNat < 2 ^ 56 := by
      rw [hvalue]
      omega
    rw [uint8beTo64, List.foldl_append, List.foldl_cons, List.foldl_nil, ← uint8beTo64,
      toNat_shiftLeft_or_byte b hless, hvalue, List.reverse_append, List.reverse_singleton,
      List.singleton_append, Codec.decodeLE]

theorem take_encodeLE {k width : Nat} (h : k ≤ width) (n : Nat) :
    (Codec.encodeLE width n).take k = Codec.encodeLE k n := by
  induction width generalizing k n with
  | zero =>
    obtain rfl := Nat.le_zero.mp h
    rfl
  | succ width ih =>
    cases k with
    | zero => rfl
    | succ k =>
      rw [Codec.encodeLE, List.take_succ_cons, ih (Nat.le_of_succ_le_succ h), Codec.encodeLE]

theorem uint64To8be_eq (num : UInt64) (h : size ≤ 8) :
    uint64To8be num size = (Codec.encodeLE size num.toNat).reverse := by
  rw [uint64To8be, ← take_encodeLE h, List.reverse_take, Codec.encodeLE_length]

/-- Blocks of this many bytes have this many letters, which are enough for them. -/
structure BlockSizes (size letters : Nat) : Prop where
  pos : 0 < size
  le : size ≤ fullBlockSize
  encoded : encodedBlockSizes.getD size 0 = letters
  decoded : decodedBlockSizes letters = size
  letters_pos : 0 < letters
  letters_le : letters ≤ fullEncodedBlockSize
  full_iff : size = fullBlockSize ↔ letters = fullEncodedBlockSize
  pow_le : 256 ^ size ≤ 58 ^ letters

theorem blockSizes_of_le (hpos : 0 < size) (hle : size ≤ fullBlockSize) :
    BlockSizes size (encodedBlockSizes.getD size 0) := by
  rw [fullBlockSize] at hle
  interval_cases size <;>
    exact ⟨by decide, by decide, rfl, by decide, by decide, by decide, by decide, by decide⟩

theorem blockSizes_of_decoded {letters : Nat} (h : 0 < decodedBlockSizes letters) :
    BlockSizes (decodedBlockSizes letters).toNat letters := by
  by_cases hle : letters ≤ 11
  · have hsizes : ∀ n ≤ 11, 0 < decodedBlockSizes n → 0 < (decodedBlockSizes n).toNat ∧
        (decodedBlockSizes n).toNat ≤ fullBlockSize ∧
        encodedBlockSizes.getD (decodedBlockSizes n).toNat 0 = n := by
      decide
    obtain ⟨hpos, hfull, hencoded⟩ := hsizes letters hle h
    have := blockSizes_of_le hpos hfull
    rwa [hencoded] at this
  · have hbeyond : decodedBlockSizesData.length ≤ letters := Nat.succ_le_of_lt (Nat.not_le.mp hle)
    rw [decodedBlockSizes, List.getD_eq_getElem?_getD, List.getElem?_eq_none hbeyond] at h
    cases h

theorem encodeBlock_spells {n : Nat} (hsizes : BlockSizes block.length n) :
    ∃ letters ds, Spells letters ds ∧ letters.length = n ∧
      Nat.ofDigits 58 ds = Codec.decodeLE block.reverse ∧
      encodeBlock block = some letters.reverse := by
  have hnum := toNat_uint8beTo64 hsizes.le
  have hlt := Codec.decodeLE_lt block.reverse
  rw [List.length_reverse] at hlt
  have hzeros : (List.replicate n (letter 0)).take n = List.replicate n (letter 0) := by
    rw [List.take_replicate, Nat.min_self]
  obtain ⟨letters, ds, hspells, hlength, hvalue, heq⟩ :=
    encodeLoop_spells hzeros (hnum ▸ hlt.trans_le hsizes.pow_le)
  refine ⟨letters, ds, hspells, hspells.length.trans hlength, hvalue.trans hnum, ?_⟩
  rw [encodeBlock, hsizes.encoded, heq, List.drop_replicate, Nat.sub_self, List.replicate_zero, List.append_nil]

theorem toNat_byteLimit : ∀ size < fullBlockSize,
    ((1 : UInt64) <<< (8 * UInt64.ofNat size)).toNat = 256 ^ size := by
  decide

theorem decodeBlock_eq (hsizes : BlockSizes size block.length) (hspells : Spells block.reverse ds) :
    decodeBlock block =
      if Nat.ofDigits 58 ds < 256 ^ size then
        some (Codec.encodeLE size (Nat.ofDigits 58 ds)).reverse
      else none := by
  have hlength := hspells.length
  rw [List.length_reverse] at hlength
  have hk : 0 + ds.length ≤ 11 := by
    rw [Nat.zero_add, ← hlength]
    exact hsizes.letters_le
  have hpos := hsizes.pos
  have hloop : decodeLoop block.reverse 0 1 = _ := decodeLoop_eq hspells hk fun _ => rfl
  rw [UInt64.toNat_zero, Nat.zero_add, Nat.pow_zero, Nat.one_mul] at hloop
  rw [decodeBlock, hsizes.decoded, hloop]
  rw [if_neg (by omega), Int.toNat_natCast]
  by_cases hword : Nat.ofDigits 58 ds < 2 ^ 64
  · have hnum := toNat_ofNat_of_lt hword
    rw [if_pos hword, Option.bind_some, uint64To8be_eq _ hsizes.le, hnum]
    by_cases hfull : size < fullBlockSize
    · have hlimit : (1 : UInt64) <<< (8 * UInt64.ofNat size) ≤ UInt64.ofNat (Nat.ofDigits 58 ds) ↔
          256 ^ size ≤ Nat.ofDigits 58 ds := by
        rw [UInt64.le_iff_toNat_le, toNat_byteLimit size hfull, hnum]
      by_cases hfits : Nat.ofDigits 58 ds < 256 ^ size
      · rw [if_pos hfits, if_neg fun h => Nat.not_le.mpr hfits (hlimit.mp h.2)]
      · rw [if_neg hfits, if_pos ⟨hfull, hlimit.mpr (Nat.not_lt.mp hfits)⟩]
    · obtain rfl : size = 8 := Nat.le_antisymm hsizes.le (Nat.not_lt.mp hfull)
      have hfits : Nat.ofDigits 58 ds < 256 ^ 8 := hword
      rw [if_neg fun h => hfull h.1, if_pos hfits]
  · have hlarge : ¬ Nat.ofDigits 58 ds < 256 ^ size := by
      have : 256 ^ size ≤ 256 ^ 8 := Nat.pow_le_pow_right (by decide) hsizes.le
      omega
    rw [if_neg hword, if_neg hlarge, Option.bind_none]

theorem decodeBlock_encodeBlock {n : Nat} (hsizes : BlockSizes block.length n)
    (h : encodeBlock block = some enc) : decodeBlock enc = some block ∧ enc.length = n := by
  obtain ⟨letters, ds, hspells, hlength, hvalue, heq⟩ := encodeBlock_spells hsizes
  obtain rfl := Option.some.inj (heq.symm.trans h)
  have hn : letters.reverse.length = n := by rw [List.length_reverse, hlength]
  have hlt := Codec.decodeLE_lt block.reverse
  rw [List.length_reverse] at hlt
  have hback := Codec.encodeLE_decodeLE block.reverse
  rw [List.length_reverse] at hback
  refine ⟨?_, hn⟩
  rw [decodeBlock_eq (hn ▸ hsizes) (by rwa [List.reverse_reverse]), hvalue, if_pos hlt, hback,
    List.reverse_reverse]

theorem encodeBlock_decodeBlock (h : decodeBlock enc = some block) :
    encodeBlock block = some enc ∧ BlockSizes block.length enc.length := by
  have hsize : 0 < decodedBlockSizes enc.length := by
    by_contra hnot
    rw [decodeBlock, if_pos (Int.not_lt.mp hnot)] at h
    cases h
  have hsizes := blockSizes_of_decoded hsize
  obtain ⟨ds, hspells⟩ : ∃ ds, Spells enc.reverse ds := by
    rw [decodeBlock, if_neg (Int.not_le.mpr hsize)] at h
    obtain ⟨num, hnum, -⟩ := Option.bind_eq_some_iff.mp h
    exact exists_spells_of_decodeLoop hnum
  rw [decodeBlock_eq hsizes hspells] at h
  split_ifs at h with hfits
  obtain rfl := Option.some.inj h
  have hlength : (Codec.encodeLE (decodedBlockSizes enc.length).toNat
      (Nat.ofDigits 58 ds)).reverse.length = (decodedBlockSizes enc.length).toNat := by
    rw [List.length_reverse, Codec.encodeLE_length]
  rw [hlength]
  refine ⟨?_, hsizes⟩
  obtain ⟨letters, ds', hspells', hlen, hvalue, heq⟩ := encodeBlock_spells (hlength.symm ▸ hsizes)
  rw [List.reverse_reverse, Codec.decodeLE_encodeLE hfits] at hvalue
  rw [heq, hspells'.eq_of_value hspells (by rw [hlen, List.length_reverse]) hvalue,
    List.reverse_reverse]

theorem encode_eq (data : Bytes) : encode data = blockwise fullBlockSize encodeBlock data := by
  rw [encode]
  split_ifs with hempty
  · rw [List.isEmpty_iff.mp hempty]
    rfl
  · rfl

theorem decode_eq (enc : Bytes) : decode enc = blockwise fullEncodedBlockSize decodeBlock enc := by
  rw [decode]
  split_ifs with hempty hlast
  · rw [List.isEmpty_iff.mp hempty]
    rfl
  · have hlength := @length_lastBlock _ fullEncodedBlockSize enc
    have hnone : translateEnd decodeBlock (lastBlock fullEncodedBlockSize enc) = none := by
      rw [translateEnd, if_neg, decodeBlock, hlength, if_pos (Int.le_of_lt hlast)]
      intro hnil
      rw [List.isEmpty_iff.mp hnil] at hlength
      rw [← hlength] at hlast
      exact absurd hlast (by decide)
    rw [blockwise, hnone]
    cases (fullBlocks fullEncodedBlockSize enc).mapM decodeBlock <;> rfl
  · rfl

theorem exists_encode (data : Bytes) : ∃ enc, encode data = some enc := by
  have hblock : ∀ block : Bytes, 0 < block.length → block.length ≤ fullBlockSize →
      ∃ letters, encodeBlock block = some letters := by
    intro block hpos hle
    obtain ⟨letters, -, -, -, -, heq⟩ := encodeBlock_spells (blockSizes_of_le hpos hle)
    exact ⟨_, heq⟩
  rw [encode_eq]
  refine exists_blockwise (by decide) (fun block hlength => ?_) (fun block hlength hne => ?_) data
  · exact hblock block (hlength ▸ (by decide)) (Nat.le_of_eq hlength)
  · exact hblock block (List.length_pos_of_ne_nil hne) (Nat.le_of_lt hlength)

theorem decode_of_encode (h : encode data = some enc) : decode enc = some data := by
  rw [encode_eq] at h
  rw [decode_eq]
  refine blockwise_inverse (by decide) (fun block letters hlength henc => ?_)
    (fun block letters hlength hne henc => ?_) (by decide) h
  · have hsizes := blockSizes_of_le (hlength ▸ (by decide)) (Nat.le_of_eq hlength)
    obtain ⟨hdec, hletters⟩ := decodeBlock_encodeBlock hsizes henc
    exact ⟨hdec, hletters.trans (hsizes.full_iff.mp hlength)⟩
  · have hsizes := blockSizes_of_le (List.length_pos_of_ne_nil hne) (Nat.le_of_lt hlength)
    obtain ⟨hdec, hletters⟩ := decodeBlock_encodeBlock hsizes henc
    rw [← hletters] at hsizes
    refine ⟨hdec, ?_, List.ne_nil_of_length_pos hsizes.letters_pos⟩
    exact Nat.lt_of_le_of_ne hsizes.letters_le fun hfull =>
      Nat.ne_of_lt hlength (hsizes.full_iff.mpr hfull)

theorem encode_of_decode (h : decode enc = some data) : encode data = some enc := by
  rw [decode_eq] at h
  rw [encode_eq]
  refine blockwise_inverse (by decide) (fun letters block hlength hdec => ?_)
    (fun letters block hlength _ hdec => ?_) (by decide) h
  · obtain ⟨henc, hsizes⟩ := encodeBlock_decodeBlock hdec
    exact ⟨henc, hsizes.full_iff.mpr hlength⟩
  · obtain ⟨henc, hsizes⟩ := encodeBlock_decodeBlock hdec
    refine ⟨henc, ?_, List.ne_nil_of_length_pos hsizes.pos⟩
    exact Nat.lt_of_le_of_ne hsizes.le fun hfull =>
      Nat.ne_of_lt hlength (hsizes.full_iff.mp hfull)

/-- Every byte string is encoded within its block sizes.  Encoding and decoding undo each
other, so that no other string is accepted for it. -/
theorem base58_roundTrip :
    (∀ data, ∃ enc, encode data = some enc ∧ decode enc = some data) ∧
      ∀ enc data, decode enc = some data → encode data = some enc := by
  refine ⟨fun data => ?_, fun enc data => encode_of_decode⟩
  obtain ⟨enc, henc⟩ := exists_encode data
  exact ⟨enc, henc, decode_of_encode henc⟩

end Base58

end Pebblecoin
