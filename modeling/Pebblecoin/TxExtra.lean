import Pebblecoin.Basic

/-!
The fields that the extra bytes of a transaction hold.
-/

namespace Pebblecoin

open Wire

variable {fuel size : Nat} {rest bytes input nonce : Bytes} {field : TxExtraField}

def txExtraPaddingMaxCount : Nat := 255
def txExtraNonceMaxCount : Nat := 255

def txExtraTagPadding : UInt8 := 0x00
def txExtraTagPubkey : UInt8 := 0x01
def txExtraNonceTag : UInt8 := 0x02
def txExtraMergeMiningTag : UInt8 := 0x03

def txExtraNoncePaymentId : UInt8 := 0x00

inductive TxExtraField where
  | padding (size : Nat)
  | pubKey (key : PublicKey)
  | nonce (bytes : Bytes)
  | mergeMiningTag (depth : Nat) (merkleRoot : Hash)
deriving DecidableEq

namespace TxExtraField

/-- Zeros up to the end of the input.  The tag is the first of them. -/
def readPadding : (size : Nat) → Bytes → Option TxExtraField
  | size, [] => if size ≤ txExtraPaddingMaxCount then some (.padding size) else none
  | size, zero :: rest =>
    if txExtraPaddingMaxCount < size then none
    else if zero ≠ 0 then none
    else readPadding (size + 1) rest

def readHash (input : Bytes) : Option (Hash × Bytes) :=
  if h : (input.take 32).length = 32 then some (⟨input.take 32, h⟩, input.drop 32) else none

/-- A count and as many bytes. -/
def readString (input : Bytes) : Option (Bytes × Bytes) :=
  let size := readVarint 64 input
  if size.rest.length < size.value then none
  else some (size.rest.take size.value, size.rest.drop size.value)

/-- The inner stream has to be read to its end. -/
def readMergeMiningTag (field : Bytes) : Option TxExtraField :=
  let depth := readVarint 64 field
  match readHash depth.rest with
  | some (merkleRoot, []) => some (.mergeMiningTag depth.value merkleRoot)
  | _ => none

def read : Bytes → Option (TxExtraField × Bytes)
  | [] => none
  | tag :: rest =>
    if tag = txExtraTagPadding then (readPadding 1 rest).map fun field => (field, [])
    else if tag = txExtraTagPubkey then
      (readHash rest).map fun (key, rest) => (.pubKey key, rest)
    else if tag = txExtraNonceTag then
      match readString rest with
      | none => none
      | some (bytes, rest) =>
        if txExtraNonceMaxCount < bytes.length then none else some (.nonce bytes, rest)
    else if tag = txExtraMergeMiningTag then
      match readString rest with
      | none => none
      | some (bytes, rest) => (readMergeMiningTag bytes).map fun field => (field, rest)
    else none

end TxExtraField

/-- Every field takes at least its tag, so the length of the input is fuel enough.
The fields before the first that cannot be read are kept. -/
def parseTxExtraLoop : (fuel : Nat) → Bytes → Bool × List TxExtraField
  | 0, _ => (false, [])
  | fuel + 1, input =>
    match TxExtraField.read input with
    | none => (false, [])
    | some (field, []) => (true, [field])
    | some (field, rest) =>
      let (ok, fields) := parseTxExtraLoop fuel rest
      (ok, field :: fields)

def parseTxExtra (extra : Bytes) : Bool × List TxExtraField :=
  if extra.isEmpty then (true, []) else parseTxExtraLoop extra.length extra

/-- The key of the first field that has one. -/
def findTxExtraPubKey (fields : List TxExtraField) : Option PublicKey :=
  fields.findSome? fun
    | .pubKey key => some key
    | _ => none

def findTxExtraNonce (fields : List TxExtraField) : Option Bytes :=
  fields.findSome? fun
    | .nonce bytes => some bytes
    | _ => none

def getPaymentIdFromTxExtraNonce (extraNonce : Bytes) : Option Hash :=
  if 32 + 1 ≠ extraNonce.length then none
  else if extraNonce.head? ≠ some txExtraNoncePaymentId then none
  else (TxExtraField.readHash extraNonce.tail).map Prod.fst

def addTxPubKeyToExtra (extra : Bytes) (txPubKey : PublicKey) : Bytes :=
  extra ++ txExtraTagPubkey :: txPubKey.bytes

/-- The length is written as one byte. -/
def addExtraNonceToTxExtra (extra extraNonce : Bytes) : Option Bytes :=
  if txExtraNonceMaxCount < extraNonce.length then none
  else some (extra ++ txExtraNonceTag :: UInt8.ofNat extraNonce.length :: extraNonce)

/-- The fields that were put there, and the zeros after them as one field. -/
def builtFields (key : PublicKey) (nonce : Bytes) (zeros : Nat) : List TxExtraField :=
  [.pubKey key, .nonce nonce] ++ if zeros = 0 then [] else [.padding zeros]

namespace TxExtraField

theorem readHash_append (hash : Hash) (rest : Bytes) :
    readHash (hash.bytes ++ rest) = some (hash, rest) := by
  have htake : (hash.bytes ++ rest).take 32 = hash.bytes := List.take_left' hash.size_eq
  have hdrop : (hash.bytes ++ rest).drop 32 = rest := List.drop_left' hash.size_eq
  rw [readHash, dif_pos (by rw [htake, hash.size_eq])]
  simp only [htake, hdrop]

theorem readPadding_zeros (zeros : Nat) (h : size + zeros ≤ txExtraPaddingMaxCount) :
    readPadding size (List.replicate zeros 0) = some (.padding (size + zeros)) := by
  induction zeros generalizing size with
  | zero => exact if_pos h
  | succ zeros ih =>
    rw [List.replicate_succ, readPadding, if_neg (by omega), if_neg (fun h => h rfl), ih (by omega),
      Nat.add_assoc, Nat.add_comm 1]

theorem eq_of_readPadding (h : readPadding size input = some field) :
    field = .padding (size + input.length) := by
  induction input generalizing size with
  | nil =>
    rw [readPadding] at h
    split_ifs at h
    exact (Option.some.inj h).symm
  | cons byte input ih =>
    rw [readPadding] at h
    split_ifs at h
    rw [ih h, List.length_cons, Nat.add_assoc, Nat.add_comm 1]

theorem exists_of_readMergeMiningTag (h : readMergeMiningTag bytes = some field) :
    ∃ depth merkleRoot, field = .mergeMiningTag depth merkleRoot := by
  rw [readMergeMiningTag] at h
  split at h
  · exact ⟨_, _, (Option.some.inj h).symm⟩
  · cases h

theorem length_of_read_padding (h : read input = some (.padding size, rest)) :
    input.length = size := by
  cases input with
  | nil => cases h
  | cons tag input =>
    rw [read] at h
    split_ifs at h
    · obtain ⟨field, hfield, hpair⟩ := Option.map_eq_some_iff.mp h
      have hsize := (Prod.mk.inj hpair).1.symm.trans (eq_of_readPadding hfield)
      rw [List.length_cons, TxExtraField.padding.inj hsize, Nat.add_comm]
    · obtain ⟨⟨key, rest'⟩, -, hpair⟩ := Option.map_eq_some_iff.mp h
      cases hpair
    · cases hstring : readString input with
      | none =>
        rw [hstring] at h
        cases h
      | some r =>
        rw [hstring] at h
        dsimp only at h
        split_ifs at h
        cases h
    · cases hstring : readString input with
      | none =>
        rw [hstring] at h
        cases h
      | some r =>
        rw [hstring] at h
        obtain ⟨field, hfield, hpair⟩ := Option.map_eq_some_iff.mp h
        obtain ⟨depth, merkleRoot, rfl⟩ := exists_of_readMergeMiningTag hfield
        cases hpair

theorem length_of_readString (h : readString input = some (bytes, rest)) :
    bytes.length + rest.length = (readVarint 64 input).rest.length := by
  rw [readString] at h
  split_ifs at h
  obtain ⟨rfl, rfl⟩ := Prod.mk.inj (Option.some.inj h)
  rw [← List.length_append, List.take_append_drop]

theorem read_padding {zeros : Nat} (h : zeros + 1 ≤ txExtraPaddingMaxCount) :
    read (List.replicate (zeros + 1) 0) = some (.padding (zeros + 1), []) := by
  have htag : (0 : UInt8) = txExtraTagPadding := rfl
  have hsize : 1 + zeros ≤ txExtraPaddingMaxCount := by omega
  rw [List.replicate_succ, read, if_pos htag, readPadding_zeros zeros hsize, Nat.add_comm 1,
    Option.map_some]

theorem read_pubKey (key : PublicKey) (rest : Bytes) :
    read (txExtraTagPubkey :: (key.bytes ++ rest)) = some (.pubKey key, rest) := by
  rw [read, if_neg (by decide), if_pos rfl, readHash_append]
  rfl

theorem read_nonceTag (input : Bytes) :
    read (txExtraNonceTag :: input) =
      match readString input with
      | none => none
      | some (bytes, rest) =>
        if txExtraNonceMaxCount < bytes.length then none else some (.nonce bytes, rest) := by
  rw [read, if_neg (by decide), if_neg (by decide), if_pos rfl]

theorem read_nonce (rest : Bytes) (h : nonce.length < 0x80) :
    read (txExtraNonceTag :: UInt8.ofNat nonce.length :: (nonce ++ rest)) = some (.nonce nonce, rest) := by
  have hbyte : (UInt8.ofNat nonce.length).toNat = nonce.length := by
    rw [UInt8.toNat_ofNat', Nat.mod_eq_of_lt (by omega)]
  have hstring : readString (UInt8.ofNat nonce.length :: (nonce ++ rest)) = some (nonce, rest) := by
    rw [readString, readVarint_cons_of_lt _ (by rwa [hbyte]), hbyte]
    dsimp only
    rw [if_neg (by rw [List.length_append]; omega), List.take_left, List.drop_left]
  have hshort : ¬ txExtraNonceMaxCount < nonce.length := by
    rw [txExtraNonceMaxCount]
    omega
  rw [read_nonceTag, hstring]
  exact if_neg hshort

/-- A longer nonce is not read back with as much behind it, as its length is taken for the
start of a greater one. -/
theorem length_lt_of_read_nonce {tail : Bytes} (hsize : nonce.length ≤ txExtraNonceMaxCount)
    (h : read (txExtraNonceTag :: UInt8.ofNat nonce.length :: (nonce ++ tail)) =
      some (.nonce bytes, rest))
    (hlength : bytes.length + rest.length = nonce.length + tail.length) : nonce.length < 0x80 := by
  rw [txExtraNonceMaxCount] at hsize
  have hbyte : (UInt8.ofNat nonce.length).toNat = nonce.length := by
    rw [UInt8.toNat_ofNat', Nat.mod_eq_of_lt (by omega)]
  by_contra hlong
  have hne : nonce ++ tail ≠ [] := List.append_ne_nil_of_left_ne_nil
    (List.ne_nil_of_length_pos (by omega)) _
  have hshort := readVarint_rest_lt_of_le (hbyte.symm ▸ Nat.not_lt.mp hlong) hne
  rw [read_nonceTag] at h
  cases hstring : readString (UInt8.ofNat nonce.length :: (nonce ++ tail)) with
  | none =>
    rw [hstring] at h
    cases h
  | some r =>
    obtain ⟨bytes', rest'⟩ := r
    rw [hstring] at h
    dsimp only at h
    split_ifs at h
    obtain ⟨hfield, rfl⟩ := Prod.mk.inj (Option.some.inj h)
    obtain rfl := TxExtraField.nonce.inj hfield
    have hsum := length_of_readString hstring
    rw [← hsum, hlength, List.length_append] at hshort
    exact Nat.lt_irrefl _ hshort

end TxExtraField

theorem parseTxExtraLoop_cons {fields : List TxExtraField}
    (h : parseTxExtraLoop fuel input = (true, field :: fields)) :
    ∃ rest, TxExtraField.read input = some (field, rest) ∧
      (rest = [] ∧ fields = [] ∨
        rest ≠ [] ∧ ∃ fuel, parseTxExtraLoop fuel rest = (true, fields)) := by
  cases fuel with
  | zero => cases h
  | succ fuel =>
    rw [parseTxExtraLoop] at h
    split at h
    · cases h
    · rename_i field' hread
      obtain ⟨rfl, rfl⟩ := List.cons.inj (Prod.mk.inj h).2
      exact ⟨[], hread, .inl ⟨rfl, rfl⟩⟩
    · rename_i field' rest hne hread
      obtain ⟨hok, hfields⟩ := Prod.mk.inj h
      obtain ⟨rfl, hrest⟩ := List.cons.inj hfields
      exact ⟨rest, hread, .inr ⟨hne, fuel, Prod.ext hok hrest⟩⟩

theorem parseTxExtraLoop_ne_nil (fuel : Nat) (input : Bytes) :
    parseTxExtraLoop fuel input ≠ (true, []) := by
  intro h
  cases fuel with
  | zero => cases h
  | succ fuel =>
    rw [parseTxExtraLoop] at h
    split at h
    · cases h
    · cases h
    · cases (Prod.mk.inj h).2

theorem parseTxExtraLoop_last (h : TxExtraField.read input = some (field, [])) :
    parseTxExtraLoop (fuel + 1) input = (true, [field]) := by
  rw [parseTxExtraLoop, h]

theorem parseTxExtraLoop_next {fields : List TxExtraField}
    (h : TxExtraField.read input = some (field, rest)) (hne : rest ≠ [])
    (hrest : parseTxExtraLoop fuel rest = (true, fields)) :
    parseTxExtraLoop (fuel + 1) input = (true, field :: fields) := by
  rw [parseTxExtraLoop, h]
  split
  · rename_i hnone
    cases hnone
  · rename_i hlast
    exact absurd (Prod.mk.inj (Option.some.inj hlast)).2 hne
  · rename_i hread
    obtain ⟨rfl, rfl⟩ := Prod.mk.inj (Option.some.inj hread)
    rw [hrest]

/-- The extra bytes that the two functions build, with zeros at the end. -/
def builtExtra (key : PublicKey) (nonce : Bytes) (zeros : Nat) : Option Bytes :=
  (addExtraNonceToTxExtra (addTxPubKeyToExtra [] key) nonce).map (· ++ List.replicate zeros 0)

theorem builtExtra_eq {key : PublicKey} {zeros : Nat}
    (hnonce : nonce.length ≤ txExtraNonceMaxCount) :
    builtExtra key nonce zeros = some (txExtraTagPubkey :: (key.bytes ++ txExtraNonceTag ::
      UInt8.ofNat nonce.length :: (nonce ++ List.replicate zeros 0))) := by
  rw [builtExtra, addExtraNonceToTxExtra, if_neg (Nat.not_lt.mpr hnonce), addTxPubKeyToExtra]
  simp

/-- What was put into the extra bytes is read back exactly if the length of the nonce is one
byte as a varint, which it is read as. -/
theorem parse_builtExtra_iff (key : PublicKey) {nonce : Bytes} {zeros : Nat}
    (hnonce : nonce.length ≤ txExtraNonceMaxCount) (hzeros : zeros ≤ txExtraPaddingMaxCount) :
    (builtExtra key nonce zeros).map parseTxExtra = some (true, builtFields key nonce zeros) ↔
      nonce.length < 0x80 := by
  rw [builtExtra_eq hnonce, Option.map_some, Option.some.injEq, parseTxExtra, if_neg (by simp)]
  have hkey := TxExtraField.read_pubKey key
    (txExtraNonceTag :: UInt8.ofNat nonce.length :: (nonce ++ List.replicate zeros 0))
  constructor
  · intro h
    obtain ⟨rest₁, hread₁, ⟨-, hnil⟩ | ⟨-, fuel₁, hnext⟩⟩ := parseTxExtraLoop_cons h
    · cases hnil
    obtain ⟨-, rfl⟩ := Prod.mk.inj (Option.some.inj (hkey.symm.trans hread₁))
    obtain ⟨rest, hread, hend⟩ := parseTxExtraLoop_cons hnext
    refine TxExtraField.length_lt_of_read_nonce hnonce hread ?_
    rw [List.length_replicate, Nat.add_left_cancel_iff]
    -- what is left is the padding, so the fields tell its length
    rcases Nat.eq_zero_or_pos zeros with rfl | hpos
    · rcases hend with ⟨rfl, -⟩ | ⟨-, fuel₂, hlast⟩
      · rfl
      · exact absurd hlast (parseTxExtraLoop_ne_nil fuel₂ rest)
    · rw [if_neg (Nat.ne_of_gt hpos)] at hend
      rcases hend with ⟨-, hnil⟩ | ⟨-, fuel₂, hlast⟩
      · cases hnil
      · obtain ⟨rest₂, hpadding, -⟩ := parseTxExtraLoop_cons hlast
        exact TxExtraField.length_of_read_padding hpadding
  · intro hshort
    have hnonceRead := TxExtraField.read_nonce (List.replicate zeros 0) hshort
    obtain ⟨fuel, hfuel⟩ : ∃ fuel, (key.bytes ++ txExtraNonceTag :: UInt8.ofNat nonce.length ::
        (nonce ++ List.replicate zeros 0)).length = fuel + 1 + 1 := by
      rw [List.length_append, key.size_eq]
      exact ⟨_, Nat.add_comm _ _⟩
    rw [List.length_cons, hfuel]
    refine parseTxExtraLoop_next hkey (List.cons_ne_nil _ _) ?_
    rcases Nat.eq_zero_or_pos zeros with rfl | hpos
    · exact parseTxExtraLoop_last hnonceRead
    · rw [if_neg (Nat.ne_of_gt hpos)]
      obtain ⟨more, rfl⟩ := Nat.exists_eq_add_of_lt hpos
      refine parseTxExtraLoop_next hnonceRead (by simp) (parseTxExtraLoop_last ?_)
      rw [Nat.zero_add] at hzeros ⊢
      exact TxExtraField.read_padding hzeros

theorem parse_builtExtra_of_short_nonce :
    (builtExtra (Blob.ofNat 32 9) [1, 0, 127] 255).map parseTxExtra =
      some (true, builtFields (Blob.ofNat 32 9) [1, 0, 127] 255) :=
  (parse_builtExtra_iff _ (by decide) (by decide)).mpr (by decide)

/-- With 128 zeros as the nonce and nothing after it, the nonce that is found is empty and the
rest of it is padding. -/
theorem long_nonce_lost :
    (builtExtra nullPkey (List.replicate 128 0) 0).map parseTxExtra =
        some (true, [.pubKey nullPkey, .nonce [], .padding 127]) ∧
      (builtExtra nullPkey (List.replicate 128 0) 0).map parseTxExtra ≠
        some (true, builtFields nullPkey (List.replicate 128 0) 0) := by
  decide +kernel

end Pebblecoin
