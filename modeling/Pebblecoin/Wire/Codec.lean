import Pebblecoin.Wire.Varint
import Pebblecoin.Containers.OrdMap

/-!
Codecs that carry two readers: the tolerant one a program runs, and a strict one
that accepts only what the writer produces.  The combinators keep the four facts
that tie the readers to the writer.
-/

namespace Pebblecoin.Wire

open Containers

variable {α β : Type}

structure Codec (α : Type) where
  write : α → Bytes
  read : Bytes → Option (α × Bytes)
  strict : Bytes → Option (α × Bytes)
  /-- Values the format can carry. -/
  valid : α → Prop
  read_of_strict : ∀ {input p}, strict input = some p → read input = some p
  eq_write_of_strict : ∀ {input a rest}, strict input = some (a, rest) → input = write a ++ rest
  strict_write : ∀ {a} (rest : Bytes), valid a → strict (write a ++ rest) = some (a, rest)
  valid_of_read : ∀ {input a rest}, read input = some (a, rest) → valid a

namespace Codec

theorem valid_of_strict (c : Codec α) {input rest : Bytes} {a : α}
    (h : c.strict input = some (a, rest)) : c.valid a :=
  c.valid_of_read (c.read_of_strict h)

theorem width64_pos : 0 < 64 := by decide

theorem width64_le : 64 ≤ 64 := le_rfl

theorem lt_ten_groups {n bits : Nat} (h : n < 2 ^ bits) (hbits : bits ≤ 64) : n < 0x80 ^ 10 := by
  have hlt : n < 2 ^ 64 := h.trans_le (Nat.pow_le_pow_right (by omega) hbits)
  exact hlt.trans (by norm_num)

theorem readVarint_of_strictVarint {bits : Nat} {input : Bytes} {p : Nat × Bytes}
    (h : strictVarint bits 0 input = some p) :
    some ((readVarint bits input).value, (readVarint bits input).rest) = some p := by
  obtain ⟨used, -, hread⟩ := (strictRead_of_strictVarint h).readVarintLoop 0 0
  simp [readVarint, hread]

theorem readVarint_value_lt {bits n : Nat} {input rest : Bytes} (hpos : 0 < bits)
    (h : some ((readVarint bits input).value, (readVarint bits input).rest) = some (n, rest)) :
    n < 2 ^ bits := by
  obtain ⟨rfl, -⟩ := Prod.mk.inj (Option.some.inj h)
  exact readVarintLoop_value_lt input hpos (by simp)

/-- An unsigned integer in groups of seven bits.  The tolerant reader goes on
whatever the reading loop reports. -/
def varint (bits : Nat) (hpos : 0 < bits) (hbits : bits ≤ 64) : Codec Nat where
  write := writeVarint
  read input := some ((readVarint bits input).value, (readVarint bits input).rest)
  strict := strictVarint bits 0
  valid n := n < 2 ^ bits
  read_of_strict h := readVarint_of_strictVarint h
  eq_write_of_strict h :=
    (strictRead_of_strictVarint h).eq_write (lt_ten_groups (strictRead_of_strictVarint h).lt hbits)
  strict_write rest h :=
    strictVarint_write rest h (fun h => absurd rfl h) (lt_ten_groups h hbits)
  valid_of_read h := readVarint_value_lt hpos h

/-- One raw byte. -/
def byte : Codec UInt8 where
  write b := [b]
  read input := input.head?.map fun b => (b, input.tail)
  strict input := input.head?.map fun b => (b, input.tail)
  valid _ := True
  read_of_strict := id
  eq_write_of_strict := by
    intro input b rest h
    cases input with
    | nil => simp at h
    | cons c input => simpa [eq_comm] using h
  strict_write := by simp
  valid_of_read := fun _ => trivial

/-- Exactly `n` raw bytes. -/
def raw (n : Nat) : Codec Bytes where
  write := id
  read input := if n ≤ input.length then some (input.take n, input.drop n) else none
  strict input := if n ≤ input.length then some (input.take n, input.drop n) else none
  valid bs := bs.length = n
  read_of_strict := id
  eq_write_of_strict := by
    intro input bs rest h
    split_ifs at h
    obtain ⟨rfl, rfl⟩ : input.take n = bs ∧ input.drop n = rest := by simpa using h
    simp
  strict_write := by
    rintro bs rest rfl
    simp
  valid_of_read := by
    intro input bs rest h
    split_ifs at h with hn
    obtain ⟨rfl, -⟩ : input.take n = bs ∧ input.drop n = rest := by simpa using h
    simpa using hn

/-- A number in exactly `width` bytes, lowest byte first. -/
def encodeLE : (width : Nat) → Nat → Bytes
  | 0, _ => []
  | width + 1, n => UInt8.ofNat (n % 256) :: encodeLE width (n / 256)

def decodeLE : Bytes → Nat
  | [] => 0
  | b :: bs => b.toNat + 256 * decodeLE bs

@[simp] theorem encodeLE_length (width n : Nat) : (encodeLE width n).length = width := by
  induction width generalizing n with
  | zero => rfl
  | succ width ih => simp [encodeLE, ih]

theorem decodeLE_lt (bs : Bytes) : decodeLE bs < 256 ^ bs.length := by
  induction bs with
  | nil => simp [decodeLE]
  | cons b bs ih =>
    have := b.toNat_lt
    rw [decodeLE, List.length_cons, pow_succ]
    omega

theorem decodeLE_encodeLE {width n : Nat} (h : n < 256 ^ width) :
    decodeLE (encodeLE width n) = n := by
  induction width generalizing n with
  | zero =>
    simp only [pow_zero, Nat.lt_one_iff] at h
    simp [encodeLE, decodeLE, h]
  | succ width ih =>
    rw [pow_succ] at h
    rw [encodeLE, decodeLE, ih (by omega), UInt8.toNat_ofNat']
    omega

theorem encodeLE_decodeLE (bs : Bytes) : encodeLE bs.length (decodeLE bs) = bs := by
  induction bs with
  | nil => rfl
  | cons b bs ih =>
    have := b.toNat_lt
    rw [List.length_cons, encodeLE, decodeLE,
      show (b.toNat + 256 * decodeLE bs) % 256 = b.toNat by omega,
      show (b.toNat + 256 * decodeLE bs) / 256 = decodeLE bs by omega, ih, UInt8.ofNat_toNat]

/-- Transport along a map with a left inverse on the carried values. -/
def iso (c : Codec α) (f : α → β) (g : β → α) (hfg : ∀ b, f (g b) = b)
    (hgf : ∀ a, c.valid a → g (f a) = a) : Codec β where
  write b := c.write (g b)
  read input := (c.read input).map fun p => (f p.1, p.2)
  strict input := (c.strict input).map fun p => (f p.1, p.2)
  valid b := c.valid (g b)
  read_of_strict := by
    rintro input ⟨b, rest⟩ h
    obtain ⟨p, hp, hb⟩ := Option.map_eq_some_iff.mp h
    rw [c.read_of_strict hp, ← hb]
    rfl
  eq_write_of_strict := by
    intro input b rest h
    obtain ⟨⟨a, rest'⟩, hp, hb⟩ := Option.map_eq_some_iff.mp h
    obtain ⟨rfl, rfl⟩ : f a = b ∧ rest' = rest := by simpa using hb
    rw [hgf a (c.valid_of_strict hp)]
    exact c.eq_write_of_strict hp
  strict_write := by
    intro b rest h
    rw [c.strict_write rest h]
    simp [hfg]
  valid_of_read := by
    intro input b rest h
    obtain ⟨⟨a, rest'⟩, hp, hb⟩ := Option.map_eq_some_iff.mp h
    obtain ⟨rfl, rfl⟩ : f a = b ∧ rest' = rest := by simpa using hb
    have hvalid := c.valid_of_read hp
    rwa [hgf a hvalid]

/-- The second codec may depend on what the first one carried. -/
def dep (c : Codec α) (d : α → Codec β) : Codec (α × β) where
  write p := c.write p.1 ++ (d p.1).write p.2
  read input := (c.read input).bind fun p => ((d p.1).read p.2).map fun q => ((p.1, q.1), q.2)
  strict input :=
    (c.strict input).bind fun p => ((d p.1).strict p.2).map fun q => ((p.1, q.1), q.2)
  valid p := c.valid p.1 ∧ (d p.1).valid p.2
  read_of_strict := by
    intro input r h
    obtain ⟨p, hp, hmap⟩ := Option.bind_eq_some_iff.mp h
    obtain ⟨q, hq, rfl⟩ := Option.map_eq_some_iff.mp hmap
    simp [c.read_of_strict hp, (d p.1).read_of_strict hq]
  eq_write_of_strict := by
    intro input r rest h
    obtain ⟨⟨a, mid⟩, hp, hmap⟩ := Option.bind_eq_some_iff.mp h
    obtain ⟨⟨b, rest'⟩, hq, hr⟩ := Option.map_eq_some_iff.mp hmap
    obtain ⟨rfl, rfl⟩ : (a, b) = r ∧ rest' = rest := by simpa using hr
    have hmid : mid = (d a).write b ++ rest' := (d a).eq_write_of_strict hq
    rw [c.eq_write_of_strict hp, hmid, List.append_assoc]
  strict_write := by
    rintro ⟨a, b⟩ rest ⟨ha, hb⟩
    rw [List.append_assoc, c.strict_write _ ha]
    simp [(d a).strict_write rest hb]
  valid_of_read := by
    intro input r rest h
    obtain ⟨⟨a, mid⟩, hp, hmap⟩ := Option.bind_eq_some_iff.mp h
    obtain ⟨⟨b, rest'⟩, hq, hr⟩ := Option.map_eq_some_iff.mp hmap
    obtain ⟨rfl, rfl⟩ : (a, b) = r ∧ rest' = rest := by simpa using hr
    exact ⟨c.valid_of_read hp, (d a).valid_of_read hq⟩

def pair (c : Codec α) (d : Codec β) : Codec (α × β) :=
  c.dep fun _ => d

/-- Refuse, on both readers, the values that fail a test. -/
def guarded (c : Codec α) (test : α → Bool) : Codec α where
  write := c.write
  read input := (c.read input).filter fun p => test p.1
  strict input := (c.strict input).filter fun p => test p.1
  valid a := c.valid a ∧ test a = true
  read_of_strict := by
    intro input p h
    obtain ⟨hp, ht⟩ := Option.filter_eq_some_iff.mp h
    exact Option.filter_eq_some_iff.mpr ⟨c.read_of_strict hp, ht⟩
  eq_write_of_strict := by
    intro input a rest h
    exact c.eq_write_of_strict (Option.filter_eq_some_iff.mp h).1
  strict_write := by
    intro a rest h
    exact Option.filter_eq_some_iff.mpr ⟨c.strict_write rest h.1, h.2⟩
  valid_of_read := by
    intro input a rest h
    obtain ⟨hp, ht⟩ := Option.filter_eq_some_iff.mp h
    exact ⟨c.valid_of_read hp, ht⟩

/-- One element followed by a list. -/
def cons (c : Codec α) (d : Codec (List α)) : Codec (List α) where
  write
    | [] => []
    | a :: as => c.write a ++ d.write as
  read input := (c.read input).bind fun p => (d.read p.2).map fun q => (p.1 :: q.1, q.2)
  strict input := (c.strict input).bind fun p => (d.strict p.2).map fun q => (p.1 :: q.1, q.2)
  valid
    | [] => False
    | a :: as => c.valid a ∧ d.valid as
  read_of_strict := by
    intro input r h
    obtain ⟨p, hp, hmap⟩ := Option.bind_eq_some_iff.mp h
    obtain ⟨q, hq, rfl⟩ := Option.map_eq_some_iff.mp hmap
    simp [c.read_of_strict hp, d.read_of_strict hq]
  eq_write_of_strict := by
    intro input r rest h
    obtain ⟨⟨a, mid⟩, hp, hmap⟩ := Option.bind_eq_some_iff.mp h
    obtain ⟨⟨as, rest'⟩, hq, hr⟩ := Option.map_eq_some_iff.mp hmap
    obtain ⟨rfl, rfl⟩ : a :: as = r ∧ rest' = rest := by simpa using hr
    have hmid : mid = d.write as ++ rest' := d.eq_write_of_strict hq
    rw [c.eq_write_of_strict hp, hmid, List.append_assoc]
  strict_write := by
    intro r rest h
    cases r with
    | nil => exact h.elim
    | cons a as =>
      rw [List.append_assoc, c.strict_write _ h.1]
      simp [d.strict_write rest h.2]
  valid_of_read := by
    intro input r rest h
    obtain ⟨⟨a, mid⟩, hp, hmap⟩ := Option.bind_eq_some_iff.mp h
    obtain ⟨⟨as, rest'⟩, hq, hr⟩ := Option.map_eq_some_iff.mp hmap
    obtain ⟨rfl, rfl⟩ : a :: as = r ∧ rest' = rest := by simpa using hr
    exact ⟨c.valid_of_read hp, d.valid_of_read hq⟩

/-- A list of codecs applied one after the other. -/
def sequence : List (Codec α) → Codec (List α)
  | [] =>
    { write := fun _ => []
      read := fun input => some ([], input)
      strict := fun input => some ([], input)
      valid := fun as => as = []
      read_of_strict := id
      eq_write_of_strict := by simp
      strict_write := by simp
      valid_of_read := by simp }
  | c :: cs => c.cons (sequence cs)

theorem length_of_sequence_valid {cs : List (Codec α)} {as : List α}
    (h : (sequence cs).valid as) : as.length = cs.length := by
  induction cs generalizing as with
  | nil => simpa [sequence] using h
  | cons c cs ih =>
    cases as with
    | nil => exact h.elim
    | cons a as => simpa using ih h.2

/-- Both readers give up when fewer than `n` bytes are left. -/
def needs (n : Nat) (c : Codec α) (hn : ∀ a, c.valid a → n ≤ (c.write a).length) : Codec α where
  write := c.write
  read input := if n ≤ input.length then c.read input else none
  strict input := if n ≤ input.length then c.strict input else none
  valid := c.valid
  read_of_strict := by
    intro input p h
    split_ifs at h with hlen
    rw [if_pos hlen, c.read_of_strict h]
  eq_write_of_strict := by
    intro input a rest h
    split_ifs at h
    exact c.eq_write_of_strict h
  strict_write := by
    intro a rest h
    rw [if_pos (by simpa using (hn a h).trans (Nat.le_add_right _ rest.length)),
      c.strict_write rest h]
  valid_of_read := by
    intro input a rest h
    split_ifs at h
    exact c.valid_of_read h

/-- Codecs whose values take at least one byte. -/
def NonEmpty (c : Codec α) : Prop :=
  ∀ a, c.valid a → 1 ≤ (c.write a).length

theorem length_le_sequence_write {c : Codec α} (hc : c.NonEmpty) (n : Nat) (as : List α)
    (h : (sequence (List.replicate n c)).valid as) :
    n ≤ ((sequence (List.replicate n c)).write as).length := by
  induction n generalizing as with
  | zero => simp
  | succ n ih =>
    rw [List.replicate_succ] at h ⊢
    cases as with
    | nil => exact h.elim
    | cons a as =>
      have hhead := hc a h.1
      have htail := ih as h.2
      simp only [sequence, cons, List.length_append]
      omega

/-- A count followed by that many elements, with the sanity check that the
count does not exceed the bytes left. -/
def vector (c : Codec α) (hc : c.NonEmpty) : Codec (List α) :=
  ((varint 64 width64_pos width64_le).dep fun n =>
      needs n (sequence (List.replicate n c)) (length_le_sequence_write hc n)).iso
    Prod.snd (fun as => (as.length, as)) (fun _ => rfl) (by
      rintro ⟨n, as⟩ ⟨-, h⟩
      simpa using length_of_sequence_valid h)

theorem sequence_replicate_valid_iff {c : Codec α} {n : Nat} {as : List α} :
    (sequence (List.replicate n c)).valid as ↔ as.length = n ∧ ∀ a ∈ as, c.valid a := by
  induction n generalizing as with
  | zero =>
    simp only [List.replicate_zero, sequence, List.length_eq_zero_iff]
    exact ⟨fun h => ⟨h, by simp [h]⟩, And.left⟩
  | succ n ih =>
    rw [List.replicate_succ]
    cases as with
    | nil => simp [sequence, cons]
    | cons a as =>
      simp only [sequence, cons, ih, List.length_cons, List.mem_cons, forall_eq_or_imp,
        Nat.add_right_cancel_iff]
      exact and_left_comm

theorem vector_valid_iff {c : Codec α} {hc : c.NonEmpty} {as : List α} :
    (vector c hc).valid as ↔ as.length < 2 ^ 64 ∧ ∀ a ∈ as, c.valid a := by
  have : (vector c hc).valid as ↔
      as.length < 2 ^ 64 ∧ (sequence (List.replicate as.length c)).valid as := Iff.rfl
  rw [this, sequence_replicate_valid_iff]
  simp

/-- An ordered map written as the vector of its entries.  The tolerant reader
takes the entries in any order and drops repeated keys. -/
def map {κ ν : Type} [LinearOrder κ] (c : Codec (κ × ν)) (hc : c.NonEmpty) :
    Codec (OrdMap κ ν) where
  write m := (vector c hc).write m.toList
  read input := ((vector c hc).read input).map fun p => (OrdMap.ofList p.1, p.2)
  strict input := ((vector c hc).strict input).bind fun p =>
    if h : p.1.Pairwise (fun a b => a.1 < b.1) then some (⟨p.1, h⟩, p.2) else none
  valid m := (vector c hc).valid m.toList
  read_of_strict := by
    intro input r h
    obtain ⟨p, hp, hr⟩ := Option.bind_eq_some_iff.mp h
    split_ifs at hr with hsorted
    obtain rfl := Option.some.inj hr
    rw [(vector c hc).read_of_strict hp, Option.map_some, OrdMap.ofList_of_sorted hsorted]
  eq_write_of_strict := by
    intro input m rest h
    obtain ⟨⟨l, rest'⟩, hp, hr⟩ := Option.bind_eq_some_iff.mp h
    split_ifs at hr with hsorted
    obtain ⟨rfl, rfl⟩ : (⟨l, hsorted⟩ : OrdMap κ ν) = m ∧ rest' = rest := by simpa using hr
    exact (vector c hc).eq_write_of_strict hp
  strict_write := by
    intro m rest h
    rw [(vector c hc).strict_write rest h]
    simp [m.sorted]
  valid_of_read := by
    intro input m rest h
    obtain ⟨⟨l, rest'⟩, hp, hr⟩ := Option.map_eq_some_iff.mp h
    obtain ⟨rfl, rfl⟩ : OrdMap.ofList l = m ∧ rest' = rest := by simpa using hr
    have hvalid := vector_valid_iff.mp ((vector c hc).valid_of_read hp)
    exact vector_valid_iff.mpr ⟨(OrdMap.length_ofList_le l).trans_lt hvalid.1,
      fun a ha => hvalid.2 a (OrdMap.mem_of_mem_ofList ha)⟩

/-- A set written as the vector of its elements. -/
def set {κ : Type} [LinearOrder κ] (c : Codec κ) (hc : c.NonEmpty) : Codec (OrdSet κ) :=
  map (c.iso (·, ()) Prod.fst (fun _ => rfl) (fun _ _ => rfl)) fun a => hc a.1

theorem set_valid_iff {κ : Type} [LinearOrder κ] {c : Codec κ} {hc : c.NonEmpty} {s : OrdSet κ} :
    (Codec.set c hc).valid s ↔ s.toList.length < 2 ^ 64 ∧ ∀ p ∈ s.toList, c.valid p.1 := by
  have hnonEmpty : (c.iso (·, ()) Prod.fst (fun _ => rfl) (fun _ _ => rfl)).NonEmpty :=
    fun a => hc a.1
  exact @vector_valid_iff _ _ hnonEmpty s.toList

/-- A count followed by that many raw bytes. -/
def string : Codec Bytes :=
  ((varint 64 width64_pos width64_le).dep fun n =>
      needs n (raw n) (fun _ h => h.ge)).iso
    Prod.snd (fun bs => (bs.length, bs)) (fun _ => rfl) (by
      rintro ⟨n, bs⟩ ⟨-, h⟩
      simpa [needs, raw] using h)

/-- One alternative of a variant: a codec of `β` whose values are all of the
form `inj a`. -/
def arm (c : Codec α) (inj : α → β) (proj : β → Option α)
    (hproj : ∀ {a b}, proj b = some a ↔ inj a = b) : Codec β where
  write b := (proj b).elim [] c.write
  read input := (c.read input).map fun p => (inj p.1, p.2)
  strict input := (c.strict input).map fun p => (inj p.1, p.2)
  valid b := ∃ a, inj a = b ∧ c.valid a
  read_of_strict := by
    rintro input ⟨b, rest⟩ h
    obtain ⟨p, hp, hb⟩ := Option.map_eq_some_iff.mp h
    rw [c.read_of_strict hp, ← hb]
    rfl
  eq_write_of_strict := by
    intro input b rest h
    obtain ⟨⟨a, rest'⟩, hp, hb⟩ := Option.map_eq_some_iff.mp h
    obtain ⟨hab, rfl⟩ : inj a = b ∧ rest' = rest := by simpa using hb
    rw [hproj.mpr hab]
    exact c.eq_write_of_strict hp
  strict_write := by
    rintro b rest ⟨a, hab, ha⟩
    rw [hproj.mpr hab]
    simp [c.strict_write rest ha, hab]
  valid_of_read := by
    intro input b rest h
    obtain ⟨⟨a, rest'⟩, hp, hb⟩ := Option.map_eq_some_iff.mp h
    obtain ⟨hab, rfl⟩ : inj a = b ∧ rest' = rest := by simpa using hb
    exact ⟨a, hab, c.valid_of_read hp⟩

/-- The codec filed under a tag. -/
def armOf (arms : List (UInt8 × Codec β)) (t : UInt8) : Option (Codec β) :=
  (arms.find? (·.1 = t)).map Prod.snd

theorem tag_of_armOf {tag : β → UInt8} {arms : List (UInt8 × Codec β)}
    (htag : ∀ p ∈ arms, ∀ b, p.2.valid b → tag b = p.1) {t : UInt8} {c : Codec β} {b : β}
    (hc : armOf arms t = some c) (hb : c.valid b) : tag b = t := by
  obtain ⟨p, hp, rfl⟩ := Option.map_eq_some_iff.mp hc
  have ht : p.1 = t := by simpa using List.find?_some hp
  rw [← ht]
  exact htag p (List.mem_of_find?_eq_some hp) b hb

/-- A variant: one tag byte selects the codec of the rest. -/
def tagged (tag : β → UInt8) (arms : List (UInt8 × Codec β))
    (htag : ∀ p ∈ arms, ∀ b, p.2.valid b → tag b = p.1) : Codec β where
  write b := tag b :: ((armOf arms (tag b)).elim [] fun c => c.write b)
  read
    | [] => none
    | t :: rest => (armOf arms t).bind fun c => c.read rest
  strict
    | [] => none
    | t :: rest => (armOf arms t).bind fun c => c.strict rest
  valid b := ∃ c, armOf arms (tag b) = some c ∧ c.valid b
  read_of_strict := by
    intro input p h
    cases input with
    | nil => cases h
    | cons t input =>
      obtain ⟨c, hc, hp⟩ := Option.bind_eq_some_iff.mp h
      simp [hc, c.read_of_strict hp]
  eq_write_of_strict := by
    intro input b rest h
    cases input with
    | nil => cases h
    | cons t input =>
      obtain ⟨c, hc, hp⟩ := Option.bind_eq_some_iff.mp h
      have ht : tag b = t := tag_of_armOf htag hc (c.valid_of_strict hp)
      simp [ht, hc, c.eq_write_of_strict hp]
  strict_write := by
    rintro b rest ⟨c, hc, hb⟩
    simp [hc, c.strict_write rest hb]
  valid_of_read := by
    intro input b rest h
    cases input with
    | nil => cases h
    | cons t input =>
      obtain ⟨c, hc, hp⟩ := Option.bind_eq_some_iff.mp h
      have hb := c.valid_of_read hp
      exact ⟨c, tag_of_armOf htag hc hb ▸ hc, hb⟩

theorem tagged_nonEmpty {tag : β → UInt8} {arms : List (UInt8 × Codec β)}
    {htag : ∀ p ∈ arms, ∀ b, p.2.valid b → tag b = p.1} : (tagged tag arms htag).NonEmpty :=
  fun _ _ => by simp [tagged]

end Codec

end Pebblecoin.Wire
