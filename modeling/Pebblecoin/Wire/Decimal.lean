import Mathlib.Data.Nat.Digits.Lemmas
import Mathlib.Data.List.DropRight
import Pebblecoin.Wire.Codec

/-!
Numbers written with decimal digits.
-/

namespace Pebblecoin.Wire

def zeroChar : UInt8 := 48

def isDigit (c : UInt8) : Bool := decide (zeroChar ≤ c) && decide (c ≤ zeroChar + 9)

def digitChar (d : Nat) : UInt8 := zeroChar + UInt8.ofNat d

/-- The number that a string of digits stands for. -/
def decimal (s : Bytes) : Nat := s.foldl (fun n c => n * 10 + (c.toNat - zeroChar.toNat)) 0

/-- A number without leading zeros. -/
def printDecimal (n : Nat) : Bytes :=
  if n = 0 then [zeroChar] else (Nat.digits 10 n).reverse.map digitChar

@[simp] theorem decimal_nil : decimal [] = 0 := rfl

theorem decimal_foldl (s : Bytes) (n : Nat) :
    s.foldl (fun n c => n * 10 + (c.toNat - zeroChar.toNat)) n = n * 10 ^ s.length + decimal s := by
  induction s using List.reverseRecOn with
  | nil => simp
  | append_singleton s c ih =>
    rw [decimal, List.foldl_append, List.foldl_append, ih, ← decimal, List.length_append,
      List.length_singleton]
    simp only [List.foldl_cons, List.foldl_nil]
    ring

theorem decimal_append (s t : Bytes) : decimal (s ++ t) = decimal s * 10 ^ t.length + decimal t := by
  rw [decimal, List.foldl_append, ← decimal, decimal_foldl]

@[simp] theorem decimal_zeros (n : Nat) : decimal (List.replicate n zeroChar) = 0 := by
  induction n with
  | zero => rfl
  | succ n ih =>
    have hone : decimal [zeroChar] = 0 := by decide
    rw [List.replicate_succ', decimal_append, ih, hone, Nat.zero_mul]

theorem decimal_append_zeros (s : Bytes) (n : Nat) :
    decimal (s ++ List.replicate n zeroChar) = decimal s * 10 ^ n := by
  rw [decimal_append, decimal_zeros, List.length_replicate, Nat.add_zero]

theorem decimal_zeros_append (n : Nat) (s : Bytes) :
    decimal (List.replicate n zeroChar ++ s) = decimal s := by
  rw [decimal_append, decimal_zeros, Nat.zero_mul, Nat.zero_add]

theorem isDigit_zeroChar : isDigit zeroChar = true := by decide

theorem digitChar_spec : ∀ d < 10, isDigit (digitChar d) = true ∧
    (digitChar d).toNat - zeroChar.toNat = d := by
  decide

theorem printDecimal_digits (n : Nat) : ∀ c ∈ printDecimal n, isDigit c = true := by
  intro c hc
  rw [printDecimal] at hc
  split_ifs at hc
  · rw [List.mem_singleton.mp hc]
    exact isDigit_zeroChar
  · obtain ⟨d, hd, rfl⟩ := List.mem_map.mp hc
    exact (digitChar_spec d (Nat.digits_lt_base (by decide) (List.mem_reverse.mp hd))).1

theorem decimal_digits {ds : List Nat} (h : ∀ d ∈ ds, d < 10) :
    decimal (ds.reverse.map digitChar) = Nat.ofDigits 10 ds := by
  induction ds with
  | nil => rfl
  | cons d ds ih =>
    obtain ⟨hd, hds⟩ := List.forall_mem_cons.mp h
    have hone : decimal [digitChar d] = d := by
      rw [decimal, List.foldl_cons, List.foldl_nil, Nat.zero_mul, Nat.zero_add,
        (digitChar_spec d hd).2]
    rw [List.reverse_cons, List.map_append, List.map_singleton, decimal_append, ih hds, hone,
      Nat.ofDigits_cons, List.length_singleton]
    ring

theorem decimal_printDecimal (n : Nat) : decimal (printDecimal n) = n := by
  rw [printDecimal]
  split_ifs with h
  · rw [h]
    rfl
  · rw [decimal_digits fun d hd => Nat.digits_lt_base (by decide) hd, Nat.ofDigits_digits]

end Pebblecoin.Wire
