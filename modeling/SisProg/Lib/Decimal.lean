import Mathlib.Data.Nat.Digits.Lemmas
import SisProg.Lib.Bytes

/-!
# Decimal numbers

Numbers as they are written in texts, with leading zeros, and `std::stol`.

* `value_lt`: the value is bounded by the number of digits.
* `value_inj`: among the numbers with as many digits, the value tells which it is.
* `stol_digits`: `stol` reads digits that are not too many, and throws nothing.
-/

namespace SisProg

namespace Decimal

def isDigit (b : UInt8) : Bool := 48 ≤ b && b ≤ 57

def digit (b : UInt8) : Nat := b.toNat - 48

/-- The value of a number. -/
def value (digits : Bytes) : Nat := digits.foldl (fun n b => 10 * n + digit b) 0

/-! ## Values -/

theorem digit_bounds {b : UInt8} (h : isDigit b = true) : 48 ≤ b.toNat ∧ b.toNat ≤ 57 := by
  simp only [isDigit, Bool.and_eq_true, decide_eq_true_eq] at h
  exact h

theorem digit_lt {b : UInt8} (h : isDigit b = true) : digit b < 10 :=
  Nat.sub_lt_left_of_lt_add (digit_bounds h).1 (Nat.lt_succ_of_le (digit_bounds h).2)

theorem value_eq_ofDigits (s : Bytes) : value s = Nat.ofDigits 10 (s.reverse.map digit) := by
  rw [value, Nat.ofDigits_eq_foldr, List.foldr_map, List.foldr_reverse]
  simp only [Nat.add_comm, Nat.cast_id]

theorem digits_lt {s : Bytes} (h : ∀ b ∈ s, isDigit b = true) :
    ∀ d ∈ s.reverse.map digit, d < 10 := by
  intro d hd
  obtain ⟨b, hb, rfl⟩ := List.mem_map.mp hd
  exact digit_lt (h b (List.mem_reverse.mp hb))

theorem value_lt {s : Bytes} (h : ∀ b ∈ s, isDigit b = true) : value s < 10 ^ s.length := by
  have hlt := Nat.ofDigits_lt_base_pow_length (by decide) (digits_lt h)
  rwa [← value_eq_ofDigits, List.length_map, List.length_reverse] at hlt

theorem ofNat_digit {b : UInt8} (h : isDigit b = true) : UInt8.ofNat (digit b + 48) = b := by
  rw [digit, Nat.sub_add_cancel (digit_bounds h).1, UInt8.ofNat_toNat]

/-- The digits have their bytes. -/
theorem map_ofNat_digits {s : Bytes} (h : ∀ b ∈ s, isDigit b = true) :
    (s.map digit).map (fun d => UInt8.ofNat (d + 48)) = s := by
  rw [List.map_map]
  exact (List.map_congr_left fun b hb => ofNat_digit (h b hb)).trans (List.map_id s)

theorem value_inj {s t : Bytes} (hs : ∀ b ∈ s, isDigit b = true) (ht : ∀ b ∈ t, isDigit b = true)
    (hlen : s.length = t.length) (h : value s = value t) : s = t := by
  rw [value_eq_ofDigits, value_eq_ofDigits] at h
  have hdigits : s.reverse.map digit = t.reverse.map digit :=
    Nat.ofDigits_inj_of_len_eq (by decide) (by simpa using hlen) (digits_lt hs) (digits_lt ht) h
  rw [List.map_reverse, List.map_reverse, List.reverse_inj] at hdigits
  rw [← map_ofNat_digits hs, hdigits, map_ofNat_digits ht]

/-! ## stol -/

/-- What `stol` throws. -/
inductive StolError
  | invalidArgument
  | outOfRange
deriving DecidableEq

def isSpace (b : UInt8) : Bool := b = 32 || (9 ≤ b && b ≤ 13)

/-- An optional sign: whether it is a minus, and what follows it. -/
def sign : Bytes → Bool × Bytes
  | 45 :: s => (true, s)
  | 43 :: s => (false, s)
  | s => (false, s)

/-- `std::stol`: what follows the digits does not matter. -/
def stol (s : Bytes) : Except StolError Int :=
  let t := sign (s.cstr.dropWhile isSpace)
  let digits := t.2.takeWhile isDigit
  let v : Int := if t.1 then -(value digits : Int) else value digits
  if digits.isEmpty then .error .invalidArgument
  else if v < -9223372036854775808 ∨ 9223372036854775807 < v then .error .outOfRange
  else .ok v

theorem isSpace_eq_false {b : UInt8} (h : isDigit b = true) : isSpace b = false := by
  have hle := (digit_bounds h).1
  have hne : b ≠ 32 := by
    rintro rfl
    exact absurd hle (by decide)
  have hnle : ¬ b ≤ 13 := fun h13 => absurd (hle.trans (UInt8.le_iff_toNat_le.mp h13)) (by decide)
  simp [isSpace, hne, hnle]

theorem sign_digits {s : Bytes} (h : ∀ b ∈ s, isDigit b = true) : sign s = (false, s) := by
  unfold sign
  split
  next => exact absurd (h 45 List.mem_cons_self) (by decide)
  next => exact absurd (h 43 List.mem_cons_self) (by decide)
  next => rfl

theorem stol_digits {s : Bytes} (hne : s ≠ []) (h : ∀ b ∈ s, isDigit b = true)
    (hlen : s.length ≤ 18) : stol s = .ok (value s) := by
  have hcstr : Bytes.cstr s = s :=
    Bytes.cstr_eq_self fun h0 => absurd (h 0 h0) (by decide)
  have hspace : s.dropWhile isSpace = s := by
    obtain ⟨b, t, rfl⟩ := List.exists_cons_of_ne_nil hne
    rw [List.dropWhile_cons_of_neg (by simp [isSpace_eq_false (h b List.mem_cons_self)])]
  have hdigits : s.takeWhile isDigit = s := List.takeWhile_eq_self_iff.mpr h
  have hlt : value s < 9223372036854775808 :=
    (value_lt h).trans_le ((Nat.pow_le_pow_right (by decide) hlen).trans (by decide))
  unfold stol
  rw [hcstr, hspace, sign_digits h]
  dsimp only
  rw [hdigits, if_neg (by simpa using hne), if_neg Bool.false_ne_true, if_neg]
  omega

end Decimal

end SisProg
