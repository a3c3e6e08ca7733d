import SisProg.Lib.Decimal

/-!
# Printing to a string

`snprintf` for a format whose only argument is a string, as the standard has it: what
is not specified is `none`. The argument may be taken by position (`%1$s`), and then any
number of times.

* `printf_literal`: a format without `%` is its own output, whatever the argument.
-/

namespace SisProg

namespace Printf

open Decimal (isDigit value)

/-- The largest `int`; `printf` fails if its output is longer. -/
def intMax : Nat := 2147483647

def percent : UInt8 := 37

def blank : UInt8 := 32

def minus : UInt8 := 45

/-- The flags that a string conversion may have: the others are `#` and `0`. -/
def isFlag (b : UInt8) : Bool := b = minus || b = 43 || b = blank

/-- A part of a format. -/
inductive Piece
  | byte (b : UInt8)
  | string (positional left : Bool) (width : Nat) (precision : Option Nat)
deriving DecidableEq

/-! ## Parsing -/

/-- `1$`, if it is there. -/
def position : Bytes → Bool × Bytes
  | 49 :: 36 :: s => (true, s)
  | s => (false, s)

/-- The precision, with its period. -/
def precision : Bytes → Option Nat × Bytes
  | 46 :: s => (some (value (s.takeWhile isDigit)), s.dropWhile isDigit)
  | s => (none, s)

/-- The rest of a specification, after its position. -/
def stringSpec (positional : Bool) (s : Bytes) : Option (Piece × Bytes) :=
  let width := (s.dropWhile isFlag).takeWhile isDigit
  match precision ((s.dropWhile isFlag).dropWhile isDigit) with
  | (prec, 115 :: t) =>
    -- a `0` here is a flag
    if width.head? = some 48 ∨ intMax < prec.getD 0 then none
    else some (.string positional (minus ∈ s.takeWhile isFlag) (value width) prec, t)
  | _ => none

example : stringSpec true (Bytes.ascii "-5.2s|") =
    some (.string true true 5 (some 2), Bytes.ascii "|") := by
  decide

/-- The specification after a `%`, and what follows it. -/
def specification : Bytes → Option (Piece × Bytes)
  | 37 :: s => some (.byte percent, s)
  | s => stringSpec (position s).1 (position s).2

theorem length_position_le (s : Bytes) : (position s).2.length ≤ s.length := by
  unfold position
  split
  next => simp only [List.length_cons]; omega
  next => exact Nat.le_refl _

theorem length_precision_le (s : Bytes) : (precision s).2.length ≤ s.length := by
  unfold precision
  split
  next t =>
    have hle : (t.dropWhile isDigit).length ≤ t.length := (List.dropWhile_suffix _).length_le
    exact hle.trans (Nat.le_succ _)
  next => exact Nat.le_refl _

theorem length_stringSpec_lt {positional : Bool} {s t : Bytes} {p : Piece}
    (h : stringSpec positional s = some (p, t)) : t.length < s.length := by
  unfold stringSpec at h
  dsimp only at h
  split at h
  next prec u heq =>
    split at h
    next => cases h
    next =>
      obtain ⟨-, rfl⟩ := Prod.mk.inj (Option.some.inj h)
      have hprec := length_precision_le ((s.dropWhile isFlag).dropWhile isDigit)
      rw [heq, List.length_cons] at hprec
      have hdrop : ((s.dropWhile isFlag).dropWhile isDigit).length ≤ s.length :=
        ((List.dropWhile_suffix _).trans (List.dropWhile_suffix _)).length_le
      exact hprec.trans hdrop
  next => cases h

theorem length_specification_lt {s t : Bytes} {p : Piece}
    (h : specification s = some (p, t)) : t.length < s.length := by
  unfold specification at h
  split at h
  next u =>
    obtain ⟨-, rfl⟩ := Prod.mk.inj (Option.some.inj h)
    exact Nat.lt_succ_self _
  next => exact (length_stringSpec_lt h).trans_le (length_position_le s)

/-- The parts of a format. -/
def pieces : Bytes → Option (List Piece)
  | [] => some []
  | b :: s =>
    if b = percent then
      match _ : specification s with
      | none => none
      | some (p, t) => (pieces t).map (p :: ·)
    else (pieces s).map (.byte b :: ·)
termination_by s => s.length
decreasing_by
  · rename_i heq
    exact (length_specification_lt heq).trans (Nat.lt_succ_self _)
  · exact Nat.lt_succ_self _

/-! ## Printing -/

def Piece.isString : Piece → Bool
  | .byte _ => false
  | .string .. => true

def Piece.isPositional : Piece → Bool
  | .byte _ => false
  | .string positional .. => positional

def Piece.expand (arg : Bytes) : Piece → Bytes
  | .byte b => [b]
  | .string _ left width precision =>
    let s := arg.take (precision.getD arg.length)
    let padding := List.replicate (width - s.length) blank
    if left then s ++ padding else padding ++ s

/-- The one argument is enough: it is taken by position, or once. -/
def Enough (ps : List Piece) : Prop :=
  (∀ p ∈ ps.filter Piece.isString, p.isPositional = true) ∨ (ps.filter Piece.isString).length ≤ 1

instance (ps : List Piece) : Decidable (Enough ps) :=
  inferInstanceAs (Decidable (_ ∨ _))

/-- What `printf` writes. -/
def printf (format arg : Bytes) : Option Bytes :=
  (pieces format).bind fun ps =>
    if Enough ps ∧ (ps.flatMap (Piece.expand arg)).length ≤ intMax then
      some (ps.flatMap (Piece.expand arg))
    else none

/-- The string in the array of `size` bytes that `snprintf` fills. -/
def snprintf (size : Nat) (format arg : Bytes) : Option Bytes :=
  (printf format arg).map (·.take (size - 1))

/-- `%lu`. -/
def unsignedDecimal (n : Nat) : Bytes := (Nat.toDigits 10 n).map fun c => c.toNat.toUInt8

/-- `%d`. -/
def signedDecimal : Int → Bytes
  | .ofNat n => unsignedDecimal n
  | .negSucc n => minus :: unsignedDecimal (n + 1)

/-! ## Formats without specifications -/

theorem pieces_literal {format : Bytes} (h : percent ∉ format) :
    pieces format = some (format.map .byte) := by
  induction format with
  | nil => simp [pieces]
  | cons b s ih =>
    simp only [List.mem_cons, not_or] at h
    rw [pieces, if_neg (Ne.symm h.1), ih h.2]
    rfl

theorem filter_isString_literal (s : Bytes) : (s.map Piece.byte).filter Piece.isString = [] := by
  simp [Piece.isString]

theorem expand_literal (s arg : Bytes) : (s.map Piece.byte).flatMap (Piece.expand arg) = s := by
  simp [List.flatMap_map, Piece.expand]

theorem printf_literal {format : Bytes} (h : percent ∉ format) (hlen : format.length ≤ intMax)
    (arg : Bytes) : printf format arg = some format := by
  have henough : Enough (format.map .byte) := by
    refine .inr ?_
    rw [filter_isString_literal]
    exact Nat.zero_le _
  rw [printf, pieces_literal h, Option.bind_some, expand_literal, if_pos ⟨henough, hlen⟩]

/-- The output is cut to the size of the array, with its NUL. -/
theorem snprintf_literal {format : Bytes} (h : percent ∉ format) (hlen : format.length ≤ intMax)
    (size : Nat) (arg : Bytes) : snprintf size format arg = some (format.take (size - 1)) := by
  rw [snprintf, printf_literal h hlen, Option.map_some]

end Printf

end SisProg
