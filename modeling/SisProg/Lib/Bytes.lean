import Mathlib.Data.List.Infix
import Mathlib.Data.List.TakeWhile

/-!
# Bytes

Byte strings, as C and C++ handle them: `std::string` may hold any byte, a C
string ends before its first NUL.
-/

namespace SisProg

/-- A byte string. -/
abbrev Bytes := List UInt8

namespace Bytes

/-- The bytes of a literal of the source, which is ASCII. -/
def ascii (s : String) : Bytes := s.toList.map fun c => c.toNat.toUInt8

/-- What a C function sees of a string that is passed as `char *`. -/
def cstr (s : Bytes) : Bytes := s.takeWhile (· ≠ 0)

theorem cstr_prefix_self (s : Bytes) : s.cstr <+: s :=
  List.takeWhile_prefix _

/-- A part without NUL is seen, and what follows it as far as its own first NUL. -/
theorem cstr_append {s : Bytes} (h : ∀ b ∈ s, b ≠ 0) (t : Bytes) :
    (s ++ t).cstr = s ++ t.cstr :=
  List.takeWhile_append_of_pos fun b hb => by simpa using h b hb

theorem cstr_eq_self {s : Bytes} (h : 0 ∉ s) : s.cstr = s := by
  refine List.takeWhile_eq_self_iff.mpr ?_
  intro b hb
  have hne : b ≠ 0 := fun h0 => h (h0 ▸ hb)
  simpa using hne

/-- An array is an empty string if it begins with a NUL. -/
theorem cstr_eq_nil_iff {s : Bytes} : 0 ∈ s ∧ s.cstr = [] ↔ s[0]? = some 0 := by
  cases s with
  | nil => simp
  | cons b s => by_cases hb : b = 0 <;> simp [cstr, hb]

/-- `std::string::find`: the first position at which `pat` occurs. -/
def find : (s pat : Bytes) → Option Nat
  | [], pat => if pat = [] then some 0 else none
  | b :: s, pat => if pat <+: b :: s then some 0 else (find s pat).map (· + 1)

theorem find_isSome_iff {pat s : Bytes} : (s.find pat).isSome ↔ pat <:+: s := by
  induction s with
  | nil =>
    unfold find
    split <;> simp_all
  | cons b s ih =>
    rw [List.infix_cons_iff]
    unfold find
    split
    next h => simp [h]
    next h => simp [h, ih]

theorem prefix_drop_of_find {pat s : Bytes} {i : Nat} (h : s.find pat = some i) :
    pat <+: s.drop i := by
  induction s generalizing i with
  | nil =>
    unfold find at h
    split at h
    next hp => simp [hp]
    next => cases h
  | cons b s ih =>
    unfold find at h
    split at h
    next hp =>
      obtain rfl : 0 = i := by simpa using h
      exact hp
    next =>
      obtain ⟨j, hj, rfl⟩ := Option.map_eq_some_iff.mp h
      exact ih hj

/-! ## Cutting at a separator -/

/-- What stands before the first occurrence of `sep`, and what follows it. -/
def cut (sep : Bytes) : Bytes → Option (Bytes × Bytes)
  | [] => none
  | b :: s =>
    if sep <+: b :: s then some ([], (b :: s).drop sep.length)
    else (cut sep s).map fun r => (b :: r.1, r.2)

theorem cut_self {sep : Bytes} (h : sep ≠ []) (t : Bytes) : cut sep (sep ++ t) = some ([], t) := by
  cases sep with
  | nil => exact absurd rfl h
  | cons c sep =>
    rw [List.cons_append, cut, if_pos ⟨t, rfl⟩, ← List.cons_append, List.drop_left]

/-- The separator does not occur at the front of `b :: s`. -/
theorem cut_cons {sep s s' t : Bytes} {b : UInt8} (h : ¬ sep <+: b :: s)
    (hs : cut sep s = some (s', t)) : cut sep (b :: s) = some (b :: s', t) := by
  rw [cut, if_neg h, hs]
  rfl

/-- A part without the first byte of the separator is kept whole. -/
theorem cut_append {c : UInt8} {sep s t s' t' : Bytes} (h : c ∉ s)
    (ht : cut (c :: sep) t = some (s', t')) : cut (c :: sep) (s ++ t) = some (s ++ s', t') := by
  induction s with
  | nil => exact ht
  | cons b s ih =>
    simp only [List.mem_cons, not_or] at h
    refine cut_cons ?_ (ih h.2)
    intro hp
    exact h.1 (List.cons_prefix_cons.mp hp).1

/-- The first occurrence is the one that is written out, if nothing before it begins
like the separator. -/
theorem cut_append_sep {c : UInt8} {sep s : Bytes} (h : c ∉ s) (t : Bytes) :
    cut (c :: sep) (s ++ (c :: sep ++ t)) = some (s, t) := by
  have hcut := cut_append h (cut_self (List.cons_ne_nil c sep) t)
  rwa [List.append_nil] at hcut

end Bytes

end SisProg
