import Mathlib.Data.List.Infix

/-!
# Regular expressions

Regular expressions with the two anchors, and what a search for a match answers, or the
question whether the whole subject is one. Only the answer is modelled, not which of
several matches is reported, so the order of alternatives does not matter.

A position in the subject is what is left of it, with a flag that is `true` at the
beginning. `Regex.ends r p` lists the positions at which a match of `r` that starts
at `p` can end.
-/

namespace SisProg

inductive Regex (α : Type)
  | eps
  | bol
  | eol
  | chr (p : α → Bool)
  | seq (r t : Regex α)
  | alt (r t : Regex α)

namespace Regex

variable {α : Type}

/-- `r?`. -/
def opt (r : Regex α) : Regex α := alt r eps

/-- `r{n}`. -/
def times (r : Regex α) : Nat → Regex α
  | 0 => eps
  | n + 1 => seq r (times r n)

/-- `r{0,n}`. -/
def upTo (r : Regex α) : Nat → Regex α
  | 0 => eps
  | n + 1 => opt (seq r (upTo r n))

/-- `r{m,n}`, for `m ≤ n`. -/
def between (r : Regex α) (m n : Nat) : Regex α := seq (times r m) (upTo r (n - m))

/-- A word that stands for itself. -/
def lit [DecidableEq α] (w : List α) : Regex α :=
  w.foldr (fun c r => seq (chr (· == c)) r) eps

def ends : Regex α → Bool × List α → List (Bool × List α)
  | eps, p => [p]
  | bol, p => if p.1 then [p] else []
  | eol, p => if p.2.isEmpty then [p] else []
  | chr _, (_, []) => []
  | chr f, (_, x :: s) => if f x then [(false, s)] else []
  | seq r t, p => (r.ends p).flatMap t.ends
  | alt r t, p => r.ends p ++ t.ends p

/-- A match starts at this position or at a later one. -/
def searchFrom (r : Regex α) : Bool → List α → Bool
  | b, [] => !(r.ends (b, [])).isEmpty
  | b, x :: s => !(r.ends (b, x :: s)).isEmpty || r.searchFrom false s

/-- `regex_search`: a match starts somewhere in the subject. -/
def search (r : Regex α) (s : List α) : Bool := r.searchFrom true s

/-- `regex_match`: a match that starts at the beginning ends at the end. -/
def fullMatch (r : Regex α) (s : List α) : Bool := (r.ends (true, s)).any (·.2.isEmpty)

/-! ## Where matches end -/

theorem mem_ends_bol {p q : Bool × List α} : q ∈ bol.ends p ↔ p.1 = true ∧ q = p := by
  unfold ends
  split
  next h => simp [h]
  next h => simp [h]

theorem mem_ends_seq {r t : Regex α} {p q : Bool × List α} :
    q ∈ (seq r t).ends p ↔ ∃ m, m ∈ r.ends p ∧ q ∈ t.ends m :=
  List.mem_flatMap

theorem mem_ends_opt {r : Regex α} {p q : Bool × List α} :
    q ∈ (opt r).ends p ↔ q ∈ r.ends p ∨ q = p := by
  simp [opt, ends]

theorem mem_ends_lit [DecidableEq α] {w : List α} {p q : Bool × List α} :
    q ∈ (lit w).ends p ↔ p.2 = w ++ q.2 ∧ q.1 = (p.1 && w.isEmpty) := by
  obtain ⟨b, s⟩ := p
  induction w generalizing b s with
  | nil =>
    obtain ⟨c, t⟩ := q
    simp [lit, ends, and_comm, eq_comm]
  | cons x w ih =>
    have hstep : (lit (x :: w)).ends (b, s) = ((chr (· == x)).ends (b, s)).flatMap (lit w).ends :=
      rfl
    rw [hstep]
    cases s with
    | nil => simp [ends]
    | cons y s =>
      by_cases hy : y = x
      · subst hy
        have hone : (chr (· == y)).ends (b, y :: s) = [(false, s)] := by simp [ends]
        rw [hone, List.flatMap_singleton, ih]
        simp
      · simp [ends, hy]

theorem mem_ends_eol {p q : Bool × List α} : q ∈ eol.ends p ↔ p.2 = [] ∧ q = p := by
  unfold ends
  split
  next h => simp [List.isEmpty_iff.mp h]
  next h => simp [mt List.isEmpty_iff.mpr h]

theorem mem_ends_chr_seq {f : α → Bool} {r : Regex α} {p q : Bool × List α} :
    q ∈ (seq (chr f) r).ends p ↔ ∃ x t, f x = true ∧ p.2 = x :: t ∧ q ∈ r.ends (false, t) := by
  obtain ⟨b, s⟩ := p
  cases s with
  | nil => simp [ends]
  | cons y s =>
    by_cases hy : f y = true
    · rw [mem_ends_seq]
      simp only [ends, if_pos hy, List.mem_singleton, exists_eq_left, List.cons.injEq]
      constructor
      · intro hq
        exact ⟨y, s, hy, ⟨rfl, rfl⟩, hq⟩
      · rintro ⟨x, t, -, ⟨rfl, rfl⟩, hq⟩
        exact hq
    · rw [mem_ends_seq]
      simp only [ends, if_neg hy, List.not_mem_nil, false_and, exists_false, List.cons.injEq,
        false_iff]
      rintro ⟨x, t, hx, ⟨rfl, rfl⟩, -⟩
      exact hy hx

/-! ### Repetitions of a class of characters -/

/-- `w` is consumed between `p` and `q`. -/
structure Consumes (f : α → Bool) (w : List α) (p q : Bool × List α) : Prop where
  all : ∀ x ∈ w, f x = true
  left : p.2 = w ++ q.2
  begin : q.1 = (p.1 && w.isEmpty)

theorem consumes_nil {f : α → Bool} {p q : Bool × List α} : Consumes f [] p q ↔ q = p := by
  constructor
  · rintro ⟨-, hleft, hbegin⟩
    exact Prod.ext (hbegin.trans (Bool.and_true _)) hleft.symm
  · rintro rfl
    exact ⟨fun x hx => (List.not_mem_nil hx).elim, rfl, (Bool.and_true _).symm⟩

theorem consumes_cons {f : α → Bool} {x : α} {w : List α} {p q : Bool × List α} :
    Consumes f (x :: w) p q ↔
      ∃ t, f x = true ∧ p.2 = x :: t ∧ Consumes f w (false, t) q := by
  constructor
  · rintro ⟨hall, hleft, hbegin⟩
    rw [List.forall_mem_cons] at hall
    exact ⟨w ++ q.2, hall.1, hleft, hall.2, rfl, hbegin.trans (Bool.and_false _)⟩
  · rintro ⟨t, hx, hleft, hall, ht, hbegin⟩
    refine ⟨List.forall_mem_cons.mpr ⟨hx, hall⟩, ?_, ?_⟩
    · rw [hleft, show t = w ++ q.2 from ht, List.cons_append]
    · exact hbegin.trans (Bool.and_false _).symm

/-- Something is consumed by `r`, after a character. -/
theorem mem_ends_chr_seq_consumes {f : α → Bool} {r : Regex α} {P : Nat → Prop}
    (hr : ∀ p q, q ∈ r.ends p ↔ ∃ w, P w.length ∧ Consumes f w p q) {p q : Bool × List α} :
    q ∈ (seq (chr f) r).ends p ↔ ∃ x w, P w.length ∧ Consumes f (x :: w) p q := by
  simp only [mem_ends_chr_seq, hr, consumes_cons]
  constructor
  · rintro ⟨x, t, hx, ht, w, hw, hc⟩
    exact ⟨x, w, hw, t, hx, ht, hc⟩
  · rintro ⟨x, w, hw, t, hx, ht, hc⟩
    exact ⟨x, t, hx, ht, w, hw, hc⟩

theorem mem_ends_times {f : α → Bool} {n : Nat} {p q : Bool × List α} :
    q ∈ (times (chr f) n).ends p ↔ ∃ w, w.length = n ∧ Consumes f w p q := by
  induction n generalizing p q with
  | zero => simp [times, ends, consumes_nil]
  | succ n ih =>
    rw [times, mem_ends_chr_seq_consumes (P := (· = n)) fun _ _ => ih]
    constructor
    · rintro ⟨x, w, rfl, hc⟩
      exact ⟨x :: w, rfl, hc⟩
    · rintro ⟨w, hw, hc⟩
      obtain ⟨x, w, rfl⟩ := List.exists_cons_of_length_eq_add_one hw
      exact ⟨x, w, Nat.succ.inj hw, hc⟩

theorem mem_ends_upTo {f : α → Bool} {n : Nat} {p q : Bool × List α} :
    q ∈ (upTo (chr f) n).ends p ↔ ∃ w, w.length ≤ n ∧ Consumes f w p q := by
  induction n generalizing p q with
  | zero => simp [upTo, ends, consumes_nil]
  | succ n ih =>
    rw [upTo, mem_ends_opt, mem_ends_chr_seq_consumes (P := (· ≤ n)) fun _ _ => ih]
    constructor
    · rintro (⟨x, w, hw, hc⟩ | rfl)
      · exact ⟨x :: w, Nat.succ_le_succ hw, hc⟩
      · exact ⟨[], Nat.zero_le _, consumes_nil.mpr rfl⟩
    · rintro ⟨w, hw, hc⟩
      cases w with
      | nil => exact .inr (consumes_nil.mp hc)
      | cons x w => exact .inl ⟨x, w, Nat.le_of_succ_le_succ hw, hc⟩

theorem isEmpty_append (v w : List α) : (v ++ w).isEmpty = (v.isEmpty && w.isEmpty) := by
  cases v <;> rfl

theorem Consumes.append {f : α → Bool} {v w : List α} {p m q : Bool × List α}
    (hv : Consumes f v p m) (hw : Consumes f w m q) : Consumes f (v ++ w) p q where
  all := List.forall_mem_append.mpr ⟨hv.all, hw.all⟩
  left := by rw [hv.left, hw.left, List.append_assoc]
  begin := by rw [hw.begin, hv.begin, isEmpty_append, Bool.and_assoc]

/-- What is consumed can be consumed in two parts. -/
theorem Consumes.split {f : α → Bool} {v w : List α} {p q : Bool × List α}
    (h : Consumes f (v ++ w) p q) : ∃ m, Consumes f v p m ∧ Consumes f w m q := by
  obtain ⟨hv, hw⟩ := List.forall_mem_append.mp h.all
  refine ⟨(p.1 && v.isEmpty, w ++ q.2), ⟨hv, ?_, rfl⟩, hw, rfl, ?_⟩
  · rw [h.left, List.append_assoc]
  · rw [h.begin, isEmpty_append, Bool.and_assoc]

theorem mem_ends_between {f : α → Bool} {m n : Nat} (h : m ≤ n) {p q : Bool × List α} :
    q ∈ (between (chr f) m n).ends p ↔
      ∃ w, (m ≤ w.length ∧ w.length ≤ n) ∧ Consumes f w p q := by
  rw [between, mem_ends_seq]
  simp only [mem_ends_times, mem_ends_upTo]
  constructor
  · rintro ⟨i, ⟨v, rfl, hv⟩, w, hw, hc⟩
    refine ⟨v ++ w, ?_, hv.append hc⟩
    rw [List.length_append]
    exact ⟨Nat.le_add_right _ _, (Nat.le_sub_iff_add_le' h).mp hw⟩
  · rintro ⟨w, ⟨hm, hn⟩, hc⟩
    rw [← List.take_append_drop m w] at hc
    obtain ⟨i, hv, hc⟩ := hc.split
    refine ⟨i, ⟨w.take m, List.length_take_of_le hm, hv⟩, w.drop m, ?_, hc⟩
    rw [List.length_drop]
    exact Nat.sub_le_sub_right hn m

/-! ## Searching -/

theorem isEmpty_ends_eq_false {r : Regex α} {p : Bool × List α} :
    (!(r.ends p).isEmpty) = true ↔ ∃ q, q ∈ r.ends p := by
  rw [Bool.not_eq_true', List.isEmpty_eq_false_iff_exists_mem]

theorem searchFrom_iff {r : Regex α} {b : Bool} {s : List α} :
    r.searchFrom b s = true ↔
      ∃ u v, s = u ++ v ∧ ∃ q, q ∈ r.ends (b && u.isEmpty, v) := by
  induction s generalizing b with
  | nil =>
    rw [searchFrom, isEmpty_ends_eq_false]
    constructor
    · rintro ⟨q, hq⟩
      exact ⟨[], [], rfl, q, by simpa using hq⟩
    · rintro ⟨u, v, huv, q, hq⟩
      obtain ⟨rfl, rfl⟩ := List.append_eq_nil_iff.mp huv.symm
      exact ⟨q, by simpa using hq⟩
  | cons x s ih =>
    rw [searchFrom, Bool.or_eq_true, isEmpty_ends_eq_false, ih]
    constructor
    · rintro (⟨q, hq⟩ | ⟨u, v, rfl, q, hq⟩)
      · exact ⟨[], x :: s, rfl, q, by simpa using hq⟩
      · exact ⟨x :: u, v, rfl, q, by simpa using hq⟩
    · rintro ⟨u, v, hs, q, hq⟩
      cases u with
      | nil =>
        obtain rfl : x :: s = v := hs
        exact .inl ⟨q, by simpa using hq⟩
      | cons y u =>
        obtain ⟨rfl, rfl⟩ := List.cons.inj hs
        exact .inr ⟨u, v, rfl, q, by simpa using hq⟩

/-- An anchored expression is matched at the beginning or nowhere. -/
theorem search_bol {r : Regex α} {s : List α} :
    (seq bol r).search s = true ↔ ∃ q, q ∈ r.ends (true, s) := by
  rw [search, searchFrom_iff]
  constructor
  · rintro ⟨u, v, rfl, q, hq⟩
    obtain ⟨m, hm, hq⟩ := mem_ends_seq.mp hq
    obtain ⟨hu, rfl⟩ := mem_ends_bol.mp hm
    obtain rfl : u = [] := by simpa using hu
    exact ⟨q, hq⟩
  · rintro ⟨q, hq⟩
    exact ⟨[], s, rfl, q, mem_ends_seq.mpr ⟨_, mem_ends_bol.mpr ⟨rfl, rfl⟩, hq⟩⟩

/-- A word is found exactly in the subjects that contain it. -/
theorem search_lit [DecidableEq α] {w s : List α} : (lit w).search s = true ↔ w <:+: s := by
  rw [search, searchFrom_iff]
  constructor
  · rintro ⟨u, v, rfl, q, hq⟩
    obtain ⟨hv, -⟩ := mem_ends_lit.mp hq
    obtain rfl : v = w ++ q.2 := hv
    exact ⟨u, q.2, by simp⟩
  · rintro ⟨u, v, rfl⟩
    refine ⟨u, w ++ v, by simp, (_, v), mem_ends_lit.mpr ⟨rfl, rfl⟩⟩

/-! ## Matching the whole subject -/

theorem fullMatch_iff {r : Regex α} {s : List α} :
    r.fullMatch s = true ↔ ∃ b, (b, []) ∈ r.ends (true, s) := by
  rw [fullMatch, List.any_eq_true]
  constructor
  · rintro ⟨⟨b, t⟩, hmem, ht⟩
    obtain rfl := List.isEmpty_iff.mp ht
    exact ⟨b, hmem⟩
  · rintro ⟨b, hmem⟩
    exact ⟨(b, []), hmem, rfl⟩

/-- A class of characters, repeated. -/
theorem fullMatch_between {f : α → Bool} {m n : Nat} (h : m ≤ n) {s : List α} :
    (seq bol (seq (between (chr f) m n) eol)).fullMatch s = true ↔
      (∀ x ∈ s, f x = true) ∧ m ≤ s.length ∧ s.length ≤ n := by
  simp only [fullMatch_iff, mem_ends_seq, mem_ends_bol, mem_ends_eol, mem_ends_between h]
  constructor
  · rintro ⟨b, p, ⟨-, rfl⟩, q, ⟨w, hw, hall, hleft, -⟩, hq, -⟩
    obtain rfl : s = w := by simpa [hq] using hleft
    exact ⟨hall, hw⟩
  · rintro ⟨hall, hlen⟩
    exact ⟨_, (true, s), ⟨trivial, rfl⟩, (_, []),
      ⟨s, hlen, hall, (List.append_nil s).symm, rfl⟩, rfl, rfl⟩

end Regex

end SisProg
