import Mathlib.Data.List.Perm.Basic
import Mathlib.Data.List.Nodup
import Mathlib.Logic.Function.Basic
import SisProg.Lib.Machine

/-!
# Numbers drawn from a counter

Each thread draws a number from a common counter, keeps it for a while and then puts it
into a line, from whose front the numbers are taken. Numbers are drawn in one order and
may enter the line in another.

* `filed_eq_append`: what was taken and what is in the line is what entered it, in order.
* `drawn_inv`: a number below the counter has entered the line or is held by a thread, and
  nothing happens to it twice (`Tickets.Drawn`).
* `filed_perm`: when no thread holds a number, those that have entered the line are the
  numbers below the counter.
-/

namespace SisProg

structure Tickets (ι : Type) where
  next : Nat
  held : ι → Option Nat
  line : List Nat

inductive TicketAct (ι : Type)
  | draw (i : ι)
  | file (i : ι) (n : Nat)
  | serve (n : Nat)

variable {ι : Type} [DecidableEq ι]

variable (ι) in
def tickets : Machine (Tickets ι) (TicketAct ι) where
  init s := s.next = 0 ∧ (∀ i, s.held i = none) ∧ s.line = []
  enabled s
    | .draw i => s.held i = none
    | .file i n => s.held i = some n
    | .serve n => s.line.head? = some n
  next s
    | .draw i => { s with next := s.next + 1, held := Function.update s.held i (some s.next) }
    | .file i n => { s with held := Function.update s.held i none, line := s.line ++ [n] }
    | .serve _ => { s with line := s.line.tail }

def TicketAct.filed : TicketAct ι → Option Nat
  | .file _ n => some n
  | _ => none

def TicketAct.served : TicketAct ι → Option Nat
  | .serve n => some n
  | _ => none

/-- The numbers that entered the line, in order. -/
def filed (as : List (TicketAct ι)) : List Nat := as.filterMap TicketAct.filed

/-- The numbers taken from its front, in order. -/
def served (as : List (TicketAct ι)) : List Nat := as.filterMap TicketAct.served

omit [DecidableEq ι] in
theorem filed_snoc (as : List (TicketAct ι)) (a : TicketAct ι) :
    filed (as ++ [a]) = filed as ++ a.filed.toList :=
  Machine.filterMap_snoc _ as a

omit [DecidableEq ι] in
theorem served_snoc (as : List (TicketAct ι)) (a : TicketAct ι) :
    served (as ++ [a]) = served as ++ a.served.toList :=
  Machine.filterMap_snoc _ as a

section

variable {s₀ s : Tickets ι} {as : List (TicketAct ι)}

theorem filed_eq_append (h₀ : (tickets ι).init s₀) (h : (tickets ι).Exec s₀ as s) :
    filed as = served as ++ s.line := by
  induction h with
  | nil => exact h₀.2.2.symm
  | @snoc as t a _ he ih =>
    rw [filed_snoc, served_snoc, ih]
    cases a with
    | draw i => simp [TicketAct.filed, TicketAct.served, tickets]
    | file i n => simp [TicketAct.filed, TicketAct.served, tickets]
    | serve n =>
      obtain ⟨rest, hrest⟩ := List.head?_eq_some_iff.mp he
      simp [TicketAct.filed, TicketAct.served, tickets, hrest]

/-- The numbers below the counter are those in the line's history and those in the threads'
hands, and all of these are different. -/
structure Tickets.Drawn (filed : List Nat) (s : Tickets ι) : Prop where
  lt_next : ∀ n, n < s.next ↔ n ∈ filed ∨ ∃ i, s.held i = some n
  nodup : filed.Nodup
  notMem : ∀ i n, s.held i = some n → n ∉ filed
  inj : ∀ i k n, s.held i = some n → s.held k = some n → i = k

theorem held_update {i k : ι} {n : Nat} {x : Option Nat}
    (h : Function.update s.held i x k = some n) : k = i ∧ x = some n ∨ k ≠ i ∧ s.held k = some n := by
  rw [Function.update_apply] at h
  split at h
  · next hk => exact .inl ⟨hk, h⟩
  · next hk => exact .inr ⟨hk, h⟩

namespace Tickets.Drawn

variable {ns : List Nat} {i : ι} {n : Nat}

omit [DecidableEq ι] in
theorem held_lt (h : s.Drawn ns) {k : ι} (hk : s.held k = some n) : n < s.next :=
  (h.lt_next n).mpr (.inr ⟨k, hk⟩)

theorem draw (h : s.Drawn ns) (hi : s.held i = none) :
    ((tickets ι).next s (.draw i)).Drawn ns := by
  refine ⟨fun n => ?_, h.nodup, fun k n hk => ?_, fun k k' n hk hk' => ?_⟩
  · show n < s.next + 1 ↔ n ∈ ns ∨ ∃ k, Function.update s.held i (some s.next) k = some n
    rw [Nat.lt_succ_iff_lt_or_eq, h.lt_next]
    constructor
    · rintro ((hmem | ⟨k, hk⟩) | rfl)
      · exact .inl hmem
      · refine .inr ⟨k, ?_⟩
        rw [Function.update_of_ne, hk]
        rintro rfl
        simp [hi] at hk
      · exact .inr ⟨i, Function.update_self ..⟩
    · rintro (hmem | ⟨k, hk⟩)
      · exact .inl (.inl hmem)
      · rcases held_update hk with ⟨-, hn⟩ | ⟨-, hk⟩
        · exact .inr (Option.some.inj hn).symm
        · exact .inl (.inr ⟨k, hk⟩)
  · rcases held_update hk with ⟨-, hn⟩ | ⟨-, hk⟩
    · rw [← Option.some.inj hn]
      exact fun hmem => Nat.lt_irrefl _ ((h.lt_next _).mpr (.inl hmem))
    · exact h.notMem k n hk
  · rcases held_update hk with ⟨rfl, hn⟩ | ⟨-, hold⟩ <;>
      rcases held_update hk' with ⟨rfl, hn'⟩ | ⟨-, hold'⟩
    · rfl
    · exact absurd (Option.some.inj hn ▸ h.held_lt hold') (Nat.lt_irrefl _)
    · exact absurd (Option.some.inj hn' ▸ h.held_lt hold) (Nat.lt_irrefl _)
    · exact h.inj k k' n hold hold'

theorem file (h : s.Drawn ns) (hi : s.held i = some n) :
    ((tickets ι).next s (.file i n)).Drawn (ns ++ [n]) := by
  have hheld : ∀ k m, Function.update s.held i none k = some m → k ≠ i ∧ s.held k = some m := by
    intro k m hk
    rcases held_update hk with ⟨-, hm⟩ | hk
    · cases hm
    · exact hk
  refine ⟨fun m => ?_, ?_, fun k m hk => ?_, fun k k' m hk hk' => ?_⟩
  · show m < s.next ↔ m ∈ ns ++ [n] ∨ ∃ k, Function.update s.held i none k = some m
    rw [h.lt_next, List.mem_append, List.mem_singleton]
    constructor
    · rintro (hmem | ⟨k, hk⟩)
      · exact .inl (.inl hmem)
      · by_cases hki : k = i
        · rw [hki, hi] at hk
          exact .inl (.inr (Option.some.inj hk).symm)
        · exact .inr ⟨k, by rw [Function.update_of_ne hki, hk]⟩
    · rintro ((hmem | rfl) | ⟨k, hk⟩)
      · exact .inl hmem
      · exact .inr ⟨i, hi⟩
      · exact .inr ⟨k, (hheld k m hk).2⟩
  · rw [List.nodup_append]
    refine ⟨h.nodup, List.nodup_singleton n, ?_⟩
    intro m hm m' hm' heq
    rw [List.mem_singleton.mp hm'] at heq
    exact h.notMem i n hi (heq ▸ hm)
  · obtain ⟨hne, hold⟩ := hheld k m hk
    rw [List.mem_append, List.mem_singleton]
    rintro (hmem | rfl)
    · exact h.notMem k m hold hmem
    · exact hne (h.inj k i m hold hi)
  · exact h.inj k k' m (hheld k m hk).2 (hheld k' m hk').2

end Tickets.Drawn

theorem drawn_inv (h₀ : (tickets ι).init s₀) (h : (tickets ι).Exec s₀ as s) :
    s.Drawn (filed as) := by
  induction h with
  | nil =>
    obtain ⟨hnext, hheld, -⟩ := h₀
    exact ⟨by simp [hnext, hheld, filed], List.nodup_nil, by simp [hheld], by simp [hheld]⟩
  | @snoc as t a _ he ih =>
    rw [filed_snoc]
    cases a with
    | draw i => simpa [TicketAct.filed] using ih.draw he
    | file i n => exact ih.file he
    | serve n =>
      simp only [TicketAct.filed, Option.toList_none, List.append_nil]
      exact ⟨ih.lt_next, ih.nodup, ih.notMem, ih.inj⟩

/-- When no thread holds a number, every number drawn has entered the line, once. -/
theorem filed_perm (h₀ : (tickets ι).init s₀) (h : (tickets ι).Exec s₀ as s)
    (hheld : ∀ i, s.held i = none) : (filed as).Perm (List.range s.next) := by
  have hdrawn := drawn_inv h₀ h
  refine (List.perm_ext_iff_of_nodup hdrawn.nodup List.nodup_range).mpr fun n => ?_
  rw [List.mem_range, hdrawn.lt_next]
  simp [hheld]

end

end SisProg
