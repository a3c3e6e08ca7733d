import Mathlib.Algebra.Order.BigOperators.Group.Finset
import Mathlib.Data.Multiset.Filter
import Mathlib.Tactic.GCongr
import SisProg.Lib.Machine
import SisProg.Lib.Threads

/-!
# A dispatcher: items wait, are taken by hands, and are started

The abstract machine of a priority work queue. Items are put into a bag at any
time; a hand that is empty takes an item with no other item of the bag before
it; a hand that holds an item starts it. `before` is any relation.

* `dispatcher_conserves`: what was put is waiting, in a hand, or started.
* `dispatcher_start_order`: an item that waits and goes before one in a hand was
  put after that one was taken.
* `dispatcher_take_order`: of two items that wait, the one that goes before the
  other is taken first.
* `dispatcher_starts_sorted`: one hand starts the items in order, if all were put
  before it took the first.
-/

namespace SisProg

/-! ## The machine -/

/-- Items wait in a bag; every hand is empty or holds one item. -/
structure Dispatch (ι α : Type) where
  waiting : Multiset α
  hand : ι → Option α

inductive DispatchAct (ι α : Type)
  | put (a : α)
  | take (i : ι) (a : α)
  | start (i : ι) (a : α)

namespace Dispatch

variable {ι α : Type}

def putItem : DispatchAct ι α → Option α
  | .put a => some a
  | _ => none

def startItem : DispatchAct ι α → Option α
  | .start _ a => some a
  | _ => none

def takeItem : DispatchAct ι α → Option α
  | .take _ a => some a
  | _ => none

/-- The items put during a run. -/
def puts (as : List (DispatchAct ι α)) : Multiset α := ↑(as.filterMap putItem)

/-- The items started during a run. -/
def starts (as : List (DispatchAct ι α)) : Multiset α := ↑(as.filterMap startItem)

/-- The items taken during a run. -/
def takes (as : List (DispatchAct ι α)) : Multiset α := ↑(as.filterMap takeItem)

/-- Nothing is put after something was taken. -/
def PutsFirst (as : List (DispatchAct ι α)) : Prop :=
  as.Pairwise fun a b => (takeItem a).isSome = true → putItem b = none

/-- The contents of a hand, as a bag of at most one item. -/
def held : Option α → Multiset α
  | none => 0
  | some a => {a}

@[simp] theorem held_none : held (none : Option α) = 0 := rfl
@[simp] theorem held_some (a : α) : held (some a) = {a} := rfl

@[simp] theorem puts_nil : puts ([] : List (DispatchAct ι α)) = 0 := rfl
@[simp] theorem starts_nil : starts ([] : List (DispatchAct ι α)) = 0 := rfl

theorem puts_append (as bs : List (DispatchAct ι α)) : puts (as ++ bs) = puts as + puts bs := by
  simp [puts]

theorem starts_append (as bs : List (DispatchAct ι α)) :
    starts (as ++ bs) = starts as + starts bs := by
  simp [starts]

theorem takes_append (as bs : List (DispatchAct ι α)) :
    takes (as ++ bs) = takes as + takes bs := by
  simp [takes]

@[simp] theorem puts_put (a : α) : puts [(.put a : DispatchAct ι α)] = {a} := rfl
@[simp] theorem puts_take (i : ι) (a : α) : puts [.take i a] = 0 := rfl
@[simp] theorem puts_start (i : ι) (a : α) : puts [.start i a] = 0 := rfl
@[simp] theorem starts_put (a : α) : starts [(.put a : DispatchAct ι α)] = 0 := rfl
@[simp] theorem starts_take (i : ι) (a : α) : starts [.take i a] = 0 := rfl
@[simp] theorem takes_put (a : α) : takes [(.put a : DispatchAct ι α)] = 0 := rfl
@[simp] theorem takes_take (i : ι) (a : α) : takes [.take i a] = {a} := rfl
@[simp] theorem takes_start (i : ι) (a : α) : takes [.start i a] = 0 := rfl
@[simp] theorem starts_start (i : ι) (a : α) : starts [.start i a] = {a} := rfl

end Dispatch

open Dispatch

variable {ι α : Type} [DecidableEq ι] [DecidableEq α]

/-- `before a b`: the item `a` must be taken before `b` when both wait. -/
def dispatcher (before : α → α → Prop) : Machine (Dispatch ι α) (DispatchAct ι α) where
  init s := s.waiting = 0 ∧ ∀ i, s.hand i = none
  enabled s
    | .put _ => True
    | .take i a => s.hand i = none ∧ a ∈ s.waiting ∧ ∀ b ∈ s.waiting, ¬ before b a
    | .start i a => s.hand i = some a
  next s
    | .put a => { s with waiting := a ::ₘ s.waiting }
    | .take i a => ⟨s.waiting.erase a, Function.update s.hand i (some a)⟩
    | .start i _ => { s with hand := Function.update s.hand i none }

/-! ## Conservation -/

/-- No item is lost and none is doubled: what was put is waiting, in a hand, or
was started. -/
theorem dispatcher_conserves [Fintype ι] {before : α → α → Prop} {s t : Dispatch ι α}
    {as : List (DispatchAct ι α)} (hs : (dispatcher before).init s)
    (h : (dispatcher before).Exec s as t) :
    puts as = t.waiting + ∑ i, held (t.hand i) + starts as := by
  induction h with
  | nil => simp [hs.1, hs.2]
  | @snoc as t a _ he ih =>
    rw [puts_append, starts_append, ih]
    cases a with
    | put a =>
      simp only [dispatcher, puts_put, starts_put, ← Multiset.singleton_add]
      abel
    | take i a =>
      obtain ⟨hhand, hmem, -⟩ := he
      have hsum := sum_update_add held t.hand i (some a)
      rw [hhand, held_none, add_zero, held_some] at hsum
      have hcons : t.waiting = {a} + t.waiting.erase a := by
        rw [Multiset.singleton_add, Multiset.cons_erase hmem]
      simp only [dispatcher, puts_take, starts_take, add_zero, hsum]
      nth_rewrite 1 [hcons]
      abel
    | start i a =>
      have hsum := sum_update_add held t.hand i none
      rw [(he : t.hand i = some a), held_some, held_none, add_zero] at hsum
      simp only [dispatcher, puts_start, starts_start, add_zero, ← hsum]
      abel

/-! ## Order -/

/-- While a hand holds `u`, the run contains the step that took it; the hand has
taken nothing since, and every waiting item that goes before `u` was put after
that step. -/
theorem dispatcher_start_order {before : α → α → Prop} [DecidableRel before]
    {s t : Dispatch ι α} {as : List (DispatchAct ι α)} (hs : (dispatcher before).init s)
    (h : (dispatcher before).Exec s as t) {i : ι} {u : α} (hu : t.hand i = some u) :
    ∃ as₁ as₂, as = as₁ ++ .take i u :: as₂ ∧ (∀ v, .take i v ∉ as₂) ∧
      t.waiting.filter (fun b => before b u) ≤ puts as₂ := by
  induction h with
  | nil => simp [hs.2] at hu
  | @snoc as t a _ he ih =>
    -- a step that keeps `u` in the hand, and adds to the smaller items only what it puts
    have keep (hhand : t.hand i = some u) (hnot : ∀ v, a ≠ .take i v)
        (hle : ((dispatcher before).next t a).waiting.filter (fun b => before b u)
          ≤ t.waiting.filter (fun b => before b u) + puts [a]) :
        ∃ as₁ as₂, as ++ [a] = as₁ ++ .take i u :: as₂ ∧ (∀ v, .take i v ∉ as₂) ∧
          ((dispatcher before).next t a).waiting.filter (fun b => before b u) ≤ puts as₂ := by
      obtain ⟨as₁, as₂, rfl, hno, hsub⟩ := ih hhand
      refine ⟨as₁, as₂ ++ [a], by simp, ?_, ?_⟩
      · intro v hv
        rcases List.mem_append.mp hv with hv | hv
        · exact hno v hv
        · exact hnot v (List.mem_singleton.mp hv).symm
      · rw [puts_append]
        exact hle.trans (by gcongr)
    cases a with
    | put b =>
      refine keep hu (by simp) ?_
      simp only [dispatcher, puts_put, ← Multiset.singleton_add, Multiset.filter_add]
      rw [add_comm]
      gcongr
      exact Multiset.filter_le _ _
    | take k b =>
      rcases eq_or_ne k i with rfl | hk
      · have hb : b = u := by simpa [dispatcher] using hu
        subst hb
        refine ⟨as, [], rfl, by simp, ?_⟩
        have hnone : (t.waiting.erase b).filter (fun c => before c b) = 0 :=
          Multiset.filter_eq_nil.mpr fun c hc => he.2.2 c (Multiset.mem_of_mem_erase hc)
        simp [dispatcher, hnone]
      · refine keep (by simpa [dispatcher, hk.symm] using hu) ?_ ?_
        · intro v hv
          exact hk (by injection hv)
        · simp only [dispatcher, puts_take, add_zero]
          exact Multiset.filter_le_filter _ (Multiset.erase_le b _)
    | start k b =>
      rcases eq_or_ne k i with rfl | hk
      · simp [dispatcher] at hu
      · refine keep (by simpa [dispatcher, hk.symm] using hu) (by simp) ?_
        simp [dispatcher]

/-- An item leaves the bag only when it is taken. -/
theorem waiting_le {before : α → α → Prop} {s t : Dispatch ι α} {as : List (DispatchAct ι α)}
    (h : (dispatcher before).Exec s as t) : s.waiting ≤ t.waiting + takes as := by
  induction h with
  | nil => exact Multiset.le_add_right _ _
  | @snoc as t a _ he ih =>
    refine ih.trans ?_
    rw [takes_append]
    cases a with
    | put b =>
      simp only [dispatcher, takes_put, add_zero]
      gcongr
      exact Multiset.le_cons_self _ _
    | take i b =>
      have hcons : t.waiting = t.waiting.erase b + {b} := by
        rw [Multiset.add_comm, Multiset.singleton_add, Multiset.cons_erase he.2.1]
      simp only [dispatcher, takes_take]
      nth_rewrite 1 [hcons]
      rw [add_assoc, add_comm (takes as)]
    | start i b => simp only [dispatcher, takes_start, add_zero, le_refl]

/-- An item that waits is taken, in all its copies, before an item that it goes
before. -/
theorem dispatcher_take_order {before : α → α → Prop} {s t : Dispatch ι α}
    {as₁ as₂ : List (DispatchAct ι α)} {i : ι} {a b : α}
    (h : (dispatcher before).Exec s (as₁ ++ .take i b :: as₂) t) (hab : before a b) :
    s.waiting.count a ≤ (takes as₁).count a := by
  obtain ⟨u, hrun, ⟨-, -, htop⟩, -⟩ := h.enabled_of_cons
  have hgone : u.waiting.count a = 0 := Multiset.count_eq_zero.mpr fun hmem => htop a hmem hab
  have hle := Multiset.count_le_of_le a (waiting_le hrun)
  rwa [Multiset.count_add, hgone, Nat.zero_add] at hle

/-! ## One hand -/

/-- What has been started is in order, and nothing that is held or waits goes before
any of it; and nothing that waits goes before what is held. -/
structure InOrder (before : α → α → Prop) (as : List (DispatchAct ι α)) (t : Dispatch ι α) :
    Prop where
  starts : (as.filterMap startItem).Pairwise fun a b => ¬ before b a
  waiting : ∀ a ∈ as.filterMap startItem, ∀ b ∈ t.waiting, ¬ before b a
  held : ∀ a ∈ as.filterMap startItem, ∀ i, ∀ b ∈ t.hand i, ¬ before b a
  taken : ∀ i, ∀ a ∈ t.hand i, ∀ b ∈ t.waiting, ¬ before b a

/-- As long as nothing is taken nothing is started either. -/
theorem untouched {before : α → α → Prop} {s t : Dispatch ι α} {as : List (DispatchAct ι α)}
    (hs : (dispatcher before).init s) (h : (dispatcher before).Exec s as t)
    (hno : ∀ a ∈ as, takeItem a = none) :
    as.filterMap startItem = [] ∧ ∀ i, t.hand i = none := by
  induction h with
  | nil => exact ⟨rfl, hs.2⟩
  | @snoc as t a _ he ih =>
    simp only [List.mem_append, List.mem_singleton] at hno
    obtain ⟨hstarts, hhand⟩ := ih fun b hb => hno b (.inl hb)
    cases a with
    | put b => exact ⟨by simp [hstarts, startItem], hhand⟩
    | take i b => cases hno _ (.inr rfl)
    | start i b =>
      have hb : t.hand i = some b := he
      rw [hhand i] at hb
      cases hb

/-- The step of a single hand. -/
theorem inOrder_next [Subsingleton ι] {before : α → α → Prop} {t : Dispatch ι α}
    {as : List (DispatchAct ι α)} {a : DispatchAct ι α} (h : InOrder before as t)
    (he : (dispatcher before).enabled t a) (ha : putItem a = none) :
    InOrder before (as ++ [a]) ((dispatcher before).next t a) := by
  obtain ⟨hstarts, hwaiting, hheld, htaken⟩ := h
  cases a with
  | put b => cases ha
  | take i b =>
    obtain ⟨-, hmem, htop⟩ := he
    have hfm : (as ++ [DispatchAct.take i b]).filterMap startItem = as.filterMap startItem := by
      simp [startItem]
    have hhand : ∀ k, ∀ c ∈ Function.update t.hand i (some b) k, c = b := by
      intro k c hc
      obtain rfl := Subsingleton.elim k i
      simpa [eq_comm] using hc
    refine ⟨?_, ?_, ?_, ?_⟩
    · rw [hfm]
      exact hstarts
    · rw [hfm]
      exact fun c hc d hd => hwaiting c hc d (Multiset.mem_of_mem_erase hd)
    · rw [hfm]
      intro c hc k d hd
      rw [hhand k d hd]
      exact hwaiting c hc b hmem
    · intro k c hc d hd
      rw [hhand k c hc]
      exact htop d (Multiset.mem_of_mem_erase hd)
  | start i b =>
    have hb : t.hand i = some b := he
    have hfm : (as ++ [DispatchAct.start i b]).filterMap startItem =
        as.filterMap startItem ++ [b] := by
      simp [startItem]
    have hempty : ∀ k, Function.update t.hand i none k = none := by
      intro k
      obtain rfl := Subsingleton.elim k i
      simp
    refine ⟨?_, ?_, ?_, ?_⟩
    · rw [hfm, List.pairwise_append]
      refine ⟨hstarts, List.pairwise_singleton _ _, ?_⟩
      intro c hc d hd
      rw [List.mem_singleton.mp hd]
      exact hheld c hc i b hb
    · rw [hfm]
      intro c hc d hd
      rcases List.mem_append.mp hc with hc | hc
      · exact hwaiting c hc d hd
      · rw [List.mem_singleton.mp hc]
        exact htaken i b hb d hd
    · intro c _ k d hd
      simp [dispatcher, hempty] at hd
    · intro k c hc
      simp [dispatcher, hempty] at hc

/-- One hand starts the items in order, if all are put before it takes the first. -/
theorem dispatcher_starts_sorted [Subsingleton ι] {before : α → α → Prop} {s t : Dispatch ι α}
    {as : List (DispatchAct ι α)} (hs : (dispatcher before).init s)
    (h : (dispatcher before).Exec s as t) (hfirst : PutsFirst as) : InOrder before as t := by
  induction h with
  | nil => exact ⟨.nil, by simp, by simp, by simp [hs.2]⟩
  | @snoc as t a hrun he ih =>
    obtain ⟨hfirst, -, hlast⟩ := List.pairwise_append.mp hfirst
    cases hput : putItem a with
    | none => exact inOrder_next (ih hfirst) he hput
    | some b =>
      have hno : ∀ c ∈ as ++ [a], takeItem c = none := by
        intro c hc
        rcases List.mem_append.mp hc with hc | hc
        · by_contra htake
          have hnone := hlast c hc a (List.mem_singleton_self a)
            (Option.isSome_iff_ne_none.mpr htake)
          rw [hput] at hnone
          cases hnone
        · rw [List.mem_singleton.mp hc]
          cases a with
          | put => rfl
          | take | start => cases hput
      obtain ⟨hstarts, hhand⟩ := untouched hs (hrun.snoc he) hno
      exact ⟨by simp [hstarts], by simp [hstarts], by simp [hstarts], by simp [hhand]⟩

end SisProg
