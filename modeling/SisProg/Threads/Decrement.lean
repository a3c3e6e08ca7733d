import Mathlib.Algebra.Order.BigOperators.Group.Finset
import SisProg.Lib.Sections

/-!
# Counting with an atomic

The threads of `atomic/p1.cpp` run `decrement`: in each iteration they take one from a
`std::atomic<int>`, and behind the loop they print what they load then. An operation on the
atomic is a section of one access, for which no mutex is needed.

`one_prints_total`: what a thread prints lies between its own share and the total, and one
of them prints the total, though the others may still be in their loops when it is loaded.
-/

namespace SisProg.Threads.Decrement

open Sections (Section Atomic atomic)

/-- `counter--`. What is local to a thread is the value that it prints. -/
def decrement : Section Int32 (Option Int32) := [fun x l => (x - 1, l)]

/-- The load in `<< counter`. -/
def load : Section Int32 (Option Int32) := [fun x _ => (x, some x)]

variable {ι : Type} [DecidableEq ι]

/-- The thread `i`, whose loop has `k` iterations to go. -/
def rest (k : Nat) : List (Section Int32 (Option Int32)) := List.replicate k decrement ++ [load]

def start (num : ι → Nat) : Atomic ι Int32 (Option Int32) where
  shared := 0
  locals _ := none
  todo i := rest (num i)

/-- The thread `i` runs the loop for `num i` iterations. -/
def decrementing (num : ι → Nat) : Machine (Atomic ι Int32 (Option Int32)) ι :=
  atomic (fun i => rest (num i)) 0 fun _ => none

variable {num : ι → Nat} {s : Atomic ι Int32 (Option Int32)} {i : ι} {as : List ι}

theorem next_decrement {k : Nat} (h : s.todo i = rest (k + 1)) :
    (decrementing num).next s i =
      { s with shared := s.shared - 1, todo := Function.update s.todo i (rest k) } := by
  rw [rest, List.replicate_succ, List.cons_append] at h
  simp [decrementing, atomic, Atomic.next, h, decrement, Sections.perform, rest]

theorem next_load (h : s.todo i = rest 0) :
    (decrementing num).next s i =
      { s with
        locals := Function.update s.locals i (some s.shared)
        todo := Function.update s.todo i [] } := by
  simp [decrementing, atomic, Atomic.next, h, load, Sections.perform, rest]

variable [Fintype ι] {left : ι → Nat}

/-- How many iterations were made, when each thread has `left` to go. -/
def made (num left : ι → Nat) : Nat := ∑ i, (num i - left i)

omit [DecidableEq ι] in
theorem made_of_zero (h : ∀ i, left i = 0) : made num left = ∑ i, num i :=
  Finset.sum_congr rfl fun i _ => by rw [h i, Nat.sub_zero]

omit [DecidableEq ι] in
theorem made_le : made num left ≤ ∑ i, num i := Finset.sum_le_sum fun _ _ => Nat.sub_le _ _

omit [DecidableEq ι] in
/-- A thread that is behind its loop has made its share. -/
theorem share_le (h : left i = 0) : num i ≤ made num left := by
  have hle := Finset.single_le_sum (f := fun i => num i - left i) (fun _ _ => Nat.zero_le _)
    (Finset.mem_univ i)
  rwa [h, Nat.sub_zero] at hle

theorem made_update {k : Nat} (hk : left i = k + 1) (hle : left i ≤ num i) :
    made num (Function.update left i k) = made num left + 1 := by
  have hsum := sum_update_add_of_index (fun i l => num i - l) left i k
  unfold made
  omega

/-- `left i` iterations of the thread `i` are to come. -/
structure Inv (num : ι → Nat) (s : Atomic ι Int32 (Option Int32)) (left : ι → Nat) : Prop where
  le : ∀ i, left i ≤ num i
  todo : ∀ i, s.todo i = rest (left i) ∧ s.locals i = none ∨
    s.todo i = [] ∧ left i = 0 ∧ (s.locals i).isSome
  shared : s.shared = Int32.ofInt (-made num left)
  printed : ∀ i v, s.locals i = some v → ∃ k : Nat, v = Int32.ofInt (-k) ∧ num i ≤ k ∧
    k ≤ ∑ i, num i
  /- who has made the last iteration of all has not loaded yet, or the total -/
  last : Nonempty ι → (∀ i, left i = 0) →
    ∃ i, s.locals i = none ∨ s.locals i = some (Int32.ofInt (-(∑ i, num i : Nat)))

omit [DecidableEq ι] in
theorem inv_start (num : ι → Nat) : Inv num (start num) num where
  le _ := Nat.le_refl _
  todo _ := .inl ⟨rfl, rfl⟩
  shared := by simp [made, start]
  printed _ _ h := by cases h
  last := fun ⟨i⟩ _ => ⟨i, .inl rfl⟩

theorem Inv.decrement {k : Nat} (h : Inv num s left) (hk : left i = k + 1)
    (hi : s.todo i = rest (left i) ∧ s.locals i = none) :
    Inv num ((decrementing num).next s i) (Function.update left i k) := by
  rw [hk] at hi
  rw [next_decrement hi.1]
  refine ⟨?_, ?_, ?_, h.printed, fun _ _ => ⟨i, .inl hi.2⟩⟩
  · intro j
    rcases eq_or_ne j i with rfl | hne
    · rw [Function.update_self]
      exact Nat.le_of_succ_le (hk.symm.trans_le (h.le j))
    · rw [Function.update_of_ne hne]
      exact h.le j
  · intro j
    rcases eq_or_ne j i with rfl | hne
    · rw [Function.update_self]
      exact .inl ⟨Function.update_self .., hi.2⟩
    · simp only [Function.update_of_ne hne]
      exact h.todo j
  · show s.shared - 1 = _
    rw [h.shared, made_update hk (h.le i), Nat.cast_add, Int.neg_add, ← Int.sub_eq_add_neg,
      Int32.ofInt_sub]
    rfl

theorem Inv.load (h : Inv num s left) (hzero : left i = 0) (hi : s.todo i = rest 0) :
    Inv num ((decrementing num).next s i) left := by
  rw [next_load hi]
  refine ⟨h.le, ?_, h.shared, ?_, ?_⟩
  · intro j
    rcases eq_or_ne j i with rfl | hne
    · refine .inr ⟨Function.update_self .., hzero, ?_⟩
      simp only [Function.update_self, Option.isSome_some]
    · simp only [Function.update_of_ne hne]
      exact h.todo j
  · intro j v hv
    rcases eq_or_ne j i with rfl | hne
    · simp only [Function.update_self] at hv
      exact ⟨made num left, (Option.some.inj hv).symm.trans h.shared, share_le hzero, made_le⟩
    · simp only [Function.update_of_ne hne] at hv
      exact h.printed j v hv
  · intro _ hall
    refine ⟨i, .inr ?_⟩
    simp only [Function.update_self]
    rw [h.shared, made_of_zero hall]

theorem inv (h : (decrementing num).Reachable s) : ∃ left, Inv num s left := by
  refine h.induct (P := fun s => ∃ left, Inv num s left) ?_ ?_
  · rintro s rfl
    exact ⟨num, inv_start num⟩
  · rintro s i _ ⟨left, hs⟩ he
    rcases hs.todo i with hi | ⟨hnil, -⟩
    · cases hk : left i with
      | zero => exact ⟨left, hs.load hk (hk ▸ hi.1)⟩
      | succ k => exact ⟨_, hs.decrement hk hi⟩
    · exact absurd hnil he

/-- The steps that are left. -/
def steps (s : Atomic ι Int32 (Option Int32)) : Nat := ∑ i, (s.todo i).length

theorem steps_decreases : (decrementing num).Decreases (fun _ => True) steps := by
  intro s i _ he
  refine ⟨trivial, ?_⟩
  obtain ⟨sec, secs, hsecs⟩ := List.exists_cons_of_ne_nil he
  have hsum := sum_update_add List.length s.todo i secs
  simp only [decrementing, atomic, Atomic.next, steps, hsecs, List.tail_cons]
  rw [hsecs, List.length_cons] at hsum
  omega

/-- For any number of threads and of iterations, as long as the negated total is an `int`: no
run takes more than the steps of the loops and the loads; what a thread prints lies between
the total and its own share; and when all have ended the counter is the total, every thread
has printed, and one of them has printed the total. -/
theorem one_prints_total [Nonempty ι] (hmax : ∑ i, num i ≤ 2 ^ 31)
    (h : (decrementing num).Exec (start num) as s) :
    as.length ≤ ∑ i, (num i + 1) ∧
      (∀ i v, s.locals i = some v →
        -(∑ i, num i : Nat) ≤ v.toInt ∧ v.toInt ≤ -(num i : Int)) ∧
      ((∀ i, s.todo i = []) →
        s.shared.toInt = -(∑ i, num i : Nat) ∧ (∀ i, (s.locals i).isSome) ∧
        ∃ i v, s.locals i = some v ∧ v.toInt = -(∑ i, num i : Nat)) := by
  have hint : ∀ k ≤ ∑ i, num i, (Int32.ofInt (-(k : Int))).toInt = -k := by
    intro k hk
    refine Int32.toInt_ofInt_of_le ?_ ?_ <;> omega
  obtain ⟨left, hs⟩ := inv (h.reachable rfl)
  refine ⟨?_, ?_, ?_⟩
  · have hle := steps_decreases.length_le trivial h
    simpa [steps, start, rest] using hle
  · intro i v hv
    obtain ⟨k, rfl, hshare, htotal⟩ := hs.printed i v hv
    rw [hint k htotal]
    omega
  · intro hall
    have hended : ∀ i, left i = 0 ∧ (s.locals i).isSome := by
      intro i
      rcases hs.todo i with ⟨hrest, -⟩ | ⟨-, hend⟩
      · rw [hall, rest] at hrest
        simp at hrest
      · exact hend
    refine ⟨?_, fun i => (hended i).2, ?_⟩
    · rw [hs.shared, made_of_zero fun i => (hended i).1]
      exact hint _ (Nat.le_refl _)
    · obtain ⟨i, hnone | hsome⟩ := hs.last inferInstance fun i => (hended i).1
      · have hsome := (hended i).2
        rw [hnone] at hsome
        cases hsome
      · exact ⟨i, _, hsome, hint _ (Nat.le_refl _)⟩

def shares (i : Bool) : Nat := if i then 2 else 1

/-- The second thread ends and prints while the first has an iteration to go. -/
def secondFirst : List Bool := [true, false, false, true, true]

theorem secondFirst_exec :
    (decrementing shares).Exec (start shares) secondFirst
      (secondFirst.foldl Atomic.next (start shares)) :=
  .cons (List.cons_ne_nil _ _) (.cons (List.cons_ne_nil _ _) (.cons (List.cons_ne_nil _ _)
    (.cons (List.cons_ne_nil _ _) (.single (List.cons_ne_nil _ _)))))

theorem one_prints_total_secondFirst :
    ∃ i v, (secondFirst.foldl Atomic.next (start shares)).locals i = some v ∧
      v.toInt = -(∑ i, shares i : Nat) :=
  ((one_prints_total (by decide) secondFirst_exec).2.2 (by intro i; cases i <;> rfl)).2.2

end SisProg.Threads.Decrement
