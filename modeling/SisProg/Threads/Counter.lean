import Mathlib.Algebra.BigOperators.Ring.Finset
import SisProg.Lib.Sections

/-!
# Counting under a lock

The threads of `lock_guard.cpp` run `increment_counter`, those of `p7.cpp` run `foo` on a
shared `int`. Both take the mutex for each increment, which is a load and a store.
`counter_total`: the count is that of the increments made, and in the end it is the sum of
what the threads were to do.
-/

namespace SisProg.Threads

open Sections (Access Section sections atomic steps)

/-- `counter++` or `++*p`: the value is loaded, and what was loaded is stored plus one. -/
def increment : Section Int32 Int32 := [fun x _ => (x, x), fun _ r => (r + 1, r)]

variable {ι : Type} [DecidableEq ι]

/-- The thread `i` runs the loop for `num i` iterations. -/
def counting (num : ι → Nat) : Machine (Sections.State ι Int32 Int32) (Sections.Act ι) :=
  sections (fun i => List.replicate (num i) increment) 0 fun _ => 0

theorem perform_increment (x l : Int32) :
    (Sections.perform increment x l).1 = x + 1 := rfl

/-- The increments to come are increments. -/
def Increments (todo : ι → List (Section Int32 Int32)) : Prop :=
  ∀ i, todo i = List.replicate (todo i).length increment

variable [Fintype ι] {num : ι → Nat}

/-- Section by section: the value is the number of increments made. -/
theorem atomic_count {s : Sections.Atomic ι Int32 Int32}
    (h : (atomic (fun i => List.replicate (num i) increment) 0 fun _ => 0).Reachable s) :
    Increments s.todo ∧ ∃ made : Nat, s.shared = Int32.ofNat made ∧
      made + ∑ i, (s.todo i).length = ∑ i, num i := by
  refine h.induct (P := fun s => Increments s.todo ∧ ∃ made : Nat, s.shared = Int32.ofNat made ∧
    made + ∑ i, (s.todo i).length = ∑ i, num i) ?_ ?_
  · intro s hs
    have hs' : s = ⟨0, fun _ => 0, fun i => List.replicate (num i) increment⟩ := hs
    subst hs'
    refine ⟨fun i => by simp, 0, rfl, by simp⟩
  · intro s i _ hs he
    obtain ⟨hinc, made, hshared, hsum⟩ := hs
    obtain ⟨sec, secs, hsecs⟩ := List.exists_cons_of_ne_nil he
    have hi := hinc i
    rw [hsecs, List.length_cons, List.replicate_succ] at hi
    obtain ⟨rfl, hrest⟩ := List.cons.inj hi
    have hlength := sum_update_add List.length s.todo i secs
    rw [hsecs, List.length_cons] at hlength
    simp only [atomic, Sections.Atomic.next, hsecs, List.tail_cons, List.headD_cons]
    refine ⟨?_, made + 1, ?_, ?_⟩
    · intro j
      rcases eq_or_ne j i with rfl | hne
      · rw [Function.update_self]
        exact hrest
      · rw [Function.update_of_ne hne]
        exact hinc j
    · rw [perform_increment, hshared, Int32.ofNat_add]
      rfl
    · omega

/-- The steps of `num` iterations. -/
theorem steps_replicate (k : Nat) : steps (List.replicate k increment) = 4 * k := by
  induction k with
  | zero => rfl
  | succ k ih =>
    rw [List.replicate_succ, steps, ih]
    show 4 + 4 * k = 4 * (k + 1)
    exact Nat.add_comm _ _

/-- For any number of threads and of iterations, as long as the sum is an `int`: whenever the
mutex is free, the value is what the threads were to do less what they have yet to do; no
thread is ever stuck, a run has at most four steps for each iteration, and when all loops
have ended the value is the sum. -/
theorem counter_total (hmax : ∑ i, num i < 2 ^ 31) {s₀ s : Sections.State ι Int32 Int32}
    {as : List (Sections.Act ι)} (hs : (counting num).init s₀) (h : (counting num).Exec s₀ as s) :
    (s.owner = none → s.shared.toInt + ∑ i, (s.todo i).length = ∑ i, num i) ∧
      (¬ s.Finished → ∃ a, (counting num).enabled s a) ∧ as.length ≤ 4 * ∑ i, num i ∧
      (s.Finished → s.shared.toInt = ∑ i, num i) := by
  have hfree : s.owner = none → s.shared.toInt + ∑ i, (s.todo i).length = ∑ i, num i := by
    intro hnone
    have hatomic := atomic_count (Sections.reachable_atomic (h.reachable hs))
    rw [Sections.settle_of_free hnone] at hatomic
    obtain ⟨-, made, hshared, hsum⟩ := hatomic
    have hmade : made < 2 ^ 31 := Nat.lt_of_le_of_lt (Nat.le.intro hsum) hmax
    simp only at hshared hsum
    rw [hshared, Int32.toInt_ofNat_of_lt hmade]
    exact_mod_cast hsum
  refine ⟨hfree, Sections.sections_progress, ?_, ?_⟩
  · have hle := Sections.sections_decreases.length_le trivial h
    have hs' : s₀ = ⟨0, fun _ => 0, fun i => List.replicate (num i) increment, none, []⟩ := hs
    rw [hs', Sections.State.left] at hle
    simp only [steps_replicate, ← Finset.mul_sum] at hle
    exact hle
  · intro hfinished
    have hcount := hfree hfinished.1
    simpa [hfinished.2] using hcount

/-- The first thread increments twice, the second one in between. -/
def twoThreads : List (Sections.Act Bool) :=
  [.lock true, .access true, .access true, .unlock true, .lock false, .access false,
    .access false, .unlock false, .lock true, .access true, .access true, .unlock true]

def twoThreadsStart : Sections.State Bool Int32 Int32 where
  shared := 0
  locals _ := 0
  todo i := List.replicate (if i then 2 else 1) increment
  owner := none
  rest := []

theorem twoThreads_exec : (counting fun i => if i then 2 else 1).Exec twoThreadsStart twoThreads
    (twoThreads.foldl Sections.State.next twoThreadsStart) :=
  .cons ⟨rfl, List.cons_ne_nil _ _⟩ (.cons ⟨rfl, List.cons_ne_nil _ _⟩
    (.cons ⟨rfl, List.cons_ne_nil _ _⟩ (.cons ⟨rfl, rfl⟩ (.cons ⟨rfl, List.cons_ne_nil _ _⟩
    (.cons ⟨rfl, List.cons_ne_nil _ _⟩ (.cons ⟨rfl, List.cons_ne_nil _ _⟩ (.cons ⟨rfl, rfl⟩
    (.cons ⟨rfl, List.cons_ne_nil _ _⟩ (.cons ⟨rfl, List.cons_ne_nil _ _⟩
    (.cons ⟨rfl, List.cons_ne_nil _ _⟩ (.single ⟨rfl, rfl⟩)))))))))))

theorem twoThreads_finished : (twoThreads.foldl Sections.State.next twoThreadsStart).Finished :=
  ⟨rfl, fun i => by cases i <;> rfl⟩

theorem counter_total_twoThreads :
    (twoThreads.foldl Sections.State.next twoThreadsStart).shared.toInt =
      ∑ i : Bool, ((if i then 2 else 1 : Nat) : Int) ∧
    twoThreads.length ≤ 4 * ∑ i : Bool, if i then 2 else 1 := by
  obtain ⟨-, -, hlength, hsum⟩ := counter_total (by decide) rfl twoThreads_exec
  exact ⟨by exact_mod_cast hsum twoThreads_finished, hlength⟩

end SisProg.Threads
