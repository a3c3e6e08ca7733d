import Mathlib.Data.Prod.Lex

/-!
# Tasks and their order

`Task` and `TaskComparator` of the scheduler. A `std::priority_queue` keeps at
its top an element that no other element exceeds under the comparator, so the
comparator is "greater than" on the key `(startTime, priority)`.
-/

namespace SisProg.Scheduler

/-- The class `Task`. Times are counted in clock ticks. `Work` stands for
`std::function<void()>`: the model only needs to tell two function objects
apart. -/
structure Task (Work : Type) where
  id : Int
  startTime : Int
  duration : Int
  priority : Int
  work : Work
deriving DecidableEq, Repr

variable {Work : Type}

/-- `TaskComparator::operator()`. -/
def TaskComparator (a b : Task Work) : Bool :=
  if a.startTime ≠ b.startTime then a.startTime > b.startTime else a.priority > b.priority

namespace Task

/-- The key by which tasks are due: earlier start first, then the smaller
priority number. -/
def key (t : Task Work) : Int ×ₗ Int := toLex (t.startTime, t.priority)

/-- `a` is due before `b`. -/
def Before (a b : Task Work) : Prop := a.key < b.key

theorem key_lt_iff {a b : Task Work} :
    a.key < b.key ↔
      a.startTime < b.startTime ∨ (a.startTime = b.startTime ∧ a.priority < b.priority) :=
  Prod.Lex.toLex_lt_toLex

instance : DecidableRel (@Before Work) := fun a b =>
  decidable_of_iff
    (a.startTime < b.startTime ∨ (a.startTime = b.startTime ∧ a.priority < b.priority))
    key_lt_iff.symm

end Task

/-- The comparator is "due later than": the top of the queue is a task that no
other task is due before. -/
theorem taskComparator_iff {a b : Task Work} : TaskComparator a b = true ↔ b.Before a := by
  unfold TaskComparator Task.Before
  rw [Task.key_lt_iff]
  split
  · next h => simp only [gt_iff_lt, decide_eq_true_eq]; omega
  · next h => simp only [gt_iff_lt, decide_eq_true_eq]; omega

theorem taskComparator_false_iff {a b : Task Work} :
    TaskComparator a b = false ↔ ¬ b.Before a := by
  rw [← taskComparator_iff, Bool.not_eq_true]

end SisProg.Scheduler
