import Mathlib.Data.Fintype.Basic
import Mathlib.Data.Fintype.Sum
import Mathlib.Data.Multiset.AddSub
import Mathlib.Data.Multiset.Fintype
import SisProg.Lib.Machine
import SisProg.Scheduler.Task

/-!
# The thread pool

`ThreadPool` as a machine: `n` workers, `m` outside threads that call `enqueue`,
and the thread that runs the destructor, in any interleaving. A step is one
access to shared state: taking `mutex_`, evaluating the wait predicate, the
atomic release-and-block of `cv_.wait`, the pop, the call of the work function,
and so on.

* A work function may call `enqueue` on the pool any number of times. What it
  does otherwise does not matter here, so `running` does not say it.
* `std::priority_queue` is a bag; `top` is any task that no other task of the bag
  exceeds under the comparator (the order among equals is not specified).
* `cv_.wait` may also return without a notification (`wakeUp`).
* Outside threads begin no call once the destructor has begun, and the destructor
  begins when they have pushed what they were pushing: a pool may not be used
  after its lifetime has ended. Their last `notify_one` may still be due.
-/

namespace SisProg.Scheduler

/-- Where a thread is inside `ThreadPool::enqueue`: about to lock `mutex_`, to
push, to release `mutex_`, to call `cv_.notify_one`. -/
inductive Enqueue (Work : Type)
  | lock (task : Task Work)
  | push (task : Task Work)
  | unlock
  | notify
deriving DecidableEq

/-- Where a worker is in the loop of the constructor's lambda.

* `lock`: at the top of the loop, about to lock `mutex_` (just started, or back
  from a task);
* `test`: holds `mutex_`, about to evaluate the predicate of `cv_.wait`;
* `block`: the predicate was false, the worker still holds `mutex_`;
* `blocked`: blocked in `cv_.wait`, not notified;
* `notified`: woken in `cv_.wait`, about to lock `mutex_` again;
* `check`: the predicate was true, before `if (stop_ && tasks_.empty())`;
* `take`: before the copy of `tasks_.top()` and `tasks_.pop()`;
* `unlock`: at the end of the block, about to release `mutex_`;
* `clock`: about to compare the clock with `newTask.startTime()`;
* `sleep`: in `std::this_thread::sleep_until`;
* `call`: about to call `newTask()`;
* `running`: inside the work function, and possibly in a call of `enqueue` that
  it makes;
* `returned`: the lambda has returned. -/
inductive Worker (Work : Type)
  | lock
  | test
  | block
  | blocked
  | notified
  | check
  | take
  | unlock (newTask : Task Work)
  | clock (newTask : Task Work)
  | sleep (newTask : Task Work)
  | call (newTask : Task Work)
  | running (enqueue : Option (Enqueue Work))
  | returned
deriving DecidableEq

/-- Where the destructor is. `join k` is about to join `threads_[k]`. -/
inductive Destructor
  | idle
  | storeStop
  | notifyAll
  | join (k : Nat)
deriving DecidableEq

/-- The threads that can hold `mutex_`: workers and outside threads. -/
abbrev Thread (n m : Nat) := Fin n ⊕ Fin m

structure ThreadPool (Work : Type) (n m : Nat) where
  tasks : Multiset (Task Work)
  stop : Bool
  mutex : Option (Thread n m)
  workers : Fin n → Worker Work
  callers : Fin m → Option (Enqueue Work)
  destructor : Destructor
  now : Int

/-- The steps of the pool. An action carries the task it is about, so that a
list of actions tells what was pushed, popped and called. -/
inductive Act (Work : Type) (n m : Nat)
  | lock (i : Fin n)
  | test (i : Fin n)
  | block (i : Fin n)
  | wakeUp (i : Fin n)
  | check (i : Fin n)
  | take (i : Fin n) (u : Task Work)
  | unlock (i : Fin n) (u : Task Work)
  | clock (i : Fin n) (u : Task Work)
  | sleepOver (i : Fin n) (u : Task Work)
  | call (i : Fin n) (u : Task Work)
  | finish (i : Fin n)
  | enqueue (c : Thread n m) (t : Task Work)
  | enqueueLock (c : Thread n m) (t : Task Work)
  | push (c : Thread n m) (t : Task Work)
  | enqueueUnlock (c : Thread n m)
  | notifyOne (c : Thread n m) (woken : Option (Fin n))
  | destroy
  | storeStop
  | notifyAll
  | join (i : Fin n)
  | setClock (t : Int)
deriving DecidableEq

variable {Work : Type} {n m : Nat}

/-- The call of `enqueue` that a worker's task is in. -/
def Worker.enqueue : Worker Work → Option (Enqueue Work)
  | .running e => e
  | _ => none

/-- `cv_.notify_all` wakes the workers that are blocked. -/
def Worker.wake : Worker Work → Worker Work
  | .blocked => .notified
  | w => w

/-- A call of `enqueue` that has yet to push. -/
def Enqueue.unpushed : Option (Enqueue Work) → Bool
  | some (.lock _) | some (.push _) => true
  | _ => false

namespace ThreadPool

/-- The call of `enqueue` that the thread `c` is in. -/
def calling (s : ThreadPool Work n m) : Thread n m → Option (Enqueue Work)
  | .inl i => (s.workers i).enqueue
  | .inr j => s.callers j

def setWorker (s : ThreadPool Work n m) (i : Fin n) (w : Worker Work) : ThreadPool Work n m :=
  { s with workers := Function.update s.workers i w }

def setCalling (s : ThreadPool Work n m) (e : Option (Enqueue Work)) :
    Thread n m → ThreadPool Work n m
  | .inl i => s.setWorker i (.running e)
  | .inr j => { s with callers := Function.update s.callers j e }

theorem running_of_calling {s : ThreadPool Work n m} {i : Fin n} {e : Enqueue Work}
    (h : s.calling (.inl i) = some e) : s.workers i = .running (some e) := by
  simp only [calling, Worker.enqueue] at h
  split at h
  · next hw => rw [hw, h]
  · cases h

@[simp] theorem setWorker_workers (s : ThreadPool Work n m) (i : Fin n) (w : Worker Work) :
    (s.setWorker i w).workers = Function.update s.workers i w := rfl
@[simp] theorem setWorker_tasks (s : ThreadPool Work n m) (i : Fin n) (w : Worker Work) :
    (s.setWorker i w).tasks = s.tasks := rfl
@[simp] theorem setWorker_stop (s : ThreadPool Work n m) (i : Fin n) (w : Worker Work) :
    (s.setWorker i w).stop = s.stop := rfl
@[simp] theorem setWorker_mutex (s : ThreadPool Work n m) (i : Fin n) (w : Worker Work) :
    (s.setWorker i w).mutex = s.mutex := rfl
@[simp] theorem setWorker_callers (s : ThreadPool Work n m) (i : Fin n) (w : Worker Work) :
    (s.setWorker i w).callers = s.callers := rfl
@[simp] theorem setWorker_destructor (s : ThreadPool Work n m) (i : Fin n) (w : Worker Work) :
    (s.setWorker i w).destructor = s.destructor := rfl

@[simp] theorem setCalling_tasks (s : ThreadPool Work n m) (e : Option (Enqueue Work))
    (c : Thread n m) : (s.setCalling e c).tasks = s.tasks := by
  cases c <;> rfl
@[simp] theorem setCalling_stop (s : ThreadPool Work n m) (e : Option (Enqueue Work))
    (c : Thread n m) : (s.setCalling e c).stop = s.stop := by
  cases c <;> rfl
@[simp] theorem setCalling_mutex (s : ThreadPool Work n m) (e : Option (Enqueue Work))
    (c : Thread n m) : (s.setCalling e c).mutex = s.mutex := by
  cases c <;> rfl
@[simp] theorem setCalling_destructor (s : ThreadPool Work n m) (e : Option (Enqueue Work))
    (c : Thread n m) : (s.setCalling e c).destructor = s.destructor := by
  cases c <;> rfl

variable [DecidableEq Work]

/-- The predicate of `cv_.wait`: `stop_ || !tasks_.empty()`. -/
def ready (s : ThreadPool Work n m) : Bool := s.stop || !decide (s.tasks = 0)

/-- When a step can be taken. -/
def enabled (s : ThreadPool Work n m) : Act Work n m → Prop
  | .lock i => (s.workers i = .lock ∨ s.workers i = .notified) ∧ s.mutex = none
  | .test i => s.workers i = .test
  | .block i => s.workers i = .block
  | .wakeUp i => s.workers i = .blocked
  | .check i => s.workers i = .check
  | .take i u =>
      s.workers i = .take ∧ u ∈ s.tasks ∧ ∀ t ∈ s.tasks, TaskComparator u t = false
  | .unlock i u => s.workers i = .unlock u
  | .clock i u => s.workers i = .clock u
  | .sleepOver i u => s.workers i = .sleep u ∧ u.startTime ≤ s.now
  | .call i u => s.workers i = .call u
  | .finish i => s.workers i = .running none
  | .enqueue (.inl i) _ => s.workers i = .running none
  | .enqueue (.inr j) _ => s.callers j = none ∧ s.destructor = .idle
  | .enqueueLock c t => s.calling c = some (.lock t) ∧ s.mutex = none
  | .push c t => s.calling c = some (.push t)
  | .enqueueUnlock c => s.calling c = some .unlock
  | .notifyOne c (some i) => s.calling c = some .notify ∧ s.workers i = .blocked
  | .notifyOne c none => s.calling c = some .notify ∧ ∀ i, s.workers i ≠ .blocked
  | .destroy => s.destructor = .idle ∧ ∀ j, Enqueue.unpushed (s.callers j) = false
  | .storeStop => s.destructor = .storeStop
  | .notifyAll => s.destructor = .notifyAll
  | .join i => s.destructor = .join i ∧ s.workers i = .returned
  | .setClock _ => True

/-- What a step does. -/
def next (s : ThreadPool Work n m) : Act Work n m → ThreadPool Work n m
  | .lock i => { s.setWorker i .test with mutex := some (.inl i) }
  | .test i => s.setWorker i (if s.ready then .check else .block)
  | .block i => { s.setWorker i .blocked with mutex := none }
  | .wakeUp i => s.setWorker i .notified
  | .check i =>
      -- `if (stop_ && tasks_.empty()) return;`, which also releases the lock
      if s.stop ∧ s.tasks = 0 then { s.setWorker i .returned with mutex := none }
      else s.setWorker i .take
  | .take i u => { s.setWorker i (.unlock u) with tasks := s.tasks.erase u }
  | .unlock i u => { s.setWorker i (.clock u) with mutex := none }
  | .clock i u => s.setWorker i (if s.now < u.startTime then .sleep u else .call u)
  | .sleepOver i u => s.setWorker i (.call u)
  | .call i _ => s.setWorker i (.running none)
  | .finish i => s.setWorker i .lock
  | .enqueue c t => s.setCalling (some (.lock t)) c
  | .enqueueLock c t => { s.setCalling (some (.push t)) c with mutex := some c }
  | .push c t => { s.setCalling (some .unlock) c with tasks := t ::ₘ s.tasks }
  | .enqueueUnlock c => { s.setCalling (some .notify) c with mutex := none }
  | .notifyOne c none => s.setCalling none c
  | .notifyOne c (some i) => (s.setWorker i .notified).setCalling none c
  | .destroy => { s with destructor := .storeStop }
  | .storeStop => { s with stop := true, destructor := .notifyAll }
  | .notifyAll => { s with workers := fun i => (s.workers i).wake, destructor := .join 0 }
  | .join i => { s with destructor := .join (i + 1) }
  | .setClock t => { s with now := t }

instance (s : ThreadPool Work n m) (a : Act Work n m) :
    Decidable (s.enabled a) := by
  cases a with
  | enqueue c t => cases c <;> unfold enabled <;> infer_instance
  | notifyOne c woken => cases woken <;> unfold enabled <;> infer_instance
  | _ => unfold enabled; infer_instance

end ThreadPool

/-- The pool with `n` workers, from the end of its constructor: no worker has
run yet, and the clock shows any time. -/
def threadPool (Work : Type) [DecidableEq Work] (n m : Nat) :
    Machine (ThreadPool Work n m) (Act Work n m) where
  init s := s.tasks = 0 ∧ s.stop = false ∧ s.mutex = none ∧ (∀ i, s.workers i = .lock) ∧
    (∀ j, s.callers j = none) ∧ s.destructor = .idle
  enabled := ThreadPool.enabled
  next := ThreadPool.next

instance [DecidableEq Work] (s : ThreadPool Work n m) (a : Act Work n m) :
    Decidable ((threadPool Work n m).enabled s a) :=
  inferInstanceAs (Decidable (s.enabled a))

/-- The state in which a pool starts when the clock shows `0`. -/
def ThreadPool.start (Work : Type) (n m : Nat) : ThreadPool Work n m where
  tasks := 0
  stop := false
  mutex := none
  workers _ := .lock
  callers _ := none
  destructor := .idle
  now := 0

theorem ThreadPool.start_init [DecidableEq Work] :
    (threadPool Work n m).init (.start Work n m) :=
  ⟨rfl, rfl, rfl, fun _ => rfl, fun _ => rfl, rfl⟩

/-- The one worker, or the one caller, where there is only one. -/
def only : Fin 1 := 0

end SisProg.Scheduler
