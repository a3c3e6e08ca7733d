import SisProg.Lib.Dispatcher
import SisProg.Scheduler.Invariants

/-!
# The pool is a dispatcher

Seen from the tasks, the pool is the abstract dispatcher: the bag is `tasks_`,
the hands are the workers, and a worker holds a task from the pop to the call of
its work function (`poolSimulation`). The order in which tasks start follows.

The order is fixed by the pop, not by the call: between the two the worker sleeps
outside the lock, and a task that is due earlier may be enqueued
(`start_order_violated`). Only tasks enqueued after the pop can be passed over
(`start_order`).
-/

namespace SisProg.Scheduler

variable {Work : Type} {n m : Nat}

/-! ## What a run enqueues and calls -/

/-- The task that a worker has popped and not yet called. -/
def Worker.inHand : Worker Work → Option (Task Work)
  | .unlock u | .clock u | .sleep u | .call u => some u
  | _ => none

def Act.pushed : Act Work n m → Option (Task Work)
  | .push _ t => some t
  | _ => none

def Act.called : Act Work n m → Option (Task Work)
  | .call _ u => some u
  | _ => none

/-- The tasks enqueued during a run. -/
def pushes (as : List (Act Work n m)) : Multiset (Task Work) := ↑(as.filterMap Act.pushed)

/-- The tasks whose work function was called during a run. -/
def calls (as : List (Act Work n m)) : Multiset (Task Work) := ↑(as.filterMap Act.called)

/-- What an action is for the dispatcher. -/
def Act.dispatch : Act Work n m → Option (DispatchAct (Fin n) (Task Work))
  | .push _ t => some (.put t)
  | .take i u => some (.take i u)
  | .call i u => some (.start i u)
  | _ => none

namespace ThreadPool

/-- The pool as a dispatcher. -/
def dispatch (s : ThreadPool Work n m) : Dispatch (Fin n) (Task Work) where
  waiting := s.tasks
  hand i := (s.workers i).inHand

theorem dispatch_eq {s t : ThreadPool Work n m} (ht : t.tasks = s.tasks)
    (hw : ∀ i, (t.workers i).inHand = (s.workers i).inHand) : t.dispatch = s.dispatch := by
  unfold dispatch
  rw [ht, funext hw]

theorem inHand_update (s : ThreadPool Work n m) (i : Fin n) (w : Worker Work) :
    (fun k => (Function.update s.workers i w k).inHand) =
      Function.update (fun k => (s.workers k).inHand) i w.inHand := by
  funext k
  exact Function.apply_update (fun _ => Worker.inHand) s.workers i w k

/-- A worker that neither pops nor calls a task keeps its hand as it is. -/
theorem dispatch_setWorker {s t : ThreadPool Work n m} {i : Fin n} {w : Worker Work}
    (hw : w.inHand = (s.workers i).inHand) (ht : t.tasks = s.tasks)
    (hu : t.workers = Function.update s.workers i w) : t.dispatch = s.dispatch := by
  refine dispatch_eq ht ?_
  intro k
  rw [hu]
  rcases eq_or_ne k i with rfl | hk
  · rw [Function.update_self, hw]
  · rw [Function.update_of_ne hk]

theorem inHand_setCalling {s : ThreadPool Work n m} {c : Thread n m}
    {e : Option (Enqueue Work)} (hc : ∀ i, c = .inl i → (s.workers i).inHand = none)
    (k : Fin n) : ((s.setCalling e c).workers k).inHand = (s.workers k).inHand := by
  cases c with
  | inl i =>
    rcases eq_or_ne k i with rfl | hk
    · simpa [setCalling, Worker.inHand] using (hc k rfl).symm
    · simp [setCalling, hk]
  | inr j => rfl

theorem inHand_of_calling {s : ThreadPool Work n m} {c : Thread n m} {e : Enqueue Work}
    (h : s.calling c = some e) (i : Fin n) (hc : c = .inl i) : (s.workers i).inHand = none := by
  subst hc
  rw [running_of_calling h]
  rfl

theorem inHand_wake (w : Worker Work) : w.wake.inHand = w.inHand := by
  cases w <;> rfl

variable [DecidableEq Work]

/-- A step that is none of push, pop and call cannot be seen by the dispatcher. -/
theorem dispatch_silent {s : ThreadPool Work n m} {a : Act Work n m} (he : s.enabled a)
    (hl : a.dispatch = none) : (s.next a).dispatch = s.dispatch := by
  cases a with
  | push | take | call => cases hl
  | lock i => exact dispatch_setWorker (by rcases he.1 with h | h <;> rw [h] <;> rfl) rfl rfl
  | test i =>
    refine dispatch_setWorker ?_ rfl rfl
    rw [(he : s.workers i = .test)]
    split <;> rfl
  | block i => exact dispatch_setWorker (by rw [(he : s.workers i = .block)]; rfl) rfl rfl
  | wakeUp i => exact dispatch_setWorker (by rw [(he : s.workers i = .blocked)]; rfl) rfl rfl
  | check i =>
    simp only [ThreadPool.next]
    split <;> exact dispatch_setWorker (by rw [(he : s.workers i = .check)]; rfl) rfl rfl
  | unlock i u => exact dispatch_setWorker (by rw [(he : s.workers i = .unlock u)]; rfl) rfl rfl
  | clock i u =>
    refine dispatch_setWorker ?_ rfl rfl
    rw [(he : s.workers i = .clock u)]
    split <;> rfl
  | sleepOver i u => exact dispatch_setWorker (by rw [he.1]; rfl) rfl rfl
  | finish i => exact dispatch_setWorker (by rw [(he : s.workers i = .running none)]; rfl) rfl rfl
  | enqueue c t =>
    refine dispatch_eq (setCalling_tasks _ _ _) (inHand_setCalling ?_)
    intro i hc
    subst hc
    rw [(he : s.workers i = .running none)]
    rfl
  | enqueueLock c t =>
    exact dispatch_eq (setCalling_tasks _ _ _) (inHand_setCalling (inHand_of_calling he.1))
  | enqueueUnlock c =>
    exact dispatch_eq (setCalling_tasks _ _ _) (inHand_setCalling (inHand_of_calling he))
  | notifyOne c woken =>
    cases woken with
    | none =>
      exact dispatch_eq (setCalling_tasks _ _ _) (inHand_setCalling (inHand_of_calling he.1))
    | some i =>
      -- the woken worker has an empty hand before and after, and so has the caller
      have hi : (s.setWorker i .notified).dispatch = s.dispatch :=
        dispatch_setWorker (by rw [he.2]; rfl) rfl rfl
      rw [← hi]
      refine dispatch_eq (setCalling_tasks _ _ _) (inHand_setCalling ?_)
      intro k hc
      exact (congrFun (congrArg Dispatch.hand hi) k).trans (inHand_of_calling he.1 k hc)
  | notifyAll => exact dispatch_eq rfl fun i => inHand_wake (s.workers i)
  | destroy | storeStop | join | setClock => rfl

/-- Push, pop and call are the steps of the dispatcher. -/
theorem dispatch_visible {s : ThreadPool Work n m} {a : Act Work n m}
    {b : DispatchAct (Fin n) (Task Work)} (he : s.enabled a) (hl : a.dispatch = some b) :
    (dispatcher Task.Before).enabled s.dispatch b ∧
      (s.next a).dispatch = (dispatcher Task.Before).next s.dispatch b := by
  cases a with
  | push c t =>
    cases hl
    refine ⟨trivial, ?_⟩
    have hhand := funext (inHand_setCalling (e := some .unlock) (inHand_of_calling he))
    simp only [dispatch, ThreadPool.next, dispatcher, hhand]
  | take i u =>
    cases hl
    obtain ⟨hw, hmem, htop⟩ := he
    refine ⟨⟨?_, hmem, fun t ht => taskComparator_false_iff.mp (htop t ht)⟩, ?_⟩
    · show (s.workers i).inHand = none
      rw [hw]
      rfl
    · exact congrArg (Dispatch.mk (s.tasks.erase u)) (inHand_update s i (.unlock u))
  | call i u =>
    cases hl
    refine ⟨?_, congrArg (Dispatch.mk s.tasks) (inHand_update s i (.running none))⟩
    show (s.workers i).inHand = some u
    rw [(he : s.workers i = .call u)]
    rfl
  | _ => cases hl

end ThreadPool

open ThreadPool

theorem puts_dispatch (as : List (Act Work n m)) :
    Dispatch.puts (as.filterMap Act.dispatch) = pushes as := by
  unfold Dispatch.puts pushes
  rw [List.filterMap_filterMap]
  congr 2
  funext a
  cases a <;> rfl

theorem starts_dispatch (as : List (Act Work n m)) :
    Dispatch.starts (as.filterMap Act.dispatch) = calls as := by
  unfold Dispatch.starts calls
  rw [List.filterMap_filterMap]
  congr 2
  funext a
  cases a <;> rfl

variable [DecidableEq Work]

/-- The pool refines the dispatcher of tasks. -/
def poolSimulation (Work : Type) [DecidableEq Work] (n m : Nat) :
    Machine.Simulation (threadPool Work n m) (dispatcher (ι := Fin n) (@Task.Before Work)) where
  abs := ThreadPool.dispatch
  label := Act.dispatch
  init _ hs := ⟨hs.1, fun i => by simp [dispatch, hs.2.2.2.1, Worker.inHand]⟩
  silent _ _ := dispatch_silent
  visible _ _ _ := dispatch_visible

/-! ## The order in which tasks start -/

/-- When a worker is about to call the work function of `u`, the run contains the
step by which this worker popped `u`, and every task of `tasks_` that is due
before `u` was enqueued after that step. -/
theorem start_order {s t : ThreadPool Work n m} {as : List (Act Work n m)} {i : Fin n}
    {u : Task Work} (hs : (threadPool Work n m).init s) (h : (threadPool Work n m).Exec s as t)
    (hu : (threadPool Work n m).enabled t (.call i u)) :
    ∃ as₁ as₂, as = as₁ ++ .take i u :: as₂ ∧ (∀ v, .take i v ∉ as₂) ∧
      t.tasks.filter (fun v => v.Before u) ≤ pushes as₂ := by
  have hhand : t.dispatch.hand i = some u := by
    show (t.workers i).inHand = some u
    rw [(hu : t.workers i = .call u)]
    rfl
  obtain ⟨bs₁, bs₂, has, hno, hsub⟩ := dispatcher_start_order
    ((poolSimulation Work n m).init s hs) ((poolSimulation Work n m).exec h) hhand
  -- pull the split of what the dispatcher sees back to the run of the pool
  obtain ⟨as₁, cs, rfl, -, hcs⟩ := List.filterMap_eq_append_iff.mp has
  obtain ⟨ds, a, as₂, rfl, hds, ha, rfl⟩ := List.filterMap_eq_cons_iff.mp hcs
  obtain rfl : a = .take i u := by cases a <;> cases ha; rfl
  refine ⟨as₁ ++ ds, as₂, by simp, ?_, ?_⟩
  · intro v hv
    exact hno v (List.mem_filterMap.mpr ⟨_, hv, rfl⟩)
  · rw [← puts_dispatch as₂]
    exact hsub

/-- Two tasks that are due at the same time; the second has the smaller priority
number. -/
def laterTask : Task Unit := ⟨1, 10, 3, 2, ()⟩
def soonerTask : Task Unit := ⟨2, 10, 1, 1, ()⟩

/-- The one worker pops `laterTask` and sleeps; `soonerTask` is enqueued; the
worker wakes up. -/
def passedOver : List (Act Unit 1 1) :=
  [.enqueue (.inr only) laterTask, .enqueueLock (.inr only) laterTask,
   .push (.inr only) laterTask, .enqueueUnlock (.inr only), .notifyOne (.inr only) none,
   .lock only, .test only, .check only, .take only laterTask, .unlock only laterTask,
   .clock only laterTask,
   .enqueue (.inr only) soonerTask, .enqueueLock (.inr only) soonerTask,
   .push (.inr only) soonerTask, .enqueueUnlock (.inr only), .notifyOne (.inr only) none,
   .setClock 10, .sleepOver only laterTask]

theorem passedOver_runs : ((threadPool Unit 1 1).run (.start Unit 1 1) passedOver).isSome := by
  decide

def passedOverEnd : ThreadPool Unit 1 1 :=
  ((threadPool Unit 1 1).run (.start Unit 1 1) passedOver).get passedOver_runs

/-- A task can be started while one that is due before it waits in `tasks_`. -/
theorem start_order_violated :
    (threadPool Unit 1 1).Exec (.start Unit 1 1) passedOver passedOverEnd ∧
      (threadPool Unit 1 1).enabled passedOverEnd (.call 0 laterTask) ∧
      soonerTask ∈ passedOverEnd.tasks ∧ soonerTask.Before laterTask :=
  ⟨Machine.exec_run_get passedOver_runs, by decide, by decide, by decide⟩

theorem start_order_passedOver :
    ∃ as₁ as₂, passedOver = as₁ ++ .take 0 laterTask :: as₂ ∧ (∀ v, .take 0 v ∉ as₂) ∧
      passedOverEnd.tasks.filter (fun v => v.Before laterTask) ≤ pushes as₂ :=
  start_order ThreadPool.start_init (Machine.exec_run_get passedOver_runs) (by decide)

end SisProg.Scheduler
