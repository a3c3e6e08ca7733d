import SisProg.Scheduler.Dispatching

/-!
# No task is lost, none runs twice

While the pool runs, what was enqueued is in `tasks_`, in the hands of a worker,
or was called: that is the conservation law of the dispatcher. When all workers
have returned, the first two are empty. A worker returns when it sees `stop_` and
an empty queue, but tasks that still run may enqueue more after that: the last
worker to return sees a queue that nobody can fill any more.
-/

namespace SisProg.Scheduler

open ThreadPool

variable {Work : Type} [DecidableEq Work] {n m : Nat}

/-! ## The last worker -/

/-- When all workers have returned, no task waits. -/
def ThreadPool.Drained (s : ThreadPool Work n m) : Prop :=
  (∀ i, s.workers i = .returned) → s.tasks = 0

omit [DecidableEq Work] in
/-- A worker that has not returned after a step leaves nothing to show. -/
theorem drained_of_worker {s : ThreadPool Work n m} (i : Fin n)
    (h : s.workers i ≠ .returned) : s.Drained :=
  fun hall => absurd (hall i) h

omit [DecidableEq Work] in
/-- A step inside a call of `enqueue`. On a worker it shows that this worker is
still running. -/
theorem drained_of_calling {s t : ThreadPool Work n m} {e : Option (Enqueue Work)}
    {c : Thread n m} (hw : t.workers = (s.setCalling e c).workers)
    (ht : ∀ j, c = .inr j → (∀ i, s.workers i = .returned) → t.tasks = 0) : t.Drained := by
  cases c with
  | inl i => exact drained_of_worker i (by simp [hw, setCalling])
  | inr j => exact fun hall => ht j rfl fun i => by simpa [hw, setCalling] using hall i

theorem ThreadPool.Drained.next (hn : 0 < n) {s : ThreadPool Work n m} {a : Act Work n m}
    (hl : s.Lifecycle) (h : s.Drained) (he : s.enabled a) : (s.next a).Drained := by
  cases a with
  | lock i | block i | wakeUp i | take i | unlock i | sleepOver i | call i | finish i =>
    exact drained_of_worker i (by simp [ThreadPool.next])
  | test i | clock i =>
    refine drained_of_worker i ?_
    simp only [ThreadPool.next, setWorker_workers, Function.update_self]
    split <;> simp
  | check i =>
    simp only [ThreadPool.next]
    split
    · next hstop => exact fun _ => hstop.2
    · exact drained_of_worker i (by simp)
  | enqueue c t =>
    exact drained_of_calling rfl fun j _ hall => (setCalling_tasks _ _ _).trans (h hall)
  | enqueueLock c t =>
    exact drained_of_calling rfl fun j _ hall => (setCalling_tasks _ _ _).trans (h hall)
  | enqueueUnlock c =>
    exact drained_of_calling rfl fun j _ hall => (setCalling_tasks _ _ _).trans (h hall)
  | push c t =>
    refine drained_of_calling (e := some .unlock) (c := c) rfl ?_
    intro j hc hall
    -- a worker has returned, so the destructor has begun: nobody outside pushes
    subst hc
    have hstop : s.destructor.stopped = true := by
      rw [← hl.stop_eq]
      exact hl.returned_stop ⟨0, hn⟩ (hall _)
    have hpush := hl.pushed (fun hidle => by rw [hidle] at hstop; cases hstop) j
    rw [unpushed_of_calling he] at hpush
    cases hpush
  | notifyOne c woken =>
    cases woken with
    | none =>
      exact drained_of_calling rfl fun j _ hall => (setCalling_tasks _ _ _).trans (h hall)
    | some i =>
      refine drained_of_calling (s := s.setWorker i .notified) (c := c) (e := none) rfl ?_
      intro j _ hall
      have hi := hall i
      simp at hi
  | notifyAll => exact fun hall => h fun i => Worker.wake_eq_returned (hall i)
  | destroy | storeStop | join | setClock => exact h

theorem drained_inv (hn : 0 < n) {s : ThreadPool Work n m}
    (h : (threadPool Work n m).Reachable s) : s.Drained := by
  refine h.induct (P := ThreadPool.Drained) (fun s hs _ => hs.1) ?_
  intro s a hr ih he
  exact ih.next hn (lifecycle_inv hr) he

/-! ## Conservation -/

/-- The task that a worker has popped and not yet called, as a bag. -/
def Worker.held (w : Worker Work) : Multiset (Task Work) := Dispatch.held w.inHand

omit [DecidableEq Work] in
theorem Worker.held_card_le (w : Worker Work) : w.held.card ≤ 1 := by
  unfold held
  cases w.inHand <;> simp

/-- The conservation law of the dispatcher. -/
theorem pushes_eq {s t : ThreadPool Work n m} {as : List (Act Work n m)}
    (hs : (threadPool Work n m).init s) (h : (threadPool Work n m).Exec s as t) :
    pushes as = t.tasks + ∑ i, (t.workers i).held + calls as := by
  rw [← puts_dispatch as, ← starts_dispatch as]
  exact dispatcher_conserves ((poolSimulation Work n m).init s hs)
    ((poolSimulation Work n m).exec h)

/-- In every state of every run the tasks enqueued are those in `tasks_`, those
popped but not yet called (at most one per worker), and those called; and when
all workers have returned every task enqueued was called, exactly as often as it
was enqueued. A call of `enqueue` that comes from outside has pushed its task before
the destructor begins, and may still have `notify_one` before it. -/
theorem pool_conserves_tasks (hn : 0 < n) {s t : ThreadPool Work n m}
    {as : List (Act Work n m)} (hs : (threadPool Work n m).init s)
    (h : (threadPool Work n m).Exec s as t) :
    pushes as = t.tasks + ∑ i, (t.workers i).held + calls as ∧
      (∀ i, (t.workers i).held.card ≤ 1) ∧
      ((∀ i, t.workers i = .returned) → t.tasks = 0 ∧ calls as = pushes as) := by
  have hall := pushes_eq hs h
  refine ⟨hall, fun i => Worker.held_card_le _, ?_⟩
  intro hret
  have hempty : t.tasks = 0 := drained_inv hn (h.reachable hs) hret
  have hhands : ∑ i, (t.workers i).held = 0 :=
    Finset.sum_eq_zero fun i _ => by rw [hret i]; rfl
  refine ⟨hempty, ?_⟩
  rw [hall, hempty, hhands]
  simp

/-- One worker. Its first task enqueues a second one after the destructor has
set `stop_`; the worker runs both and returns. -/
def shutdownRun : List (Act Nat 1 1) :=
  let a : Task Nat := ⟨1, 0, 0, 0, 1⟩
  let b : Task Nat := ⟨2, 0, 0, 0, 2⟩
  [.enqueue (.inr only) a, .enqueueLock (.inr only) a, .push (.inr only) a,
   .enqueueUnlock (.inr only),
   .lock only, .test only, .check only, .take only a, .unlock only a, .clock only a,
   .destroy, .storeStop, .notifyOne (.inr only) none, .notifyAll, .call only a,
   .enqueue (.inl only) b, .enqueueLock (.inl only) b, .push (.inl only) b,
   .enqueueUnlock (.inl only), .notifyOne (.inl only) none, .finish only,
   .lock only, .test only, .check only, .take only b, .unlock only b, .clock only b,
   .call only b, .finish only, .lock only, .test only, .check only, .join only]

theorem shutdownRun_runs :
    ((threadPool Nat 1 1).run (.start Nat 1 1) shutdownRun).isSome := by
  decide

theorem pool_conserves_tasks_shutdownRun :
    (pushes shutdownRun).card = 2 ∧
    (((threadPool Nat 1 1).run (.start Nat 1 1) shutdownRun).get shutdownRun_runs).tasks = 0 ∧
    calls shutdownRun = pushes shutdownRun :=
  ⟨by decide, (pool_conserves_tasks (by decide) ThreadPool.start_init
    (Machine.exec_run_get shutdownRun_runs)).2.2 (by decide)⟩

end SisProg.Scheduler
