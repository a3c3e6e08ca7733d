import Mathlib.Order.Defs.Unbundled
import SisProg.Scheduler.Conservation

/-!
# The order of the queue

`std::priority_queue` asks for a comparator that is a strict weak order, and then
its `top` is an element that no other element exceeds. `TaskComparator` is one
(`taskComparator_strictWeakOrder`): tasks that it does not separate have the same
key. So a task that waits is popped before every task that is due after it. One
worker that finds all its tasks in the queue runs them sorted by their keys; and no
task runs before its time, as long as the clock is not set back.
-/

namespace SisProg.Scheduler

open ThreadPool

variable {Work : Type} {n m : Nat}

theorem taskComparator_strictWeakOrder :
    IsStrictWeakOrder (Task Work) fun a b => TaskComparator a b = true where
  irrefl a h := lt_irrefl a.key (taskComparator_iff.mp h)
  trans a b c hab hbc :=
    taskComparator_iff.mpr ((taskComparator_iff.mp hbc).trans (taskComparator_iff.mp hab))
  incomp_trans a b c := by
    simp only [taskComparator_iff, Task.Before, not_lt]
    rintro ⟨hba, hab⟩ ⟨hcb, hbc⟩
    exact ⟨hba.trans hcb, hbc.trans hab⟩

/-! ## What is popped -/

def Act.popped : Act Work n m → Option (Task Work)
  | .take _ u => some u
  | _ => none

/-- The tasks popped during a run. -/
def pops (as : List (Act Work n m)) : Multiset (Task Work) := ↑(as.filterMap Act.popped)

/-- No task is enqueued after one was popped. -/
def EnqueuedFirst (as : List (Act Work n m)) : Prop :=
  as.Pairwise fun a b => a.popped.isSome = true → b.pushed = none

instance [DecidableEq Work] (as : List (Act Work n m)) : Decidable (EnqueuedFirst as) :=
  inferInstanceAs (Decidable (List.Pairwise _ as))

theorem takes_dispatch (as : List (Act Work n m)) :
    Dispatch.takes (as.filterMap Act.dispatch) = pops as := by
  unfold Dispatch.takes pops
  rw [List.filterMap_filterMap]
  congr 2
  funext a
  cases a <;> rfl

theorem called_dispatch (as : List (Act Work n m)) :
    (as.filterMap Act.dispatch).filterMap Dispatch.startItem = as.filterMap Act.called := by
  rw [List.filterMap_filterMap]
  congr 1
  funext a
  cases a <;> rfl

theorem putsFirst_dispatch {as : List (Act Work n m)} (h : EnqueuedFirst as) :
    Dispatch.PutsFirst (as.filterMap Act.dispatch) := by
  refine List.Pairwise.filterMap Act.dispatch ?_ h
  intro a b hab c hc d hd htake
  cases a <;> cases hc <;> cases htake
  cases b <;> cases hd <;> first | rfl | cases hab rfl

variable [DecidableEq Work]

/-- A task that waits is popped, in all its copies, before a task that is due after
it. -/
theorem pops_before {s t : ThreadPool Work n m} {as₁ as₂ : List (Act Work n m)} {i : Fin n}
    {a b : Task Work} (h : (threadPool Work n m).Exec s (as₁ ++ .take i b :: as₂) t)
    (hab : a.Before b) : s.tasks.count a ≤ (pops as₁).count a := by
  have hrun := (poolSimulation Work n m).exec h
  rw [List.filterMap_append] at hrun
  rw [← takes_dispatch]
  exact dispatcher_take_order hrun hab

/-- One worker that finds all its tasks in the queue calls them in order. -/
theorem called_sorted (hn : n = 1) {s t : ThreadPool Work n m} {as : List (Act Work n m)}
    (hs : (threadPool Work n m).init s) (h : (threadPool Work n m).Exec s as t)
    (hfirst : EnqueuedFirst as) :
    (as.filterMap Act.called).Pairwise fun a b => a.key ≤ b.key := by
  subst hn
  have hsorted := (dispatcher_starts_sorted ((poolSimulation Work 1 m).init s hs)
    ((poolSimulation Work 1 m).exec h) (putsFirst_dispatch hfirst)).starts
  have hlist : ((as.filterMap (poolSimulation Work 1 m).label).filterMap Dispatch.startItem) =
      as.filterMap Act.called := called_dispatch as
  rw [hlist] at hsorted
  exact hsorted.imp not_lt.mp

/-! ## The clock -/

/-- The time that a step sets the clock to. -/
def Act.newTime : Act Work n m → Option Int
  | .setClock t => some t
  | _ => none

/-- The condition on a step: the clock does not go back. -/
def ClockForward (s : ThreadPool Work n m) (a : Act Work n m) : Prop :=
  ∀ t ∈ a.newTime, s.now ≤ t

omit [DecidableEq Work] in
instance (s : ThreadPool Work n m) (a : Act Work n m) : Decidable (ClockForward s a) :=
  inferInstanceAs (Decidable (∀ t ∈ a.newTime, s.now ≤ t))

/-- The tasks that are about to be called are due. -/
def ThreadPool.Due (s : ThreadPool Work n m) : Prop :=
  ∀ i u, s.workers i = .call u → u.startTime ≤ s.now

omit [DecidableEq Work] in
theorem due_worker {s t : ThreadPool Work n m} {i : Fin n} {w : Worker Work} (h : s.Due)
    (hw : ∀ u, w = .call u → u.startTime ≤ s.now) (hnow : t.now = s.now)
    (ht : t.workers = Function.update s.workers i w) : t.Due := by
  intro k u hk
  rw [hnow]
  rw [ht] at hk
  rcases eq_or_ne k i with rfl | hki
  · exact hw u (by simpa using hk)
  · exact h k u (by simpa [hki] using hk)

omit [DecidableEq Work] in
theorem due_calling {s t : ThreadPool Work n m} {c : Thread n m} {e : Option (Enqueue Work)}
    (h : s.Due) (hnow : t.now = s.now) (ht : t.workers = (s.setCalling e c).workers) : t.Due := by
  cases c with
  | inl i => exact due_worker (w := .running e) h (by simp) hnow ht
  | inr j =>
    intro k u hk
    rw [ht] at hk
    rw [hnow]
    exact h k u hk

omit [DecidableEq Work] in
@[simp] theorem setCalling_now (s : ThreadPool Work n m) (e : Option (Enqueue Work))
    (c : Thread n m) : (s.setCalling e c).now = s.now := by
  cases c <;> rfl

theorem due_next {s : ThreadPool Work n m} {a : Act Work n m} (h : s.Due) (he : s.enabled a)
    (hc : ClockForward s a) : (s.next a).Due := by
  cases a with
  | lock i | block i | wakeUp i | take i | unlock i | call i | finish i =>
    exact due_worker h (by simp) rfl rfl
  | test i =>
    refine due_worker h ?_ rfl rfl
    intro u
    split <;> simp
  | check i =>
    simp only [ThreadPool.next]
    split <;> exact due_worker h (by simp) rfl rfl
  | clock i v =>
    -- the worker has compared the clock with the start time, or sleeps
    refine due_worker h ?_ rfl rfl
    intro u hu
    split at hu
    · cases hu
    · next hnow =>
      cases hu
      exact not_lt.mp hnow
  | sleepOver i v =>
    refine due_worker h ?_ rfl rfl
    intro u hu
    cases hu
    exact he.2
  | enqueue c t | enqueueLock c t | push c t | enqueueUnlock c =>
    exact due_calling h (setCalling_now s _ c) rfl
  | notifyOne c woken =>
    cases woken with
    | none => exact due_calling h (setCalling_now s _ c) rfl
    | some i =>
      have hi : (s.setWorker i .notified).Due := due_worker h (by simp) rfl rfl
      exact due_calling hi (setCalling_now _ _ c) rfl
  | notifyAll =>
    intro k u hk
    refine h k u ?_
    cases hw : s.workers k <;> simp_all [ThreadPool.next, Worker.wake]
  | destroy | storeStop | join => exact h
  | setClock t => exact fun k u hk => (h k u hk).trans (hc t rfl)

theorem due_inv {s : ThreadPool Work n m}
    (h : ((threadPool Work n m).restrict ClockForward).Reachable s) : s.Due := by
  refine h.induct (P := ThreadPool.Due) ?_ fun s a _ ih he => due_next ih he.1 he.2
  intro s hs i u hu
  rw [hs.2.2.2.1 i] at hu
  cases hu

/-- The comparator is a strict weak order; of two tasks in `tasks_` the one that is
due before the other is popped before it; one worker that finds all its tasks in the
queue calls them sorted by their keys, and each as often as it was enqueued; and, if
the clock does not go back, none before its time. -/
theorem queue_order {s₀ s : ThreadPool Work n m} {as : List (Act Work n m)}
    (hs : (threadPool Work n m).init s₀) (h : (threadPool Work n m).Exec s₀ as s) :
    IsStrictWeakOrder (Task Work) (fun a b => TaskComparator a b = true) ∧
    (∀ bs₁ bs₂ t i a b, (threadPool Work n m).Exec s (bs₁ ++ .take i b :: bs₂) t →
      a.Before b → s.tasks.count a ≤ (pops bs₁).count a) ∧
    (n = 1 → EnqueuedFirst as →
      (as.filterMap Act.called).Pairwise (fun a b => a.key ≤ b.key) ∧
      (s.tasks = 0 → (∀ i, (s.workers i).inHand = none) →
        (as.filterMap Act.called).Perm (as.filterMap Act.pushed))) ∧
    (((threadPool Work n m).restrict ClockForward).Exec s₀ as s →
      ∀ i u, s.enabled (.call i u) → u.startTime ≤ s.now) := by
  refine ⟨taskComparator_strictWeakOrder, ?_, ?_, ?_⟩
  · intro bs₁ bs₂ t i a b hrun hab
    exact pops_before hrun hab
  · intro hn hfirst
    refine ⟨called_sorted hn hs h hfirst, ?_⟩
    intro htasks hhands
    have hheld : ∑ i, (s.workers i).held = 0 :=
      Finset.sum_eq_zero fun i _ => by rw [Worker.held, hhands i, Dispatch.held_none]
    have hall := pushes_eq hs h
    rw [htasks, hheld, zero_add, zero_add] at hall
    exact Multiset.coe_eq_coe.mp hall.symm
  · intro hclock i u he
    exact due_inv (hclock.reachable hs) i u he

/-- Both tasks are in the queue when the worker wakes up; the one that is due first
was enqueued last. -/
def bothWaiting : List (Act Unit 1 1) :=
  [.enqueue (.inr only) laterTask, .enqueueLock (.inr only) laterTask,
   .push (.inr only) laterTask, .enqueueUnlock (.inr only), .notifyOne (.inr only) none,
   .enqueue (.inr only) soonerTask, .enqueueLock (.inr only) soonerTask,
   .push (.inr only) soonerTask, .enqueueUnlock (.inr only), .notifyOne (.inr only) none,
   .lock only, .test only, .check only, .take only soonerTask, .unlock only soonerTask,
   .clock only soonerTask, .setClock 10, .sleepOver only soonerTask, .call only soonerTask,
   .finish only,
   .lock only, .test only, .check only, .take only laterTask, .unlock only laterTask,
   .clock only laterTask, .call only laterTask]

instance (s : ThreadPool Work n m) (a : Act Work n m) :
    Decidable (((threadPool Work n m).restrict ClockForward).enabled s a) :=
  inferInstanceAs (Decidable (s.enabled a ∧ ClockForward s a))

theorem bothWaiting_runs :
    (((threadPool Unit 1 1).restrict ClockForward).run (.start Unit 1 1) bothWaiting).isSome := by
  decide

theorem queue_order_bothWaiting :
    ((((threadPool Unit 1 1).restrict ClockForward).run (.start Unit 1 1) bothWaiting).get
      bothWaiting_runs).tasks = 0 ∧ bothWaiting.filterMap Act.called = [soonerTask, laterTask] ∧
    (bothWaiting.filterMap Act.called).Pairwise (fun a b => a.key ≤ b.key) ∧
    (bothWaiting.filterMap Act.called).Perm (bothWaiting.filterMap Act.pushed) := by
  obtain ⟨hsorted, hperm⟩ := (queue_order ThreadPool.start_init
    (Machine.exec_run_get bothWaiting_runs).of_restrict).2.2.1 rfl (by decide)
  exact ⟨by decide, by decide, hsorted, hperm (by decide) (by decide)⟩

end SisProg.Scheduler
