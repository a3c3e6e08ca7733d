import SisProg.Scheduler.Invariants

/-!
# Shutdown and blocked workers

`enqueue` changes what the wait predicate reads while it holds `mutex_`; the
destructor sets `stop_` without the mutex. A worker that has found the predicate
false and has not yet blocked holds `mutex_`, but the destructor does not wait
for it: it can set `stop_` and call `notify_all` in between, and the worker then
blocks for good (`strandedRun_strands`).

That window is the only way to it. A run in which no worker is in the window when
`notify_all` is called strands nobody, and from every state in which one is, the
next step of that worker strands it (`shutdown_strands_none_iff`).
-/

namespace SisProg.Scheduler

open ThreadPool

variable {Work : Type} {n m : Nat}

/-- The destructor has called `notify_all`. -/
def Destructor.notified : Destructor → Bool
  | .join _ => true
  | _ => false

/-- The condition on a step: `notify_all` is called when no worker is between the
false predicate and the block. -/
def NotifyOutsideWindow (s : ThreadPool Work n m) (a : Act Work n m) : Prop :=
  a = .notifyAll → ∀ i, s.workers i ≠ .block

instance [DecidableEq Work] (s : ThreadPool Work n m) (a : Act Work n m) :
    Decidable (NotifyOutsideWindow s a) :=
  inferInstanceAs (Decidable (a = .notifyAll → ∀ i, s.workers i ≠ .block))

instance [DecidableEq Work] (s : ThreadPool Work n m) (a : Act Work n m) :
    Decidable (((threadPool Work n m).restrict NotifyOutsideWindow).enabled s a) :=
  inferInstanceAs (Decidable (s.enabled a ∧ NotifyOutsideWindow s a))

/-- After `notify_all`: `stop_` is set, and no worker is blocked or about to
block. -/
structure ThreadPool.NoneWaiting (s : ThreadPool Work n m) : Prop where
  notified : s.destructor.notified = true
  stop : s.stop = true
  block : ∀ i, s.workers i ≠ .block
  blocked : ∀ i, s.workers i ≠ .blocked

/-- A step of one worker that neither blocks nor is about to. -/
theorem ThreadPool.NoneWaiting.worker {s t : ThreadPool Work n m} (h : s.NoneWaiting) {i : Fin n}
    {w : Worker Work} (hw : w ≠ .block ∧ w ≠ .blocked) (hd : t.destructor = s.destructor)
    (hs : t.stop = s.stop) (ht : t.workers = Function.update s.workers i w) : t.NoneWaiting where
  notified := by rw [hd]; exact h.notified
  stop := by rw [hs]; exact h.stop
  block k := by
    rw [ht]
    rcases eq_or_ne k i with rfl | hk
    · rw [Function.update_self]
      exact hw.1
    · rw [Function.update_of_ne hk]
      exact h.block k
  blocked k := by
    rw [ht]
    rcases eq_or_ne k i with rfl | hk
    · rw [Function.update_self]
      exact hw.2
    · rw [Function.update_of_ne hk]
      exact h.blocked k

theorem ThreadPool.NoneWaiting.calling {s t : ThreadPool Work n m} (h : s.NoneWaiting)
    {c : Thread n m} {e : Option (Enqueue Work)} (hd : t.destructor = s.destructor)
    (hs : t.stop = s.stop) (ht : t.workers = (s.setCalling e c).workers) : t.NoneWaiting := by
  cases c with
  | inl i => exact h.worker (w := .running e) (by simp) hd hs ht
  | inr j => exact ⟨by rw [hd]; exact h.notified, by rw [hs]; exact h.stop,
      fun i => by rw [ht]; exact h.block i, fun i => by rw [ht]; exact h.blocked i⟩

variable [DecidableEq Work]

theorem ThreadPool.NoneWaiting.next {s : ThreadPool Work n m} {a : Act Work n m}
    (h : s.NoneWaiting) (he : s.enabled a) : (s.next a).NoneWaiting := by
  cases a with
  | lock | take | unlock | sleepOver | call | finish => exact h.worker (by simp) rfl rfl rfl
  | test i =>
    -- with `stop_` set the predicate is true
    have hready : s.ready = true := by rw [ready, h.stop]; rfl
    exact h.worker (by simp [hready]) rfl rfl rfl
  | clock => exact h.worker (by split <;> simp) rfl rfl rfl
  | check i =>
    simp only [ThreadPool.next]
    split <;> exact h.worker (by simp) rfl rfl rfl
  | block i => exact absurd he (h.block i)
  | wakeUp i => exact absurd he (h.blocked i)
  | enqueue c t => exact h.calling (setCalling_destructor _ _ c) (setCalling_stop _ _ c) rfl
  | enqueueLock c t => exact h.calling (setCalling_destructor _ _ c) (setCalling_stop _ _ c) rfl
  | push c t =>
    exact h.calling (c := c) (e := some .unlock) (setCalling_destructor _ _ c)
      (setCalling_stop _ _ c) rfl
  | enqueueUnlock c =>
    exact h.calling (c := c) (e := some .notify) (setCalling_destructor _ _ c)
      (setCalling_stop _ _ c) rfl
  | notifyOne c woken =>
    cases woken with
    | none => exact h.calling (setCalling_destructor _ _ c) (setCalling_stop _ _ c) rfl
    | some i => exact absurd he.2 (h.blocked i)
  | destroy =>
    have hd := h.notified
    rw [he.1] at hd
    cases hd
  | storeStop | notifyAll =>
    have hd := h.notified
    rw [(he : s.destructor = _)] at hd
    cases hd
  | join i => exact ⟨rfl, h.stop, h.block, h.blocked⟩
  | setClock t => exact ⟨h.notified, h.stop, h.block, h.blocked⟩

/-- `notify_all` outside the window leaves no worker waiting. -/
theorem noneWaiting_notifyAll {s : ThreadPool Work n m} (hl : s.Lifecycle)
    (hd : s.destructor = .notifyAll) (hw : ∀ i, s.workers i ≠ .block) :
    (s.next .notifyAll).NoneWaiting where
  notified := rfl
  stop := by
    show s.stop = true
    rw [hl.stop_eq, hd]
    rfl
  block i := by
    show (s.workers i).wake ≠ .block
    have hi := hw i
    cases hs : s.workers i <;> simp_all [Worker.wake]
  blocked i := by
    show (s.workers i).wake ≠ .blocked
    cases s.workers i <;> simp [Worker.wake]

/-- Only `notify_all` brings the destructor to its joins. -/
theorem notified_of_next {s : ThreadPool Work n m} {a : Act Work n m} (he : s.enabled a)
    (hd : (s.next a).destructor.notified = true) :
    a = .notifyAll ∨ s.destructor.notified = true := by
  cases a with
  | notifyAll => exact .inl rfl
  | destroy | storeStop => cases hd
  | join i => exact .inr (by rw [he.1]; rfl)
  | check i =>
    simp only [ThreadPool.next] at hd
    split at hd <;> exact .inr hd
  | notifyOne c woken => cases woken <;> exact .inr (by simpa [ThreadPool.next] using hd)
  | _ => exact .inr (by simpa [ThreadPool.next] using hd)

/-- In a run whose `notify_all` meets the condition, no worker waits afterwards. -/
theorem noneWaiting_inv {s : ThreadPool Work n m}
    (h : ((threadPool Work n m).restrict NotifyOutsideWindow).Reachable s)
    (hd : s.destructor.notified = true) : s.NoneWaiting := by
  refine h.induct (P := fun s => s.destructor.notified = true → s.NoneWaiting) ?_ ?_ hd
  · intro s hs hd
    rw [hs.2.2.2.2.2] at hd
    cases hd
  · rintro s a hr ih ⟨he, hcond⟩ hd
    rcases notified_of_next he hd with rfl | hn
    · exact noneWaiting_notifyAll (lifecycle_inv hr.of_restrict) he (hcond rfl)
    · exact (ih hn).next he

/-- No worker is stranded by a shutdown that calls `notify_all` outside the
window, whatever happened before and however the threads interleave; and a call
inside the window can strand one. -/
theorem shutdown_strands_none_iff (Work : Type) [DecidableEq Work] (n m : Nat) :
    (∀ s, ((threadPool Work n m).restrict NotifyOutsideWindow).Reachable s →
      s.destructor.notified = true → ∀ i, s.workers i ≠ .blocked) ∧
    (∀ s, (threadPool Work n m).Reachable s → s.destructor = .notifyAll →
      ((∀ as t, (threadPool Work n m).Exec (s.next .notifyAll) as t →
        ∀ i, t.workers i ≠ .blocked) ↔ ∀ i, s.workers i ≠ .block)) := by
  refine ⟨fun s h hd => (noneWaiting_inv h hd).blocked, fun s h hd => ⟨?_, ?_⟩⟩
  · intro hall i hi
    -- the worker in the window blocks next, and nothing has notified it
    have hblock : (threadPool Work n m).enabled (s.next .notifyAll) (.block i) := by
      show (s.workers i).wake = .block
      rw [hi]
      rfl
    refine hall _ _ (Machine.Exec.single hblock) i ?_
    exact Function.update_self i _ _
  · intro hw as t hrun
    have hnone := noneWaiting_notifyAll (lifecycle_inv h) hd hw
    exact (hrun.induct hnone fun _ _ ih he => ih.next he).blocked

/-- A worker that blocks before the destructor begins is woken. -/
def wokenRun : List (Act Unit 1 0) :=
  [.lock only, .test only, .block only, .destroy, .storeStop, .notifyAll, .lock only]

theorem wokenRun_runs :
    (((threadPool Unit 1 0).restrict NotifyOutsideWindow).run (.start Unit 1 0)
      wokenRun).isSome := by
  decide

theorem shutdown_strands_none_wokenRun :
    ((((threadPool Unit 1 0).restrict NotifyOutsideWindow).run (.start Unit 1 0) wokenRun).get
      wokenRun_runs).workers 0 ≠ .blocked :=
  (shutdown_strands_none_iff Unit 1 0).1 _
    ((Machine.exec_run_get wokenRun_runs).reachable ThreadPool.start_init) (by decide) 0

/-- The one worker evaluates the predicate, the destructor sets `stop_` and calls
`notify_all`, and only then the worker blocks. -/
def strandedRun : List (Act Unit 1 0) :=
  [.lock only, .test only, .destroy, .storeStop, .notifyAll, .block only]

theorem strandedRun_runs :
    ((threadPool Unit 1 0).run (.start Unit 1 0) strandedRun).isSome := by
  decide

theorem strandedRun_strands :
    ∃ s, (threadPool Unit 1 0).Reachable s ∧ s.destructor.notified = true ∧
      s.workers 0 = .blocked :=
  ⟨_, (Machine.exec_run_get strandedRun_runs).reachable ThreadPool.start_init,
    by decide, by decide⟩

end SisProg.Scheduler
