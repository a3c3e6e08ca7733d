import SisProg.Lib.Threads
import SisProg.Scheduler.ThreadPool

/-!
# What holds in every state of the pool

* `mutex_inv`: `mutex_` is held by the one thread whose program point lies inside
  a locked block, and is free when there is none.
* `lifecycle_inv`: `stop_` is set by the destructor only, workers return only
  after that, and outside threads push nothing once the destructor has begun.
-/

namespace SisProg.Scheduler

variable {Work : Type} {n m : Nat}

/-! ## The threads that hold the mutex -/

def Enqueue.locks : Option (Enqueue Work) → Bool
  | some (.push _) | some .unlock => true
  | _ => false

def Worker.locks : Worker Work → Bool
  | .test | .block | .check | .take | .unlock _ => true
  | .running e => Enqueue.locks e
  | _ => false

theorem Worker.locks_wake (w : Worker Work) : w.wake.locks = w.locks := by
  cases w <;> rfl

theorem Worker.wake_eq_returned {w : Worker Work} (h : w.wake = .returned) : w = .returned := by
  cases w <;> first | rfl | cases h

/-- The destructor has set `stop_`. -/
def Destructor.stopped : Destructor → Bool
  | .notifyAll | .join _ => true
  | _ => false

namespace ThreadPool

/-- The thread `c` is at a program point inside a locked block. -/
def locks (s : ThreadPool Work n m) : Thread n m → Bool
  | .inl i => (s.workers i).locks
  | .inr j => Enqueue.locks (s.callers j)

theorem locks_setWorker (s : ThreadPool Work n m) (i : Fin n) (w : Worker Work)
    (c : Thread n m) : (s.setWorker i w).locks c = if c = .inl i then w.locks else s.locks c := by
  cases c with
  | inl k =>
    simp only [locks, setWorker_workers, Function.update_apply, Sum.inl.injEq]
    split <;> rfl
  | inr j => simp [locks]

theorem locks_setCalling (s : ThreadPool Work n m) (e : Option (Enqueue Work)) (c d : Thread n m) :
    (s.setCalling e c).locks d = if d = c then Enqueue.locks e else s.locks d := by
  cases c with
  | inl i => exact locks_setWorker s i (.running e) d
  | inr j =>
    cases d with
    | inl k => simp [locks, setCalling]
    | inr k =>
      simp only [locks, setCalling, Function.update_apply, Sum.inr.injEq]
      split <;> rfl

theorem locks_of_calling {s : ThreadPool Work n m} {c : Thread n m} {e : Enqueue Work}
    (h : s.calling c = some e) : s.locks c = Enqueue.locks (some e) := by
  cases c with
  | inl i => rw [locks, running_of_calling h, Worker.locks]
  | inr j => exact congrArg Enqueue.locks h

theorem locks_setWorker_same {s : ThreadPool Work n m} {i : Fin n} {w : Worker Work}
    (h : w.locks = (s.workers i).locks) (c : Thread n m) :
    (s.setWorker i w).locks c = s.locks c := by
  rw [locks_setWorker]
  split
  · next hc => rw [h, hc]; rfl
  · rfl

theorem locks_setCalling_same {s : ThreadPool Work n m} {e : Option (Enqueue Work)}
    {c : Thread n m} (h : Enqueue.locks e = s.locks c) (d : Thread n m) :
    (s.setCalling e c).locks d = s.locks d := by
  rw [locks_setCalling]
  split
  · next hd => rw [h, hd]
  · rfl

/-- `mutex_` is held exactly by the thread inside a locked block. -/
def MutexOk (s : ThreadPool Work n m) : Prop := ∀ c, s.mutex = some c ↔ s.locks c = true

/-- A step that neither takes nor releases the mutex, and moves no thread into or
out of a locked block. -/
theorem MutexOk.keep {s t : ThreadPool Work n m} (h : s.MutexOk) (hm : t.mutex = s.mutex)
    (hl : ∀ c, t.locks c = s.locks c) : t.MutexOk := fun c => by rw [hm, hl]; exact h c

theorem MutexOk.acquire {s t : ThreadPool Work n m} {c : Thread n m} (h : s.MutexOk)
    (hfree : s.mutex = none) (hm : t.mutex = some c)
    (hl : ∀ d, t.locks d = if d = c then true else s.locks d) : t.MutexOk := by
  have hlocks : t.locks = Function.update s.locks c true :=
    funext fun d => (hl d).trans (Function.update_apply ..).symm
  have hnone : Exclusive id none s.locks := hfree ▸ h
  show Exclusive id t.mutex t.locks
  rw [hm, hlocks]
  exact hnone.acquire rfl

theorem MutexOk.release {s t : ThreadPool Work n m} {c : Thread n m} (h : s.MutexOk)
    (hc : s.locks c = true) (hm : t.mutex = none)
    (hl : ∀ d, t.locks d = if d = c then false else s.locks d) : t.MutexOk := by
  have hlocks : t.locks = Function.update s.locks c false :=
    funext fun d => (hl d).trans (Function.update_apply ..).symm
  show Exclusive id t.mutex t.locks
  rw [hm, hlocks]
  exact Exclusive.release h hc rfl

/-! ## The life of a pool -/

/-- `stop_` is set by the destructor, workers return only after that, and an
outside thread has nothing left to push once the destructor has begun. -/
structure Lifecycle (s : ThreadPool Work n m) : Prop where
  stop_eq : s.stop = s.destructor.stopped
  returned_stop : ∀ i, s.workers i = .returned → s.stop = true
  pushed : s.destructor ≠ .idle → ∀ j, Enqueue.unpushed (s.callers j) = false

/-- A step that leaves `stop_` and the destructor alone, lets no worker return,
and begins no outside push after the destructor has begun. -/
theorem Lifecycle.keep {s t : ThreadPool Work n m} (h : s.Lifecycle) (hs : t.stop = s.stop)
    (hd : t.destructor = s.destructor)
    (hw : ∀ i, t.workers i = .returned → s.workers i = .returned)
    (hc : s.destructor ≠ .idle → ∀ j, Enqueue.unpushed (t.callers j) = true →
      Enqueue.unpushed (s.callers j) = true) : t.Lifecycle where
  stop_eq := by rw [hs, hd, h.stop_eq]
  returned_stop i hi := by rw [hs]; exact h.returned_stop i (hw i hi)
  pushed hne j := by
    rw [hd] at hne
    by_contra hj
    have := hc hne j (by simpa using hj)
    rw [h.pushed hne j] at this
    cases this

theorem Lifecycle.worker {s t : ThreadPool Work n m} (h : s.Lifecycle) {i : Fin n}
    {w : Worker Work} (hw : w ≠ .returned) (hs : t.stop = s.stop)
    (hd : t.destructor = s.destructor) (hc : t.callers = s.callers)
    (ht : t.workers = Function.update s.workers i w) : t.Lifecycle := by
  refine h.keep hs hd ?_ (fun _ j hj => by rwa [hc] at hj)
  intro k hk
  rcases eq_or_ne k i with rfl | hki
  · rw [ht, Function.update_self] at hk
    exact absurd hk hw
  · rwa [ht, Function.update_of_ne hki] at hk

theorem Lifecycle.calling {s t : ThreadPool Work n m} (h : s.Lifecycle) {c : Thread n m}
    {e : Option (Enqueue Work)}
    (he : s.destructor ≠ .idle → ∀ j, c = .inr j → Enqueue.unpushed e = true →
      Enqueue.unpushed (s.callers j) = true)
    (hs : t.stop = s.stop) (hd : t.destructor = s.destructor)
    (hw : t.workers = (s.setCalling e c).workers) (hc : t.callers = (s.setCalling e c).callers) :
    t.Lifecycle := by
  cases c with
  | inl i => exact h.worker (w := .running e) (by simp) hs hd hc hw
  | inr j =>
    refine h.keep hs hd (fun k hk => by rwa [hw] at hk) ?_
    intro hne k hk
    rw [hc] at hk
    rcases eq_or_ne k j with rfl | hkj
    · exact he hne k rfl (by simpa [setCalling] using hk)
    · simpa [setCalling, hkj] using hk

theorem unpushed_of_calling {s : ThreadPool Work n m} {j : Fin m} {e : Enqueue Work}
    (h : s.calling (.inr j) = some e) :
    Enqueue.unpushed (s.callers j) = Enqueue.unpushed (some e) :=
  congrArg Enqueue.unpushed h

/-! ## The invariants are kept by every step -/

variable [DecidableEq Work]

theorem MutexOk.next {s : ThreadPool Work n m} {a : Act Work n m} (h : s.MutexOk)
    (he : s.enabled a) : (s.next a).MutexOk := by
  -- a worker that moves between two points on the same side of the lock
  have worker (i : Fin n) (w : Worker Work) (hw : w.locks = (s.workers i).locks) :
      (s.setWorker i w).MutexOk := h.keep rfl (locks_setWorker_same hw)
  cases a with
  | lock i => exact h.acquire he.2 rfl (locks_setWorker s i .test)
  | test i =>
    refine worker i _ ?_
    rw [(he : s.workers i = .test)]
    split <;> rfl
  | block i =>
    have hl : s.locks (.inl i) = true := by rw [locks, (he : s.workers i = .block)]; rfl
    exact h.release hl rfl (locks_setWorker s i .blocked)
  | wakeUp i => exact worker i _ (by rw [(he : s.workers i = .blocked)]; rfl)
  | check i =>
    have hl : s.locks (.inl i) = true := by rw [locks, (he : s.workers i = .check)]; rfl
    simp only [ThreadPool.next]
    split
    · exact h.release hl rfl (locks_setWorker s i .returned)
    · exact worker i _ hl.symm
  | take i u =>
    exact h.keep rfl (locks_setWorker_same (w := .unlock u) (by rw [he.1]; rfl))
  | unlock i u =>
    have hl : s.locks (.inl i) = true := by rw [locks, (he : s.workers i = .unlock u)]; rfl
    exact h.release hl rfl (locks_setWorker s i (.clock u))
  | clock i u =>
    refine worker i _ ?_
    rw [(he : s.workers i = .clock u)]
    split <;> rfl
  | sleepOver i u => exact worker i _ (by rw [he.1]; rfl)
  | call i u => exact worker i _ (by rw [(he : s.workers i = .call u)]; rfl)
  | finish i => exact worker i _ (by rw [(he : s.workers i = .running none)]; rfl)
  | enqueue c t =>
    refine h.keep (setCalling_mutex _ _ _) (locks_setCalling_same ?_)
    cases c with
    | inl i => rw [locks, (he : s.workers i = .running none)]; rfl
    | inr j => rw [locks, he.1]; rfl
  | enqueueLock c t => exact h.acquire he.2 rfl (locks_setCalling s (some (.push t)) c)
  | push c t =>
    exact h.keep (setCalling_mutex _ _ _)
      (locks_setCalling_same (e := some .unlock) (by rw [locks_of_calling he]; rfl))
  | enqueueUnlock c =>
    have hl : s.locks c = true := by rw [locks_of_calling he]; rfl
    exact h.release hl rfl (locks_setCalling s (some .notify) c)
  | notifyOne c woken =>
    have hc : Enqueue.locks (none : Option (Enqueue Work)) = s.locks c := by
      cases woken <;> rw [locks_of_calling he.1] <;> rfl
    cases woken with
    | none => exact h.keep (setCalling_mutex _ _ _) (locks_setCalling_same hc)
    | some i =>
      have hi : (s.setWorker i .notified).MutexOk := worker i _ (by rw [he.2]; rfl)
      refine hi.keep (setCalling_mutex _ _ _) (locks_setCalling_same ?_)
      rw [locks_setWorker_same (by rw [he.2]; rfl), ← hc]
  | notifyAll =>
    refine h.keep rfl ?_
    intro c
    cases c with
    | inl i => exact Worker.locks_wake _
    | inr j => rfl
  | destroy | storeStop | join | setClock => exact h.keep rfl fun c => by cases c <;> rfl

theorem Lifecycle.next {s : ThreadPool Work n m} {a : Act Work n m} (h : s.Lifecycle)
    (he : s.enabled a) : (s.next a).Lifecycle := by
  cases a with
  | lock | block | wakeUp | take | unlock | sleepOver | call | finish =>
    exact h.worker (by simp) rfl rfl rfl rfl
  | test => exact h.worker (by split <;> simp) rfl rfl rfl rfl
  | clock => exact h.worker (by split <;> simp) rfl rfl rfl rfl
  | check i =>
    simp only [ThreadPool.next]
    split
    · next hstop =>
      -- the worker returns, and has just seen `stop_`
      exact ⟨h.stop_eq, fun _ _ => hstop.1, h.pushed⟩
    · exact h.worker (by simp) rfl rfl rfl rfl
  | enqueue c t =>
    refine h.calling (c := c) ?_ (setCalling_stop _ _ _)
      (setCalling_destructor _ _ _) rfl rfl
    intro hne j hc
    subst hc
    exact absurd he.2 hne
  | enqueueLock c t =>
    refine h.calling (c := c) ?_ (setCalling_stop _ _ _)
      (setCalling_destructor _ _ _) rfl rfl
    intro _ j hc _
    subst hc
    rw [unpushed_of_calling he.1]
    rfl
  | push c t =>
    exact h.calling (c := c) (e := some .unlock) (by simp [Enqueue.unpushed])
      (setCalling_stop _ _ _) (setCalling_destructor _ _ _) rfl rfl
  | enqueueUnlock c =>
    exact h.calling (c := c) (e := some .notify) (by simp [Enqueue.unpushed])
      (setCalling_stop _ _ _) (setCalling_destructor _ _ _) rfl rfl
  | notifyOne c woken =>
    cases woken with
    | none =>
      exact h.calling (c := c) (e := none) (by simp [Enqueue.unpushed])
        (setCalling_stop _ _ _) (setCalling_destructor _ _ _) rfl rfl
    | some i =>
      have hi : (s.setWorker i .notified).Lifecycle := h.worker (by simp) rfl rfl rfl rfl
      exact hi.calling (c := c) (e := none) (by simp [Enqueue.unpushed])
        (setCalling_stop _ _ _) (setCalling_destructor _ _ _) rfl rfl
  | destroy =>
    exact ⟨h.stop_eq.trans (by rw [he.1]; rfl), h.returned_stop, fun _ => he.2⟩
  | storeStop =>
    exact ⟨rfl, fun _ _ => rfl, fun _ => h.pushed (by rw [(he : s.destructor = _)]; simp)⟩
  | notifyAll =>
    refine ⟨?_, fun i hi => h.returned_stop i ?_, fun _ =>
      h.pushed (by rw [(he : s.destructor = _)]; simp)⟩
    · exact h.stop_eq.trans (by rw [(he : s.destructor = _)]; rfl)
    · exact Worker.wake_eq_returned hi
  | join i =>
    exact ⟨h.stop_eq.trans (by rw [he.1]; rfl), h.returned_stop, fun _ =>
      h.pushed (by rw [he.1]; simp)⟩
  | setClock => exact ⟨h.stop_eq, h.returned_stop, h.pushed⟩

end ThreadPool

variable [DecidableEq Work]

theorem mutex_inv {s : ThreadPool Work n m} (h : (threadPool Work n m).Reachable s) :
    s.MutexOk := by
  refine h.induct ?_ fun _ _ _ ih he => ih.next he
  rintro s ⟨-, -, hm, hw, hc, -⟩ c
  cases c with
  | inl i => simp [hm, ThreadPool.locks, hw, Worker.locks]
  | inr j => simp [hm, ThreadPool.locks, hc, Enqueue.locks]

theorem lifecycle_inv {s : ThreadPool Work n m} (h : (threadPool Work n m).Reachable s) :
    s.Lifecycle := by
  refine h.induct ?_ fun _ _ _ ih he => ih.next he
  rintro s ⟨-, hstop, -, hw, hc, hd⟩
  exact ⟨by rw [hstop, hd]; rfl, fun i hi => by simp [hw i] at hi, fun hne => absurd hd hne⟩

end SisProg.Scheduler
