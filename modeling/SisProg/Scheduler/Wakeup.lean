import SisProg.Lib.Dispatcher
import SisProg.Scheduler.Invariants

/-!
# No lost wakeup on enqueue

`notify_one` is called after the mutex is released, so a push, the pop of a
worker that was awake anyway, and the notification can come in any order. The
invariant counts: while a worker is blocked, every task of `tasks_` is paid for by
an `enqueue` that has yet to notify, by a worker that has yet to evaluate the
predicate, or by the worker that has found it true and has yet to pop
(`tasks_card_le`).

The last of the three is needed: between the predicate and the pop a worker has
evaluated the predicate, and its task is still in `tasks_` (`aboutToPop_needed`).
-/

namespace SisProg.Scheduler

open ThreadPool

variable {Work : Type} {n m : Nat}

/-! ## The three counts -/

/-- A call of `enqueue` that has pushed and not yet called `notify_one`. -/
def Enqueue.owesNotify : Option (Enqueue Work) → Nat
  | some .unlock | some .notify => 1
  | _ => 0

/-- A worker that is awake and has yet to evaluate the predicate. -/
def Worker.yetToTest : Worker Work → Nat
  | .lock | .notified | .test => 1
  | _ => 0

/-- A worker that has found the predicate true and has not popped yet. -/
def Worker.yetToPop : Worker Work → Nat
  | .check | .take => 1
  | _ => 0

/-- What a worker contributes to the three counts. -/
def Worker.credit (w : Worker Work) : Nat :=
  Enqueue.owesNotify w.enqueue + w.yetToTest + w.yetToPop

namespace ThreadPool

/-- Calls of `enqueue` that have pushed and not yet notified. -/
def pendingNotify (s : ThreadPool Work n m) : Nat :=
  ∑ i, Enqueue.owesNotify (s.workers i).enqueue + ∑ j, Enqueue.owesNotify (s.callers j)

/-- Workers that are awake and have yet to evaluate the predicate. -/
def awake (s : ThreadPool Work n m) : Nat := ∑ i, (s.workers i).yetToTest

/-- Workers that have found the predicate true and have yet to pop. -/
def aboutToPop (s : ThreadPool Work n m) : Nat := ∑ i, (s.workers i).yetToPop

def credit (s : ThreadPool Work n m) : Nat :=
  ∑ i, (s.workers i).credit + ∑ j, Enqueue.owesNotify (s.callers j)

theorem credit_eq (s : ThreadPool Work n m) :
    s.credit = s.pendingNotify + s.awake + s.aboutToPop := by
  simp only [credit, pendingNotify, awake, aboutToPop, Worker.credit, Finset.sum_add_distrib]
  omega

theorem credit_worker {s t : ThreadPool Work n m} {i : Fin n} {w : Worker Work}
    (ht : t.workers = Function.update s.workers i w) (hc : t.callers = s.callers) :
    t.credit + (s.workers i).credit = s.credit + w.credit := by
  have hsum := sum_update_add Worker.credit s.workers i w
  unfold credit
  rw [ht, hc]
  omega

/-- The thread `c` moves from `f` to `e` in its call of `enqueue`. -/
theorem credit_calling {s t : ThreadPool Work n m} {c : Thread n m}
    {e f : Option (Enqueue Work)} (hi : ∀ i, c = .inl i → s.workers i = .running f)
    (hj : ∀ j, c = .inr j → s.callers j = f) (ht : t.workers = (s.setCalling e c).workers)
    (hc : t.callers = (s.setCalling e c).callers) :
    t.credit + Enqueue.owesNotify f = s.credit + Enqueue.owesNotify e := by
  cases c with
  | inl i =>
    have hw := credit_worker (t := t) (w := .running e) ht hc
    rw [hi i rfl] at hw
    exact hw
  | inr j =>
    have hsum := sum_update_add Enqueue.owesNotify s.callers j e
    rw [hj j rfl] at hsum
    unfold credit
    rw [ht, hc]
    simp only [setCalling]
    omega

/-! ## The invariant -/

/-- While `stop_` is not set: a worker about to block has seen an empty queue, and
while a worker is blocked every task is paid for. -/
structure Paid (s : ThreadPool Work n m) : Prop where
  block : ∀ i, s.workers i = .block → s.tasks = 0
  blocked : ∀ i, s.workers i = .blocked → s.tasks.card ≤ s.credit

/-- A step that adds no task, makes no worker wait and loses no credit. -/
theorem Paid.keep {s t : ThreadPool Work n m} (h : s.Paid) (htasks : t.tasks = s.tasks)
    (hblock : ∀ k, t.workers k = .block → s.workers k = .block)
    (hblocked : ∀ k, t.workers k = .blocked → s.workers k = .blocked)
    (hcredit : s.credit ≤ t.credit) : t.Paid where
  block k hk := by rw [htasks]; exact h.block k (hblock k hk)
  blocked k hk := by rw [htasks]; exact (h.blocked k (hblocked k hk)).trans hcredit

theorem Paid.worker {s t : ThreadPool Work n m} (h : s.Paid) {i : Fin n} {w : Worker Work}
    (htasks : t.tasks = s.tasks) (ht : t.workers = Function.update s.workers i w)
    (hc : t.callers = s.callers) (hw : w ≠ .block ∧ w ≠ .blocked)
    (hcredit : (s.workers i).credit ≤ w.credit) : t.Paid := by
  have hsum := credit_worker ht hc
  refine h.keep htasks ?_ ?_ (by omega)
  all_goals
    intro k hk
    rw [ht] at hk
    rcases eq_or_ne k i with rfl | hki
    · rw [Function.update_self] at hk
      simp [hk] at hw
    · rwa [Function.update_of_ne hki] at hk

theorem waiting_of_setCalling {s : ThreadPool Work n m} {c : Thread n m}
    {e : Option (Enqueue Work)} {k : Fin n} {w : Worker Work}
    (h : (s.setCalling e c).workers k = w) (hw : ∀ f, w ≠ .running f) : s.workers k = w := by
  cases c with
  | inl i =>
    rcases eq_or_ne k i with rfl | hki
    · exact absurd (by simpa [setCalling] using h.symm) (hw e)
    · simpa [setCalling, hki] using h
  | inr j => exact h

theorem Paid.calling {s t : ThreadPool Work n m} (h : s.Paid) {c : Thread n m}
    {e f : Option (Enqueue Work)} (hi : ∀ i, c = .inl i → s.workers i = .running f)
    (hj : ∀ j, c = .inr j → s.callers j = f) (htasks : t.tasks = s.tasks)
    (ht : t.workers = (s.setCalling e c).workers) (hc : t.callers = (s.setCalling e c).callers)
    (hcredit : Enqueue.owesNotify f ≤ Enqueue.owesNotify e) : t.Paid := by
  have hsum := credit_calling hi hj ht hc
  refine h.keep htasks ?_ ?_ (by omega)
  · intro k hk
    exact waiting_of_setCalling (ht ▸ hk) (by simp)
  · intro k hk
    exact waiting_of_setCalling (ht ▸ hk) (by simp)

theorem Paid.calling_some {s t : ThreadPool Work n m} (h : s.Paid) {c : Thread n m}
    {e : Option (Enqueue Work)} {f : Enqueue Work} (hf : s.calling c = some f)
    (htasks : t.tasks = s.tasks) (ht : t.workers = (s.setCalling e c).workers)
    (hc : t.callers = (s.setCalling e c).callers)
    (hcredit : Enqueue.owesNotify (some f) ≤ Enqueue.owesNotify e) : t.Paid :=
  h.calling (fun i hi => running_of_calling (hi ▸ hf)) (fun j hj => by subst hj; exact hf)
    htasks ht hc hcredit

/-- Nothing has to be paid for. -/
theorem Paid.of_empty {s : ThreadPool Work n m} (h : s.tasks = 0) : s.Paid := by
  refine ⟨fun _ _ => h, fun _ _ => ?_⟩
  rw [h]
  exact Nat.zero_le _

/-- Nobody else is inside a locked block when a task is pushed. -/
theorem ne_block_of_push {s : ThreadPool Work n m} (hm : s.MutexOk) {c : Thread n m}
    {t : Task Work} (he : s.calling c = some (.push t)) (k : Fin n) : s.workers k ≠ .block := by
  intro hblock
  have h₁ : s.mutex = some (.inl k) := (hm (.inl k)).mpr (by simp [locks, hblock, Worker.locks])
  have h₂ : s.mutex = some c := (hm c).mpr (by rw [locks_of_calling he]; rfl)
  obtain rfl : .inl k = c := Option.some.inj (h₁.symm.trans h₂)
  rw [running_of_calling he] at hblock
  cases hblock

variable [DecidableEq Work]

/-- The worker that takes the task gives the credit back that it has for it. -/
theorem Paid.take {s : ThreadPool Work n m} (h : s.Paid) {i : Fin n} {u : Task Work}
    (hw : s.workers i = .take) (hmem : u ∈ s.tasks) : (s.next (.take i u)).Paid := by
  have hsum := credit_worker (s := s) (t := s.next (.take i u)) (w := .unlock u) rfl rfl
  rw [hw] at hsum
  have hcard := Multiset.card_erase_of_mem hmem
  have hpos : 0 < s.tasks.card := Multiset.card_pos_iff_exists_mem.mpr ⟨u, hmem⟩
  refine ⟨?_, ?_⟩
  · intro k hk
    rcases eq_or_ne k i with rfl | hki
    · simp [ThreadPool.next] at hk
    · rw [h.block k (by simpa [ThreadPool.next, hki] using hk)] at hpos
      cases hpos
  · intro k hk
    rcases eq_or_ne k i with rfl | hki
    · simp [ThreadPool.next] at hk
    · have hk' := h.blocked k (by simpa [ThreadPool.next, hki] using hk)
      have h₁ : (Worker.take : Worker Work).credit = 1 := rfl
      have h₂ : (Worker.unlock u).credit = 0 := rfl
      show (s.tasks.erase u).card ≤ _
      rw [hcard, Nat.pred_eq_sub_one]
      omega

/-- The new task is paid for by the notification that is now due. -/
theorem Paid.push {s : ThreadPool Work n m} (hm : s.MutexOk) (h : s.Paid) {c : Thread n m}
    {t : Task Work} (he : s.calling c = some (.push t)) : (s.next (.push c t)).Paid := by
  have hsum := credit_calling (e := some .unlock) (t := s.next (.push c t))
    (fun i hi => running_of_calling (hi ▸ he)) (fun j hj => by subst hj; exact he) rfl rfl
  refine ⟨?_, ?_⟩
  · intro k hk
    exact absurd (waiting_of_setCalling (e := some .unlock) (c := c) hk (by simp))
      (ne_block_of_push hm he k)
  · intro k hk
    have hk' := h.blocked k (waiting_of_setCalling (e := some .unlock) (c := c) hk (by simp))
    show (t ::ₘ s.tasks).card ≤ _
    rw [Multiset.card_cons]
    have h₁ : Enqueue.owesNotify (some (.push t) : Option (Enqueue Work)) = 0 := rfl
    have h₂ : Enqueue.owesNotify (some .unlock : Option (Enqueue Work)) = 1 := rfl
    omega

/-- Nobody is blocked, so nothing has to be paid for. -/
theorem Paid.notify_none {s : ThreadPool Work n m} (h : s.Paid) {c : Thread n m}
    (hnone : ∀ k, s.workers k ≠ .blocked) : (s.next (.notifyOne c none)).Paid := by
  refine ⟨?_, fun k hk => absurd ?_ (hnone k)⟩
  · intro k hk
    rw [show (s.next (.notifyOne c none)).tasks = s.tasks from setCalling_tasks _ _ _]
    exact h.block k (waiting_of_setCalling (e := none) (c := c) hk (by simp))
  · exact waiting_of_setCalling (e := none) (c := c) hk (by simp)

/-- A worker that waits after `notify_one` has waited before. -/
theorem waiting_of_notify {s : ThreadPool Work n m} {c : Thread n m} {i k : Fin n}
    {w : Worker Work} (h : (s.next (.notifyOne c (some i))).workers k = w)
    (hw : ∀ f, w ≠ .running f) (hne : w ≠ .notified) : s.workers k = w := by
  have hk : (s.setWorker i .notified).workers k = w :=
    waiting_of_setCalling (e := none) (c := c) h hw
  rcases eq_or_ne k i with rfl | hki
  · exact absurd (by simpa using hk.symm) hne
  · simpa [hki] using hk

/-- The notification that was due is now a worker that is awake. -/
theorem Paid.notify_some {s : ThreadPool Work n m} (h : s.Paid) {c : Thread n m} {i : Fin n}
    (hc : s.calling c = some .notify) (hi : s.workers i = .blocked) :
    (s.next (.notifyOne c (some i))).Paid := by
  have hrunning : ∀ k, c = .inl k →
      (s.setWorker i .notified).workers k = .running (some .notify) := by
    rintro k rfl
    have hrun := running_of_calling hc
    have hki : k ≠ i := by
      rintro rfl
      rw [hi] at hrun
      cases hrun
    simpa [hki] using hrun
  have hwake := credit_worker (s := s) (t := s.setWorker i .notified) (w := .notified) rfl rfl
  have hcall := credit_calling (t := s.next (.notifyOne c (some i))) (e := none) hrunning
    (fun j hj => by subst hj; exact hc) rfl rfl
  have h₁ : (Worker.blocked : Worker Work).credit = 0 := rfl
  have h₂ : (Worker.notified : Worker Work).credit = 1 := rfl
  have h₃ : Enqueue.owesNotify (some .notify : Option (Enqueue Work)) = 1 := rfl
  rw [hi] at hwake
  refine h.keep (setCalling_tasks _ _ _) ?_ ?_ (by omega)
  · intro k hk
    exact waiting_of_notify hk (by simp) (by simp)
  · intro k hk
    exact waiting_of_notify hk (by simp) (by simp)

theorem Paid.next {s : ThreadPool Work n m} {a : Act Work n m} (hm : s.MutexOk)
    (hl : s.Lifecycle) (h : s.Paid) (he : s.enabled a) (hstop : (s.next a).stop = false) :
    (s.next a).Paid := by
  cases a with
  | lock i =>
    refine h.worker (w := .test) rfl rfl rfl (by simp) ?_
    rcases he.1 with hw | hw <;> rw [hw] <;> exact le_rfl
  | test i =>
    replace he : s.workers i = .test := he
    replace hstop : s.stop = false := hstop
    by_cases hready : s.ready = true
    · exact h.worker (i := i) (w := .check) rfl (by simp [ThreadPool.next, hready]) rfl (by simp)
        (by rw [he]; exact le_rfl)
    · -- the predicate was false, so the queue is empty
      have hempty : s.tasks = 0 := by simpa [ready, hstop] using hready
      exact .of_empty hempty
  -- the worker holds the mutex since it saw the empty queue
  | block i => exact .of_empty (h.block i he)
  | wakeUp i =>
    exact h.worker (w := .notified) rfl rfl rfl (by simp)
      (by rw [(he : s.workers i = .blocked)]; exact Nat.zero_le _)
  | check i =>
    replace he : s.workers i = .check := he
    simp only [ThreadPool.next] at hstop ⊢
    split at hstop
    · next hcond => exact absurd hcond.1 (by simp_all)
    · next hcond =>
      rw [if_neg hcond]
      exact h.worker (w := .take) rfl rfl rfl (by simp) (by rw [he]; exact le_rfl)
  | take i u => exact h.take he.1 he.2.1
  | unlock i u =>
    exact h.worker (w := .clock u) rfl rfl rfl (by simp)
      (by rw [(he : s.workers i = .unlock u)]; exact le_rfl)
  | clock i u =>
    refine h.worker rfl rfl rfl (by split <;> simp) ?_
    rw [(he : s.workers i = .clock u)]
    exact Nat.zero_le _
  | sleepOver i u =>
    exact h.worker (w := .call u) rfl rfl rfl (by simp) (by rw [he.1]; exact le_rfl)
  | call i u =>
    exact h.worker (w := .running none) rfl rfl rfl (by simp)
      (by rw [(he : s.workers i = .call u)]; exact le_rfl)
  | finish i =>
    exact h.worker (w := .lock) rfl rfl rfl (by simp)
      (by rw [(he : s.workers i = .running none)]; exact Nat.zero_le _)
  | enqueue c t =>
    refine h.calling (c := c) (e := some (.lock t)) (f := none) ?_ ?_
      (setCalling_tasks _ _ _) rfl rfl le_rfl
    · intro i hi
      subst hi; exact he
    · intro j hj
      subst hj; exact he.1
  | enqueueLock c t =>
    exact h.calling_some (e := some (.push t)) he.1 (setCalling_tasks _ _ _) rfl rfl le_rfl
  | push c t => exact h.push hm he
  | enqueueUnlock c =>
    exact h.calling_some (e := some .notify) he (setCalling_tasks _ _ _) rfl rfl le_rfl
  | notifyOne c woken =>
    cases woken with
    | none => exact h.notify_none he.2
    | some i => exact h.notify_some he.1 he.2
  | destroy => exact h.keep rfl (fun _ hk => hk) (fun _ hk => hk) le_rfl
  | storeStop => cases hstop
  | notifyAll =>
    replace hstop : s.stop = false := hstop
    rw [hl.stop_eq, (he : s.destructor = .notifyAll)] at hstop
    cases hstop
  | join => exact h.keep rfl (fun _ hk => hk) (fun _ hk => hk) le_rfl
  | setClock => exact h.keep rfl (fun _ hk => hk) (fun _ hk => hk) le_rfl

theorem stop_of_next {s : ThreadPool Work n m} {a : Act Work n m}
    (h : (s.next a).stop = false) : s.stop = false := by
  cases a with
  | storeStop => cases h
  | check i =>
    simp only [ThreadPool.next] at h
    split at h <;> exact h
  | notifyOne c woken => cases woken <;> simpa [ThreadPool.next] using h
  | _ => simpa [ThreadPool.next] using h

end ThreadPool

variable [DecidableEq Work]

theorem paid_inv {s : ThreadPool Work n m} (h : (threadPool Work n m).Reachable s)
    (hstop : s.stop = false) : s.Paid := by
  refine h.induct (P := fun s => s.stop = false → s.Paid) ?_ ?_ hstop
  · rintro s ⟨-, -, -, hw, -⟩ -
    exact ⟨fun i hi => by simp [hw] at hi, fun i hi => by simp [hw] at hi⟩
  · intro s a hr ih he hstop
    exact (ih (stop_of_next hstop)).next (mutex_inv hr) (lifecycle_inv hr) he hstop

/-! ## The bound -/

omit [DecidableEq Work] in
/-- A worker between the predicate and the pop holds the mutex. -/
theorem mutex_of_yetToPop {s : ThreadPool Work n m} (hm : s.MutexOk) {i : Fin n}
    (hi : (s.workers i).yetToPop ≠ 0) : s.mutex = some (.inl i) := by
  refine (hm (.inl i)).mpr ?_
  show (s.workers i).locks = true
  cases hw : s.workers i <;> simp_all [Worker.yetToPop, Worker.locks]

omit [DecidableEq Work] in
theorem aboutToPop_le_one {s : ThreadPool Work n m} (hm : s.MutexOk) : s.aboutToPop ≤ 1 := by
  by_cases hex : ∃ i, (s.workers i).yetToPop ≠ 0
  · obtain ⟨i, hi⟩ := hex
    have hsum : s.aboutToPop = (s.workers i).yetToPop := by
      refine Finset.sum_eq_single i ?_ (fun h => absurd (Finset.mem_univ i) h)
      intro k _ hki
      by_contra hk
      have hboth := (mutex_of_yetToPop hm hk).symm.trans (mutex_of_yetToPop hm hi)
      exact hki (Sum.inl.inj (Option.some.inj hboth))
    rw [hsum]
    unfold Worker.yetToPop
    split <;> decide
  · push Not at hex
    exact (Finset.sum_eq_zero fun i _ => hex i).trans_le (Nat.zero_le 1)

/-- Before the destructor begins, while a worker is blocked and not notified, the
tasks of `tasks_` are no more than the calls of `enqueue` that have pushed and not
yet notified, plus the workers that are awake and have yet to evaluate the
predicate, plus the workers that have found it true and have yet to pop. Of the
last kind there is at most one, and it holds `mutex_`. -/
theorem tasks_card_le {s : ThreadPool Work n m} (h : (threadPool Work n m).Reachable s)
    (hd : s.destructor = .idle) (hb : ∃ i, s.workers i = .blocked) :
    s.tasks.card ≤ s.pendingNotify + s.awake + s.aboutToPop ∧ s.aboutToPop ≤ 1 ∧
      (∀ i, (s.workers i).yetToPop ≠ 0 → s.mutex = some (.inl i)) ∧
      (s.tasks ≠ 0 → 0 < s.pendingNotify + s.awake + s.aboutToPop) := by
  obtain ⟨i, hi⟩ := hb
  have hstop : s.stop = false := by
    rw [(lifecycle_inv h).stop_eq, hd]
    rfl
  have hcard : s.tasks.card ≤ s.pendingNotify + s.awake + s.aboutToPop := by
    rw [← credit_eq]
    exact (paid_inv h hstop).blocked i hi
  refine ⟨hcard, aboutToPop_le_one (mutex_inv h), ?_, ?_⟩
  · intro k
    exact mutex_of_yetToPop (mutex_inv h)
  intro hne
  exact (Multiset.card_pos.mpr hne).trans_le hcard

/-- Both workers block; a task is pushed; the notified worker finds the predicate
true. -/
def awakeRun : List (Act Unit 2 1) :=
  let u : Task Unit := ⟨1, 0, 0, 0, ()⟩
  [.lock 0, .test 0, .block 0, .lock 1, .test 1, .block 1,
   .enqueue (.inr only) u, .enqueueLock (.inr only) u, .push (.inr only) u,
   .enqueueUnlock (.inr only), .notifyOne (.inr only) (some 0), .lock 0, .test 0]

theorem awakeRun_runs : ((threadPool Unit 2 1).run (.start Unit 2 1) awakeRun).isSome := by
  decide

def awakeEnd : ThreadPool Unit 2 1 :=
  ((threadPool Unit 2 1).run (.start Unit 2 1) awakeRun).get awakeRun_runs

theorem awakeEnd_reachable : (threadPool Unit 2 1).Reachable awakeEnd :=
  (Machine.exec_run_get awakeRun_runs).reachable ThreadPool.start_init

theorem tasks_card_le_awakeRun :
    awakeEnd.tasks.card ≤ awakeEnd.pendingNotify + awakeEnd.awake + awakeEnd.aboutToPop :=
  (tasks_card_le awakeEnd_reachable (by decide) ⟨1, by decide⟩).1

/-- Without the worker that is about to pop, the bound fails. -/
theorem aboutToPop_needed :
    (threadPool Unit 2 1).Reachable awakeEnd ∧ awakeEnd.destructor = .idle ∧
      awakeEnd.workers 1 = .blocked ∧
      ¬ awakeEnd.tasks.card ≤ awakeEnd.pendingNotify + awakeEnd.awake :=
  ⟨awakeEnd_reachable, by decide, by decide, by decide⟩

end SisProg.Scheduler
