import Mathlib.Algebra.Order.BigOperators.Group.Finset
import SisProg.Lib.Termination
import SisProg.Threads.Balance

/-!
# After `done` is set

`main` sets `done` without the mutex, and then notifies all threads on both condition
variables. A thread that has found `done` false and has not called `wait` yet sees neither
of it. It holds the mutex, so that there is one such thread at most.

`shutdown_strands_one`: every run that follows is bounded, and where it stops all threads
have returned but possibly this one, for which `main` waits in `join`.
-/

namespace SisProg.Threads

variable {p c : Nat} {prog : Program} {bound : Nat}

/-! ## The steps that are left -/

/-- A consumer of `consWork` notifies and consumes behind its loop. -/
def Program.late (prog : Program) : Thread p c → Bool
  | .inl _ => false
  | .inr _ => decide (prog = .consWork)

/-- How far a thread is from its end, when `done` is set. Nobody blocks a second time. -/
def Pc.rank (late : Bool) : Pc → Nat
  | .returned => 0
  | .test => if late then 3 else 1
  | .consume => if late then 1 else 2
  | .notify => if late then 2 else 3
  | .unlock => 4
  | .pop => 5
  | .take | .emplace | .check => 6
  | .guard => 7
  | .lock | .notified => 8
  | .blocked => 9
  | .wait | .produce => 10

theorem rank_le (late : Bool) (pc : Pc) : pc.rank late ≤ 10 := by
  cases pc <;> cases late <;> decide

def Main.rank : Main → Nat
  | .sleep => 3
  | .notifyFirst => 2
  | .notifySecond => 1
  | .join => 0

/-- The steps that a thread takes only while `done` is false. -/
def Act.Running : Act p c → Prop
  | .enter _ | .stay _ => True
  | _ => False

def Act.Spurious : Act p c → Prop
  | .wakeUp _ => True
  | _ => False

/-- The thread whose step it is. -/
def Act.actor : Act p c → Option (Thread p c)
  | .enter k | .leave k | .lock k | .mustWait k | .proceed k | .quit k | .stay k | .wait k
  | .wakeUp k | .unlock k | .notifyOne k _ => some k
  | .produce i | .emplace i _ => some (.inl i)
  | .take j _ | .pop j _ | .consume j => some (.inr j)
  | .setDone | .notifyFirst | .notifySecond => none

theorem Local.Step.rank_lt {k : Thread p c} {a : Act p c} {x y : Local}
    (h : Local.Step prog k a x y) (ha : ¬ a.Running) :
    y.pc.rank (prog.late k) < x.pc.rank (prog.late k) := by
  cases h with
  | enter | stay => exact absurd trivial ha
  | leave | proceed | unlock | notify =>
    cases k <;> cases prog <;>
      simp [Pc.rank, Program.late, Program.afterLoop, Program.behindLoop, afterGuard,
        Program.afterUnlock, Program.afterPop, afterNotify]
  | consume => cases prog <;> simp [Pc.rank, Program.late, Program.afterConsume]
  | _ => simp [Pc.rank]

/-- The steps of `main` only wake threads. -/
theorem Local.Step.woken {k : Thread p c} {a : Act p c} {x y : Local}
    (h : Local.Step prog k a x y) (ha : a.actor = none) : y.pc = .notified := by
  cases h with
  | notifiedFirst | notifiedSecond => rfl
  | _ => cases ha

namespace Queue

variable {s t : Queue p c} {a : Act p c}

theorem not_running (he : s.enabled bound a) (hdone : s.done = true) : ¬ a.Running := by
  intro ha
  cases a with
  | enter k | stay k =>
    have hfalse := he.2
    rw [hdone] at hfalse
    cases hfalse
  | _ => exact ha

theorem done_next (prog : Program) (hdone : s.done = true) : (s.next prog a).done = true := by
  cases a with
  | setDone => rfl
  | notifyOne k woken => cases woken <;> exact hdone
  | _ => exact hdone

/-- The thread goes on. -/
theorem actor_pc_ne {k : Thread p c} (he : s.enabled bound a) (hk : a.actor = some k) :
    ((s.next prog a).threads k).pc ≠ (s.threads k).pc := by
  cases a with
  | setDone | notifyFirst | notifySecond => cases hk
  | enter j | leave j | proceed j =>
    obtain rfl : j = k := Option.some.inj hk
    rw [he.1]
    cases j <;> cases prog <;>
      simp [Queue.next, afterEnter, afterGuard, Program.afterLoop, Program.behindLoop]
  | lock j =>
    obtain rfl : j = k := Option.some.inj hk
    rcases he.1 with hpc | hpc <;> simp [Queue.next, hpc]
  | notifyOne j woken =>
    obtain rfl : j = k := Option.some.inj hk
    have hpc := pc_of_notifyOne he
    cases woken with
    | none => cases j <;> simp [Queue.next, afterNotify, hpc]
    | some w =>
      have hne : w ≠ j := ne_of_other_side he.2.1
      cases j <;> simp [Queue.next, afterNotify, hpc, Function.update_of_ne hne.symm]
  | unlock j =>
    obtain rfl : j = k := Option.some.inj hk
    have hpc : (s.threads j).pc = .unlock := he
    rw [hpc]
    cases j <;> cases prog <;> simp [Queue.next, Program.afterUnlock, Program.afterPop]
  | consume j =>
    obtain rfl : .inr j = k := Option.some.inj hk
    have hpc : (s.threads (.inr j)).pc = .consume := he
    rw [hpc]
    cases prog <;> simp [Queue.next, Program.afterConsume]
  | mustWait j | quit j | stay j | take j e | pop j e =>
    obtain rfl := Option.some.inj hk
    simp [Queue.next, he.1]
  | wait j | wakeUp j =>
    obtain rfl : j = k := Option.some.inj hk
    have hpc : (s.threads j).pc = _ := he
    simp [Queue.next, hpc]
  | produce i =>
    obtain rfl : .inl i = k := Option.some.inj hk
    have hpc : (s.threads (.inl i)).pc = .produce := he
    simp [Queue.next, hpc]
  | emplace i e =>
    obtain rfl : .inl i = k := Option.some.inj hk
    have hpc : s.threads (.inl i) = ⟨.emplace, some e⟩ := he
    simp [Queue.next, hpc]

/-- What is left of the run. -/
def left (prog : Program) (s : Queue p c) : Nat :=
  ∑ k, (s.threads k).pc.rank (prog.late k) + s.main.rank

theorem rank_next_le (he : s.enabled bound a) (hdone : s.done = true) (k : Thread p c) :
    ((s.next prog a).threads k).pc.rank (prog.late k) ≤ (s.threads k).pc.rank (prog.late k) := by
  rcases step_next he k with heq | hstep
  · rw [heq]
  · exact (hstep.rank_lt (not_running he hdone)).le

theorem rank_next_lt {k : Thread p c} (he : s.enabled bound a) (hdone : s.done = true)
    (hk : a.actor = some k) :
    ((s.next prog a).threads k).pc.rank (prog.late k) < (s.threads k).pc.rank (prog.late k) := by
  rcases @step_next p c prog bound s a he k with heq | hstep
  · exact absurd (congrArg Local.pc heq) (actor_pc_ne he hk)
  · exact hstep.rank_lt (not_running he hdone)

theorem main_next {k : Thread p c} (hk : a.actor = some k) : (s.next prog a).main = s.main := by
  cases a with
  | setDone | notifyFirst | notifySecond => cases hk
  | notifyOne k' woken => cases woken <;> rfl
  | _ => rfl

theorem main_rank_lt (he : s.enabled bound a) (ha : a.actor = none) :
    (s.next prog a).main.rank < s.main.rank := by
  cases a with
  | setDone | notifyFirst | notifySecond =>
    have hmain : s.main = _ := he
    rw [hmain]
    exact Nat.lt_succ_self _
  | _ => cases ha

theorem left_next_lt (he : s.enabled bound a) (hdone : s.done = true) :
    (s.next prog a).left prog < s.left prog := by
  cases ha : a.actor with
  | none =>
    exact Nat.add_lt_add_of_le_of_lt (Finset.sum_le_sum fun k _ => rank_next_le he hdone k)
      (main_rank_lt he ha)
  | some k =>
    unfold left
    rw [main_next ha]
    exact Nat.add_lt_add_right (Finset.sum_lt_sum (fun k _ => rank_next_le he hdone k)
      ⟨k, Finset.mem_univ k, rank_next_lt he hdone ha⟩) _

/-! ## Who misses the notifications -/

/-- The condition variable of the thread has been notified. -/
def Signalled (prog : Program) (s : Queue p c) (k : Thread p c) : Prop :=
  s.main = .join ∨ s.main = .notifySecond ∧ k.isLeft = prog.producersFirst

/-- The thread waits for a notification, and `main` does not notify it any more, or the thread
is about to wait. -/
def Missed (prog : Program) (s : Queue p c) (k : Thread p c) : Prop :=
  (s.threads k).pc = .wait ∨ (s.threads k).pc = .blocked ∧ s.Signalled prog k

theorem wakeAll_pc_ne {b : Bool} {k : Thread p c} (hk : k.isLeft = b) :
    ((s.wakeAll b).threads k).pc ≠ .blocked := by
  simp only [wakeAll, hk, if_true, Local.wake]
  split
  next => simp
  next hpc => exact hpc

/-- Nobody is added by a step of a thread. -/
theorem missed_of_actor {k i : Thread p c} (he : s.enabled bound a) (hdone : s.done = true)
    (hi : a.actor = some i) (h : (s.next prog a).Missed prog k) : s.Missed prog k := by
  unfold Missed Signalled at h
  rw [main_next hi] at h
  rcases step_next he k with heq | hstep
  · rw [heq] at h
    exact h
  · have hrun := not_running he hdone
    generalize hx : s.threads k = x at hstep
    generalize hy : (s.next prog a).threads k = y at hstep h
    cases hstep with
    | enter | stay => exact absurd trivial hrun
    | wait => exact .inl (by rw [hx])
    | leave | proceed | unlock | notify =>
      cases k <;> cases prog <;>
        simp [Program.afterLoop, Program.behindLoop, afterGuard, Program.afterUnlock,
          Program.afterPop, afterNotify] at h
    | consume => cases prog <;> simp [Program.afterConsume] at h
    | _ => simp at h

/-- Nobody is added by `notify_all`. -/
theorem missed_of_main {k : Thread p c} (he : s.enabled bound a) (hmain : s.main ≠ .sleep)
    (ha : a.actor = none) (h : (s.next prog a).Missed prog k) : s.Missed prog k := by
  have hstep := @step_next p c prog bound s a he k
  cases a with
  | setDone => exact absurd he hmain
  | notifyFirst =>
    rcases h with hwait | ⟨hblocked, hsignalled⟩
    · rcases hstep with heq | hstep
      · exact .inl (heq ▸ hwait)
      · cases (hstep.woken rfl).symm.trans hwait
    · rcases hsignalled with hjoin | ⟨-, hk⟩
      · cases hjoin
      · exact absurd hblocked (wakeAll_pc_ne hk)
  | notifySecond =>
    have hsecond : s.main = .notifySecond := he
    rcases h with hwait | ⟨hblocked, -⟩
    · rcases hstep with heq | hstep
      · exact .inl (heq ▸ hwait)
      · cases (hstep.woken rfl).symm.trans hwait
    · have hk : k.isLeft = prog.producersFirst := by
        by_contra hne
        exact wakeAll_pc_ne (Bool.eq_not_iff.mpr hne) hblocked
      rcases hstep with heq | hstep
      · exact .inr ⟨heq ▸ hblocked, .inr ⟨hsecond, hk⟩⟩
      · cases (hstep.woken rfl).symm.trans hblocked
  | _ => cases ha

theorem missed_of_next {k : Thread p c} (he : s.enabled bound a) (hdone : s.done = true)
    (hmain : s.main ≠ .sleep) (h : (s.next prog a).Missed prog k) : s.Missed prog k := by
  cases ha : a.actor with
  | none => exact missed_of_main he hmain ha h
  | some i => exact missed_of_actor he hdone ha h

end Queue

/-! ## Where it stops -/

/-- Where a thread can be, and that a producer has an element when it comes to `emplace`. -/
def Local.Fits : Thread p c → Local → Prop
  | .inl _, x => match x.pc with
    | .take | .pop | .consume => False
    | .lock | .guard | .check | .wait | .blocked | .notified | .emplace => x.el ≠ none
    | _ => True
  | .inr _, x => match x.pc with
    | .produce | .emplace => False
    | _ => True

theorem Local.Step.fits {k : Thread p c} {a : Act p c} {x y : Local}
    (h : Local.Step prog k a x y) (hx : x.Fits k) : y.Fits k := by
  cases h with
  | produce => exact Option.some_ne_none _
  | emplace | take | pop => trivial
  | consume => cases prog <;> trivial
  | _ =>
    cases k with
    | inl i => first | exact hx | trivial
    | inr j => cases prog <;> trivial

theorem fits_inv {s : Queue p c} (h : (queue prog bound p c).Reachable s) (k : Thread p c) :
    (s.threads k).Fits k := by
  refine h.induct (P := fun s => (s.threads k).Fits k) ?_ ?_
  · rintro s ⟨-, -, -, -, -, ht, -⟩
    rw [ht k]
    cases k <;> trivial
  · intro s a _ hk he
    rcases @Queue.step_next p c prog bound s a he k with heq | hstep
    · exact heq ▸ hk
    · exact hstep.fits hk

namespace Queue

variable {s : Queue p c}

/-- No step is left but a spurious wakeup. -/
def Stopped (bound : Nat) (s : Queue p c) : Prop := ∀ a, s.enabled bound a → a.Spurious

theorem Stopped.main (h : s.Stopped bound) : s.main = .join := by
  cases hmain : s.main with
  | sleep => exact (h .setDone hmain).elim
  | notifyFirst => exact (h .notifyFirst hmain).elim
  | notifySecond => exact (h .notifySecond hmain).elim
  | join => rfl

/-- The thread inside the lock can go on. -/
theorem Stopped.outside (h : s.Stopped bound) (hreach : (queue prog bound p c).Reachable s)
    (hdone : s.done = true) (k : Thread p c) : (s.threads k).locks = false := by
  have hsees := (ok_inv hreach).sees k
  have hfits := fits_inv hreach k
  generalize hx : s.threads k = x at hsees hfits
  obtain ⟨pc, el⟩ := x
  have hpc : (s.threads k).pc = pc := congrArg Local.pc hx
  cases pc with
  | guard =>
    by_cases hwait : s.MustWait bound k
    · exact (h (.mustWait k) ⟨hpc, hwait⟩).elim
    · exact (h (.proceed k) ⟨hpc, hwait⟩).elim
  | check => exact (h (.quit k) ⟨hpc, hdone⟩).elim
  | wait => exact (h (.wait k) hpc).elim
  | unlock => exact (h (.unlock k) hpc).elim
  | emplace =>
    cases k with
    | inl i =>
      obtain ⟨e, rfl⟩ := Option.ne_none_iff_exists'.mp hfits
      exact (h (.emplace i e) hx).elim
    | inr j => exact hfits.elim
  | take =>
    cases k with
    | inl i => exact hfits.elim
    | inr j =>
      exact (h (.take j _) ⟨hpc, List.getLast?_eq_some_getLast hsees⟩).elim
  | pop =>
    cases k with
    | inl i => exact hfits.elim
    | inr j =>
      exact (h (.pop j _) ⟨hpc, List.head?_eq_some_head hsees.1⟩).elim
  | _ => rfl

theorem Stopped.free (h : s.Stopped bound) (hreach : (queue prog bound p c).Reachable s)
    (hdone : s.done = true) : s.mutex = none :=
  (ok_inv hreach).mutex.free (h.outside hreach hdone)

theorem Stopped.returned (h : s.Stopped bound) (hreach : (queue prog bound p c).Reachable s)
    (hdone : s.done = true) (k : Thread p c) :
    (s.threads k).pc = .returned ∨ (s.threads k).pc = .blocked := by
  have hfree := h.free hreach hdone
  have hout := h.outside hreach hdone k
  have hfits := fits_inv hreach k
  generalize hx : s.threads k = x at hout hfits
  obtain ⟨pc, el⟩ := x
  have hpc : (s.threads k).pc = pc := congrArg Local.pc hx
  cases pc with
  | returned => exact .inl rfl
  | blocked => exact .inr rfl
  | test => exact (h (.leave k) ⟨hpc, hdone⟩).elim
  | produce =>
    cases k with
    | inl i => exact (h (.produce i) hpc).elim
    | inr j => exact hfits.elim
  | lock => exact (h (.lock k) ⟨.inl hpc, hfree⟩).elim
  | notified => exact (h (.lock k) ⟨.inr hpc, hfree⟩).elim
  | notify =>
    by_cases hw : ∃ w : Thread p c, w.isLeft = !k.isLeft ∧ (s.threads w).pc = .blocked
    · obtain ⟨w, hside, hblocked⟩ := hw
      exact (h (.notifyOne k (some w)) ⟨hpc, hside, hblocked⟩).elim
    · refine (h (.notifyOne k none) ⟨hpc, fun w hside hblocked => ?_⟩).elim
      exact hw ⟨w, hside, hblocked⟩
  | consume =>
    cases k with
    | inl i => exact hfits.elim
    | inr j => exact (h (.consume j) hpc).elim
  | guard | check | wait | emplace | take | pop | unlock => cases hout

end Queue

theorem finish_decreases :
    (queue prog bound p c).Decreases (fun s => s.done = true) (Queue.left prog) :=
  fun _ _ hdone he => ⟨Queue.done_next prog hdone, Queue.left_next_lt he hdone⟩

theorem left_setDone_le (s : Queue p c) :
    (s.next prog .setDone).left prog ≤ 10 * (p + c) + 2 := by
  refine Nat.add_le_add_right ?_ 2
  refine (Finset.sum_le_card_nsmul Finset.univ _ 10 fun k _ => rank_le _ _).trans_eq ?_
  rw [Finset.card_univ, Fintype.card_sum, Fintype.card_fin, Fintype.card_fin]
  exact Nat.mul_comm _ _

/-- The threads that miss the notifications were about to wait when `done` was set. -/
theorem missed_run {s t : Queue p c} {as : List (Act p c)}
    (hrun : (queue prog bound p c).Exec (s.next prog .setDone) as t) :
    t.done = true ∧ ∀ k, t.Missed prog k → (s.threads k).pc = .wait := by
  have hinv : t.done = true ∧ t.main ≠ .sleep ∧ ∀ k, t.Missed prog k → (s.threads k).pc = .wait := by
    refine hrun.induct (P := fun t => t.done = true ∧ t.main ≠ .sleep ∧
      ∀ k, t.Missed prog k → (s.threads k).pc = .wait) ?_ ?_
    · refine ⟨rfl, by simp [Queue.next], ?_⟩
      rintro k (hwait | ⟨-, hjoin | ⟨hsecond, -⟩⟩)
      · exact hwait
      · cases hjoin
      · cases hsecond
    · rintro t a ⟨hdone, hmain, hmissed⟩ he
      refine ⟨Queue.done_next prog hdone, ?_, fun k hk => hmissed k ?_⟩
      · cases ha : a.actor with
        | none =>
          intro hsleep
          have hlt := @Queue.main_rank_lt _ _ prog _ _ _ he ha
          have hsleep' : (t.next prog a).main = .sleep := hsleep
          rw [hsleep'] at hlt
          revert hlt
          cases t.main <;> decide
        | some i =>
          show (t.next prog a).main ≠ .sleep
          rwa [Queue.main_next ha]
      · exact Queue.missed_of_next he hdone hmain hk
  exact ⟨hinv.1, hinv.2.2⟩

/-- After `done` is set, the run is bounded. Where it stops, `main` has notified everybody, and
every thread has returned, but for one that was about to wait when `done` was set. There is
one such thread at most; if there is none, all of them return. -/
theorem shutdown_strands_one {s t : Queue p c} {as : List (Act p c)}
    (h : (queue prog bound p c).Reachable s) (hmain : s.main = .sleep)
    (hrun : (queue prog bound p c).Exec (s.next prog .setDone) as t) :
    as.length ≤ 10 * (p + c) + 2 ∧
      (t.Stopped bound → t.main = .join ∧ ∀ k, (t.threads k).pc = .returned ∨
        (t.threads k).pc = .blocked ∧ (s.threads k).pc = .wait) ∧
      (∀ k l, (s.threads k).pc = .wait → (s.threads l).pc = .wait → k = l) ∧
      ∃ bs u, (queue prog bound p c).Exec t bs u ∧ u.Stopped bound := by
  obtain ⟨hdone, hmissed⟩ := missed_run hrun
  have hset : (queue prog bound p c).enabled s .setDone := hmain
  have hreach := (h.next hset).exec hrun
  refine ⟨?_, ?_, ?_, ?_⟩
  · exact (finish_decreases.length_le rfl hrun).trans (left_setDone_le s)
  · intro hstopped
    refine ⟨hstopped.main, fun k => ?_⟩
    rcases hstopped.returned hreach hdone k with hreturned | hblocked
    · exact .inl hreturned
    · exact .inr ⟨hblocked, hmissed k (.inr ⟨hblocked, .inl hstopped.main⟩)⟩
  · intro k l hk hl
    have hinside : ∀ {j : Thread p c}, (s.threads j).pc = .wait → (s.threads j).locks = true := by
      intro j hj
      simp [Local.locks, hj]
    exact (ok_inv h).mutex.alone (hinside hl) (hinside hk)
  · obtain ⟨bs, u, hrest, hstopped⟩ := finish_decreases.exists_stopped hdone
    exact ⟨bs, u, hrest, fun a he => absurd he (hstopped a)⟩

/-- The consumer is about to wait when `done` is set, and waits after the notifications. -/
def aboutToWait : List (Act 1 1) :=
  [.enter (.inr only), .lock (.inr only), .mustWait (.inr only), .stay (.inr only)]

def waitsTooLate : List (Act 1 1) :=
  [.notifyFirst, .notifySecond, .wait (.inr only), .leave (.inl only)]

theorem aboutToWait_runs : ((queue .elements MAX 1 1).run (.start 1 1) aboutToWait).isSome := by
  decide

/-- The state when `done` is set. -/
def beforeDone : Queue 1 1 :=
  ((queue .elements MAX 1 1).run (.start 1 1) aboutToWait).get aboutToWait_runs

theorem waitsTooLate_runs :
    ((queue .elements MAX 1 1).run (beforeDone.next .elements .setDone) waitsTooLate).isSome := by
  decide

def strandedConsumer : Queue 1 1 :=
  ((queue .elements MAX 1 1).run (beforeDone.next .elements .setDone) waitsTooLate).get
    waitsTooLate_runs

/-- The program does not end: `main` waits for the consumer. -/
theorem shutdown_strands_one_tooLate :
    (strandedConsumer.threads (.inr only)).pc = .blocked ∧ strandedConsumer.main = .join ∧
      waitsTooLate.length ≤ 10 * (1 + 1) + 2 := by
  have hreach : (queue .elements MAX 1 1).Reachable beforeDone :=
    (Machine.exec_run_get aboutToWait_runs).reachable (Queue.start_init .elements MAX)
  refine ⟨by decide, by decide, ?_⟩
  exact (shutdown_strands_one hreach (by decide) (Machine.exec_run_get waitsTooLate_runs)).1

end SisProg.Threads
