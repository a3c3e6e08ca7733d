import SisProg.Lib.Bytes
import SisProg.Lib.Termination
import SisProg.Lib.Threads

/-!
# The wakeup that is missing

`main` of `cons_work/worker.cpp` sets `ready` for the one thread that waits for it, and does
not notify it. What happens is decided by who gets the mutex first.

`worker_ends_iff`: unless there are spurious wakeups, the program ends exactly if `main` has
set `ready` before the worker takes the mutex, and else both threads wait for each other.
Whenever it ends, it has printed the same.
-/

namespace SisProg.Threads.Worker

open Bytes (ascii)

inductive Who
  | main
  | worker
deriving DecidableEq

/-- Where a thread is. `main` has two sections of its own: it sets `ready` in the first and
waits for `processed` in the second, as the worker waits for `ready` in its only one.

* `assign`: `main`, about to set `data`;
* `lockFirst`, `setReady`, `unlockFirst`: `main`, in the first section;
* `lock`: about to construct the `unique_lock`;
* `test`: in `wait`, holds the mutex, about to evaluate the predicate;
* `wait`: it was false, about to release the mutex and block;
* `blocked`: not notified;
* `notified`: about to lock the mutex again;
* `body`: behind `wait`;
* `unlock`: about to release the mutex;
* `notifyOne`: the worker, about to call `notify_one`;
* `join`: `main`, about to join the worker;
* `returned`. -/
inductive Pc
  | assign
  | lockFirst
  | setReady
  | unlockFirst
  | lock
  | test
  | wait
  | blocked
  | notified
  | body
  | unlock
  | notifyOne
  | join
  | returned
deriving DecidableEq

structure State where
  data : Bytes
  ready : Bool
  processed : Bool
  mutex : Option Who
  pc : Who → Pc
  out : List Bytes

inductive Act
  | step (k : Who)
  /-- A spurious wakeup. -/
  | wakeUp (k : Who)
deriving DecidableEq

def exampleData : Bytes := ascii "Example data"

def suffix : Bytes := ascii " after processing"

def Who.other : Who → Who
  | .main => .worker
  | .worker => .main

namespace State

def goto (s : State) (k : Who) (pc : Pc) : State := { s with pc := Function.update s.pc k pc }

/-- What a thread waits for. -/
def flag (s : State) : Who → Bool
  | .main => s.processed
  | .worker => s.ready

/-- The block behind `wait`. -/
def body (s : State) : Who → State
  | .main => { s with out := s.out ++ [ascii "Back in main(), data = " ++ s.data ++ ascii "\n"] }
  | .worker =>
    { s with
      data := s.data ++ suffix
      processed := true
      out := s.out ++ [ascii "Worker thread is processing data.\n",
        ascii "Worker thread signals data processing completed.\n"] }

/-- What comes when the mutex has been released. -/
def afterUnlock : Who → Pc
  | .main => .join
  | .worker => .notifyOne

/-- Only the other thread can be blocked. -/
def wake (s : State) (k : Who) : State := if s.pc k = .blocked then s.goto k .notified else s

/-- The thread `k` can go on from `pc`. -/
def ReadyAt (s : State) (k : Who) : Pc → Prop
  | .lockFirst | .lock | .notified => s.mutex = none
  | .blocked | .returned => False
  | .join => s.pc k.other = .returned
  | _ => True

instance (s : State) (k : Who) (pc : Pc) : Decidable (s.ReadyAt k pc) := by
  cases pc <;> unfold ReadyAt <;> infer_instance

/-- What the thread `k` does at `pc`. -/
def stepAt (s : State) (k : Who) : Pc → State
  | .assign => { s.goto k .lockFirst with data := exampleData }
  | .lockFirst => { s.goto k .setReady with mutex := some k }
  | .setReady =>
    { s.goto k .unlockFirst with
      ready := true
      out := s.out ++ [ascii "main() signals data ready for processing\n"] }
  | .unlockFirst => { s.goto k .lock with mutex := none }
  | .lock | .notified => { s.goto k .test with mutex := some k }
  | .test => s.goto k (if s.flag k then .body else .wait)
  | .wait => { s.goto k .blocked with mutex := none }
  | .body => (s.body k).goto k .unlock
  | .unlock => { s.goto k (afterUnlock k) with mutex := none }
  | .notifyOne => (s.wake k.other).goto k .returned
  | .join => s.goto k .returned
  | .blocked | .returned => s

def enabled (s : State) : Act → Prop
  | .step k => s.ReadyAt k (s.pc k)
  | .wakeUp k => s.pc k = .blocked

def next (s : State) : Act → State
  | .step k => s.stepAt k (s.pc k)
  | .wakeUp k => s.goto k .notified

instance (s : State) (a : Act) : Decidable (s.enabled a) := by
  cases a <;> unfold enabled <;> infer_instance

end State

def start : State where
  data := []
  ready := false
  processed := false
  mutex := none
  pc
    | .main => .assign
    | .worker => .lock
  out := []

def program : Machine State Act where
  init s := s = start
  enabled := State.enabled
  next := State.next

instance (s : State) (a : Act) : Decidable (program.enabled s a) :=
  inferInstanceAs (Decidable (s.enabled a))

/-! ## Where the threads are -/

def Pc.inside : Pc → Bool
  | .setReady | .unlockFirst | .test | .wait | .body | .unlock => true
  | _ => false

/-- The flags, when `main` is at a place. -/
def MainFits (ready processed : Bool) : Pc → Prop
  | .assign | .lockFirst | .setReady => ready = false
  | .unlockFirst | .lock | .test | .blocked | .notified => ready = true
  | .wait => ready = true ∧ processed = false
  | .body | .unlock | .join | .returned => ready = true ∧ processed = true
  | .notifyOne => False

/-- The flags, when the worker is at a place. -/
def WorkerFits (ready processed : Bool) : Pc → Prop
  | .lock | .test | .wait | .blocked | .notified => processed = false
  | .body => ready = true ∧ processed = false
  | .unlock | .notifyOne | .returned => ready = true ∧ processed = true
  | .assign | .lockFirst | .setReady | .unlockFirst | .join => False

def firstLine : Bytes := ascii "main() signals data ready for processing\n"

def workerLines : List Bytes :=
  [ascii "Worker thread is processing data.\n",
    ascii "Worker thread signals data processing completed.\n"]

def lastLine : Bytes := ascii "Back in main(), data = " ++ (exampleData ++ suffix) ++ ascii "\n"

/-- `main` has printed its last line. -/
def Pc.told : Pc → Bool
  | .unlock | .join | .returned => true
  | _ => false

/-- What is in `data`, and what is printed. -/
structure State.Text (s : State) : Prop where
  data : s.data = if s.pc .main = .assign then [] else
    exampleData ++ if s.processed then suffix else []
  out : s.out = (if s.ready then [firstLine] else []) ++
    (if s.processed then workerLines else []) ++ if (s.pc .main).told then [lastLine] else []

structure State.Inv (s : State) : Prop where
  excl : Exclusive Pc.inside s.mutex s.pc
  main : MainFits s.ready s.processed (s.pc .main)
  worker : WorkerFits s.ready s.processed (s.pc .worker)
  /-- `main` is blocked while nothing is processed, or the worker is about to notify it. -/
  woken : s.pc .main = .blocked → s.processed = true →
    s.pc .worker = .unlock ∨ s.pc .worker = .notifyOne
  joined : s.pc .main = .returned → s.pc .worker = .returned
  text : s.Text

variable {s t : State} {a : Act}

theorem WorkerFits.ready {ready processed : Bool} {pc : Pc} (h : WorkerFits ready processed pc) :
    WorkerFits true processed pc := by
  cases pc with
  | body | unlock | notifyOne | returned => exact ⟨rfl, h.2⟩
  | _ => exact h

theorem MainFits.processed {ready processed : Bool} {pc : Pc} (h : MainFits ready processed pc)
    (hpc : pc ≠ .wait) : MainFits ready true pc := by
  cases pc with
  | wait => exact absurd rfl hpc
  | body | unlock | join | returned => exact ⟨h.1, rfl⟩
  | _ => exact h

/-- A step of `main`, which may set `ready`. -/
theorem Inv.of_main {pc : Pc} (h : s.Inv) (ht : t.pc = Function.update s.pc .main pc)
    (hexcl : Exclusive Pc.inside t.mutex (Function.update s.pc .main pc))
    (hp : t.processed = s.processed) (hr : t.ready = true ∨ t.ready = s.ready)
    (hfits : MainFits t.ready t.processed pc) (hblocked : pc = .blocked → s.processed = false)
    (hjoined : pc = .returned → s.pc .worker = .returned) (htext : t.Text) : t.Inv := by
  refine ⟨ht ▸ hexcl, ?_, ?_, ?_, ?_, htext⟩
  · rwa [ht, Function.update_self]
  · rw [ht, Function.update_of_ne (by decide), hp]
    rcases hr with hr | hr
    · rw [hr]
      exact h.worker.ready
    · rw [hr]
      exact h.worker
  · rw [ht, Function.update_self, hp]
    intro hpc htrue
    rw [hblocked hpc] at htrue
    cases htrue
  · rw [ht, Function.update_self, Function.update_of_ne (by decide)]
    exact hjoined

/-- A step of the worker that sets no flag. -/
theorem Inv.of_worker {pc : Pc} (h : s.Inv) (ht : t.pc = Function.update s.pc .worker pc)
    (hexcl : Exclusive Pc.inside t.mutex (Function.update s.pc .worker pc))
    (hp : t.processed = s.processed) (hr : t.ready = s.ready) (hdata : t.data = s.data)
    (hout : t.out = s.out) (hfits : WorkerFits s.ready s.processed pc)
    (hblocked : s.pc .main = .blocked → s.processed = true → pc = .unlock ∨ pc = .notifyOne)
    (hpc : s.pc .worker ≠ .returned) : t.Inv := by
  have hmain : t.pc .main = s.pc .main := by rw [ht, Function.update_of_ne (by decide)]
  refine ⟨ht ▸ hexcl, ?_, ?_, ?_, ?_, ?_, ?_⟩
  · rw [hmain, hr, hp]
    exact h.main
  · rw [ht, Function.update_self, hr, hp]
    exact hfits
  · rw [hmain, hp, ht, Function.update_self]
    exact hblocked
  · rw [hmain]
    exact fun hreturned => absurd (h.joined hreturned) hpc
  · rw [hdata, hmain, hp, h.text.data]
  · rw [hout, hmain, hp, hr, h.text.out]

/-- `main` prints nothing and leaves `data` as it is. -/
theorem Text.keep {pc : Pc} (h : s.Text) (ht : t.pc .main = pc) (hdata : t.data = s.data)
    (hout : t.out = s.out) (hp : t.processed = s.processed) (hr : t.ready = s.ready)
    (hassign : pc ≠ .assign ∧ s.pc .main ≠ .assign) (htold : pc.told = (s.pc .main).told) :
    t.Text := by
  refine ⟨?_, ?_⟩
  · rw [hdata, h.data, ht, hp, if_neg hassign.1, if_neg hassign.2]
  · rw [hout, h.out, ht, hp, hr, htold]

/-- A step of `main` that sets no flag and prints nothing. -/
theorem Inv.quiet {pc : Pc} (h : s.Inv) (ht : t.pc = Function.update s.pc .main pc)
    (hexcl : Exclusive Pc.inside t.mutex (Function.update s.pc .main pc))
    (hdata : t.data = s.data) (hout : t.out = s.out) (hp : t.processed = s.processed)
    (hr : t.ready = s.ready) (hfits : MainFits s.ready s.processed pc)
    (hassign : pc ≠ .assign ∧ s.pc .main ≠ .assign) (htold : pc.told = (s.pc .main).told)
    (hblocked : pc = .blocked → s.processed = false)
    (hjoined : pc = .returned → s.pc .worker = .returned) : t.Inv := by
  refine Inv.of_main h ht hexcl hp (.inr hr) (by rwa [hr, hp]) hblocked hjoined ?_
  exact Text.keep h.text (by rw [ht, Function.update_self]) hdata hout hp hr hassign htold

/-- Nothing is processed before `ready` is set. -/
theorem WorkerFits.not_processed {processed : Bool} {pc : Pc} (h : WorkerFits false processed pc) :
    processed = false := by
  cases pc with
  | body | unlock | notifyOne | returned => cases h.1
  | lock | test | wait | blocked | notified => exact h
  | assign | lockFirst | setReady | unlockFirst | join => exact h.elim

theorem Inv.step_main (h : s.Inv) (he : s.ReadyAt .main (s.pc .main)) :
    (s.stepAt .main (s.pc .main)).Inv := by
  have hexcl := h.excl
  have hmain := h.main
  have hworker := h.worker
  cases hpc : s.pc .main with
  | assign =>
    rw [hpc] at hmain
    have hready : s.ready = false := hmain
    rw [hready] at hworker
    refine Inv.of_main h rfl (hexcl.keep (by rw [hpc]; rfl)) rfl (.inr rfl) hmain (by simp)
      (by simp) ⟨?_, ?_⟩
    · simp [State.stepAt, State.goto, hworker.not_processed]
    · simp [State.stepAt, State.goto, h.text.out, hpc, Pc.told]
  | lockFirst =>
    rw [hpc] at hmain he
    rw [show s.mutex = none from he] at hexcl
    exact Inv.quiet h rfl (hexcl.acquire rfl) rfl rfl rfl rfl hmain (by simp [hpc])
      (by rw [hpc]; rfl) (by simp) (by simp)
  | setReady =>
    rw [hpc] at hmain
    have hready : s.ready = false := hmain
    rw [hready] at hworker
    refine Inv.of_main h rfl (hexcl.keep (by rw [hpc]; rfl)) rfl (.inl rfl) rfl (by simp)
      (by simp) ⟨?_, ?_⟩
    · simp [State.stepAt, State.goto, h.text.data, hpc]
    · simp [State.stepAt, State.goto, h.text.out, hpc, Pc.told, hready, hworker.not_processed,
        firstLine]
  | unlockFirst =>
    rw [hpc] at hmain
    exact Inv.quiet h rfl (hexcl.release (by rw [hpc]; rfl) rfl) rfl rfl rfl rfl hmain
      (by simp [hpc]) (by rw [hpc]; rfl) (by simp) (by simp)
  | lock | notified =>
    rw [hpc] at hmain he
    rw [show s.mutex = none from he] at hexcl
    exact Inv.quiet h rfl (hexcl.acquire rfl) rfl rfl rfl rfl hmain (by simp [hpc])
      (by rw [hpc]; rfl) (by simp) (by simp)
  | test =>
    rw [hpc] at hmain
    simp only [State.stepAt]
    by_cases hp : s.flag .main = true
    · rw [if_pos hp]
      exact Inv.quiet h rfl (hexcl.keep (by rw [hpc]; rfl)) rfl rfl rfl rfl ⟨hmain, hp⟩
        (by simp [hpc]) (by rw [hpc]; rfl) (by simp) (by simp)
    · rw [if_neg hp]
      exact Inv.quiet h rfl (hexcl.keep (by rw [hpc]; rfl)) rfl rfl rfl rfl
        ⟨hmain, Bool.eq_false_of_not_eq_true hp⟩ (by simp [hpc]) (by rw [hpc]; rfl) (by simp)
        (by simp)
  | wait =>
    rw [hpc] at hmain
    exact Inv.quiet h rfl (hexcl.release (by rw [hpc]; rfl) rfl) rfl rfl rfl rfl hmain.1
      (by simp [hpc]) (by rw [hpc]; rfl) (fun _ => hmain.2) (by simp)
  | body =>
    rw [hpc] at hmain
    obtain ⟨hready, hp⟩ := hmain
    refine Inv.of_main h rfl (hexcl.keep (by rw [hpc]; rfl)) rfl (.inr rfl) ⟨hready, hp⟩ (by simp)
      (by simp) ⟨?_, ?_⟩
    · simp [State.stepAt, State.body, State.goto, h.text.data, hpc, hp]
    · simp [State.stepAt, State.body, State.goto, h.text.out, h.text.data, hpc, hp, hready,
        Pc.told, lastLine]
  | unlock =>
    rw [hpc] at hmain
    exact Inv.quiet h rfl (hexcl.release (by rw [hpc]; rfl) rfl) rfl rfl rfl rfl hmain
      (by simp [hpc, State.afterUnlock]) (by rw [hpc]; rfl) (by simp [State.afterUnlock])
      (by simp [State.afterUnlock])
  | notifyOne =>
    rw [hpc] at hmain
    exact hmain.elim
  | join =>
    rw [hpc] at hmain he
    exact Inv.quiet h rfl (hexcl.keep (by rw [hpc]; rfl)) rfl rfl rfl rfl hmain (by simp [hpc])
      (by rw [hpc]; rfl) (by simp) (fun _ => he)
  | blocked | returned =>
    rw [hpc] at he
    exact he.elim

theorem MainFits.not_told {ready : Bool} {pc : Pc} (h : MainFits ready false pc) :
    pc.told = false := by
  cases pc with
  | unlock | join | returned => cases h.2
  | _ => rfl

/-- The worker processes the data. -/
theorem Inv.process (h : s.Inv) (hpc : s.pc .worker = .body) :
    ((s.body .worker).goto .worker .unlock).Inv := by
  have hworker := h.worker
  rw [hpc] at hworker
  obtain ⟨hready, hp⟩ := hworker
  have hin : (s.pc .worker).inside = true := by rw [hpc]; rfl
  have hmain := h.main
  have houtside : (s.pc .main).inside = false := h.excl.outside hin (by decide)
  have hne : s.pc .main ≠ .wait ∧ s.pc .main ≠ .assign := by
    refine ⟨?_, ?_⟩
    · intro hwait
      rw [hwait] at houtside
      cases houtside
    · intro hassign
      rw [hassign, hready] at hmain
      cases hmain
  have htold := MainFits.not_told (hp ▸ hmain)
  refine ⟨h.excl.keep hin.symm, ?_, ?_, ?_, ?_, ?_, ?_⟩
  · exact hmain.processed hne.1
  · exact ⟨hready, rfl⟩
  · exact fun _ _ => .inl rfl
  · intro hreturned
    have hm : s.pc .main = .returned := hreturned
    rw [hm] at htold
    cases htold
  · simp [State.body, State.goto, h.text.data, hne.2, hp]
  · simp [State.body, State.goto, h.text.out, hready, hp, htold, workerLines]

/-- The worker notifies `main`, if it is blocked. -/
theorem Inv.notify (h : s.Inv) (hpc : s.pc .worker = .notifyOne) :
    ((s.wake .main).goto .worker .returned).Inv := by
  have hworker := h.worker
  rw [hpc] at hworker
  have hne : s.pc .worker ≠ .returned := by simp [hpc]
  unfold State.wake
  split
  next hblocked =>
    have hwoken : (s.goto .main .notified).Inv := by
      have hmain := h.main
      rw [hblocked] at hmain
      exact Inv.quiet h rfl (h.excl.keep (by rw [hblocked]; rfl)) rfl rfl rfl rfl hmain
        (by simp [hblocked]) (by rw [hblocked]; rfl) (by simp) (by simp)
    have hpc' : (s.goto .main .notified).pc .worker = .notifyOne := by
      show Function.update s.pc .main .notified .worker = .notifyOne
      rw [Function.update_of_ne (by decide), hpc]
    exact Inv.of_worker hwoken rfl (hwoken.excl.keep (by rw [hpc']; rfl)) rfl rfl rfl rfl
      ⟨hworker.1, hworker.2⟩ (by simp [State.goto]) (by simp [hpc'])
  next hnot =>
    exact Inv.of_worker h rfl (h.excl.keep (by rw [hpc]; rfl)) rfl rfl rfl rfl hworker
      (fun hblocked => absurd hblocked hnot) hne

theorem Inv.step_worker (h : s.Inv) (he : s.ReadyAt .worker (s.pc .worker)) :
    (s.stepAt .worker (s.pc .worker)).Inv := by
  have hexcl := h.excl
  have hworker := h.worker
  have hwoken := h.woken
  cases hpc : s.pc .worker with
  | lock | notified =>
    rw [hpc] at hworker he hwoken
    rw [show s.mutex = none from he] at hexcl
    exact Inv.of_worker h rfl (hexcl.acquire rfl) rfl rfl rfl rfl hworker
      (fun hb hp => by simpa using hwoken hb hp) (by simp [hpc])
  | test =>
    rw [hpc] at hworker hwoken
    simp only [State.stepAt]
    by_cases hready : s.flag .worker = true
    · rw [if_pos hready]
      exact Inv.of_worker h rfl (hexcl.keep (by rw [hpc]; rfl)) rfl rfl rfl rfl ⟨hready, hworker⟩
        (fun hb hp => by simpa using hwoken hb hp) (by simp [hpc])
    · rw [if_neg hready]
      exact Inv.of_worker h rfl (hexcl.keep (by rw [hpc]; rfl)) rfl rfl rfl rfl hworker
        (fun hb hp => by simpa using hwoken hb hp) (by simp [hpc])
  | wait =>
    rw [hpc] at hworker hwoken
    exact Inv.of_worker h rfl (hexcl.release (by rw [hpc]; rfl) rfl) rfl rfl rfl rfl hworker
      (fun hb hp => by simpa using hwoken hb hp) (by simp [hpc])
  | body => exact Inv.process h hpc
  | unlock =>
    rw [hpc] at hworker
    exact Inv.of_worker h rfl (hexcl.release (by rw [hpc]; rfl) rfl) rfl rfl rfl rfl hworker
      (fun _ _ => .inr rfl) (by simp [hpc])
  | notifyOne => exact Inv.notify h hpc
  | blocked | returned =>
    rw [hpc] at he
    exact he.elim
  | assign | lockFirst | setReady | unlockFirst | join =>
    rw [hpc] at hworker
    exact hworker.elim

/-- A spurious wakeup. -/
theorem Inv.wakeUp (h : s.Inv) {k : Who} (hpc : s.pc k = .blocked) :
    (s.goto k .notified).Inv := by
  cases k with
  | main =>
    have hmain := h.main
    rw [hpc] at hmain
    exact Inv.quiet h rfl (h.excl.keep (by rw [hpc]; rfl)) rfl rfl rfl rfl hmain (by simp [hpc])
      (by rw [hpc]; rfl) (by simp) (by simp)
  | worker =>
    have hworker := h.worker
    have hwoken := h.woken
    rw [hpc] at hworker hwoken
    exact Inv.of_worker h rfl (h.excl.keep (by rw [hpc]; rfl)) rfl rfl rfl rfl hworker
      (fun hb hp => by simpa using hwoken hb hp) (by simp [hpc])

theorem Inv.next (h : s.Inv) (he : s.enabled a) : (s.next a).Inv := by
  cases a with
  | step k =>
    cases k with
    | main => exact Inv.step_main h he
    | worker => exact Inv.step_worker h he
  | wakeUp k => exact Inv.wakeUp h he

theorem inv (h : program.Reachable s) : s.Inv := by
  refine h.induct ?_ fun _ _ _ hs he => Inv.next hs he
  rintro s rfl
  refine ⟨fun k => ?_, rfl, rfl, ?_, ?_, rfl, rfl⟩
  · cases k <;> exact ⟨nofun, nofun⟩
  · exact nofun
  · exact nofun

/-! ## Where it stops -/

/-- No step is left but a spurious wakeup. -/
def State.Stopped (s : State) : Prop := ∀ k, ¬ s.ReadyAt k (s.pc k)

theorem ready_of_inside {k : Who} (h : (s.pc k).inside = true) : s.ReadyAt k (s.pc k) := by
  cases hpc : s.pc k <;> rw [hpc] at h <;> trivial

theorem Inv.free (h : s.Inv) (hstop : s.Stopped) : s.mutex = none :=
  h.excl.free fun k => eq_false_of_ne_true fun hin => hstop k (ready_of_inside hin)

theorem Inv.worker_stopped (h : s.Inv) (hstop : s.Stopped) :
    s.pc .worker = .blocked ∨ s.pc .worker = .returned := by
  have hfree := Inv.free h hstop
  have hworker := h.worker
  have hnot := hstop .worker
  cases hpc : s.pc .worker with
  | blocked => exact .inl rfl
  | returned => exact .inr rfl
  | lock | notified =>
    rw [hpc] at hnot
    exact absurd hfree hnot
  | test | wait | body | unlock | notifyOne =>
    rw [hpc] at hnot
    exact absurd trivial hnot
  | assign | lockFirst | setReady | unlockFirst | join =>
    rw [hpc] at hworker
    exact hworker.elim

theorem Inv.main_stopped (h : s.Inv) (hstop : s.Stopped) :
    s.pc .main = .blocked ∨ s.pc .main = .returned ∨
      s.pc .main = .join ∧ s.pc .worker ≠ .returned := by
  have hfree := Inv.free h hstop
  have hnot := hstop .main
  cases hpc : s.pc .main with
  | blocked => exact .inl rfl
  | returned => exact .inr (.inl rfl)
  | join =>
    rw [hpc] at hnot
    exact .inr (.inr ⟨rfl, hnot⟩)
  | lockFirst | lock | notified =>
    rw [hpc] at hnot
    exact absurd hfree hnot
  | assign | setReady | unlockFirst | test | wait | body | unlock | notifyOne =>
    rw [hpc] at hnot
    exact absurd trivial hnot

/-- Both have returned, or they wait for each other. -/
theorem Inv.stopped (h : s.Inv) (hstop : s.Stopped) :
    s.pc .main = .returned ∧ s.pc .worker = .returned ∨
      s.pc .main = .blocked ∧ s.pc .worker = .blocked := by
  have hmain := h.main
  have hworker := h.worker
  rcases Inv.worker_stopped h hstop with hblocked | hreturned
  · rw [hblocked] at hworker
    have hp : s.processed = false := hworker
    rcases Inv.main_stopped h hstop with hm | hm | ⟨hm, -⟩
    · exact .inr ⟨hm, hblocked⟩
    · rw [hm, hp] at hmain
      cases hmain.2
    · rw [hm, hp] at hmain
      cases hmain.2
  · rw [hreturned] at hworker
    rcases Inv.main_stopped h hstop with hm | hm | ⟨-, hne⟩
    · have hwoken := h.woken hm hworker.2
      rw [hreturned] at hwoken
      rcases hwoken with hw | hw <;> cases hw
    · exact .inl ⟨hm, hreturned⟩
    · exact absurd hreturned hne

/-- How far a thread is from its end, unless it is woken. -/
def Pc.rank : Pc → Nat
  | .returned => 0
  | .join => 1
  | .notifyOne => 4
  | .unlock => 5
  | .body => 6
  | .blocked => 7
  | .wait => 8
  | .test => 9
  | .lock | .notified => 10
  | .unlockFirst => 11
  | .setReady => 12
  | .lockFirst => 13
  | .assign => 14

def State.left (s : State) : Nat := (s.pc .main).rank + (s.pc .worker).rank

/-- A spurious wakeup sends a thread back, and is itself a step. -/
def Act.cost : Act → Nat
  | .wakeUp _ => 4
  | .step _ => 0

theorem left_goto (s : State) (k : Who) (pc : Pc) :
    (s.goto k pc).left + (s.pc k).rank = s.left + pc.rank := by
  cases k with
  | main =>
    show pc.rank + (s.pc .worker).rank + (s.pc .main).rank = _
    rw [State.left, Nat.add_right_comm, Nat.add_comm pc.rank, Nat.add_right_comm]
  | worker =>
    show (s.pc .main).rank + pc.rank + (s.pc .worker).rank = _
    rw [State.left, Nat.add_right_comm]

theorem left_goto_lt {k : Who} {pc : Pc} (h : pc.rank < (s.pc k).rank) :
    (s.goto k pc).left < s.left := by
  refine Nat.lt_of_add_lt_add_right (n := (s.pc k).rank) ?_
  rw [left_goto]
  exact Nat.add_lt_add_left h _

theorem left_notify (hpc : s.pc .worker = .notifyOne) :
    ((s.wake .main).goto .worker .returned).left < s.left := by
  unfold State.wake
  split
  next hblocked =>
    simp [State.left, State.goto, hblocked, hpc, Pc.rank]
  next => exact left_goto_lt (by rw [hpc]; decide)

theorem left_stepAt {k : Who} (h : s.Inv) (he : s.ReadyAt k (s.pc k)) :
    (s.stepAt k (s.pc k)).left < s.left := by
  cases hpc : s.pc k with
  | assign | lockFirst | setReady | unlockFirst | lock | notified | wait | join =>
    exact left_goto_lt (by rw [hpc]; decide)
  | test =>
    refine left_goto_lt ?_
    rw [hpc]
    split <;> decide
  | body =>
    have hbody : (s.body k).left = s.left ∧ (s.body k).pc k = .body := by
      cases k <;> exact ⟨rfl, hpc⟩
    exact (left_goto_lt (by rw [hbody.2]; decide)).trans_eq hbody.1
  | unlock => exact left_goto_lt (by rw [hpc]; cases k <;> decide)
  | notifyOne =>
    cases k with
    | main =>
      have hmain := h.main
      rw [hpc] at hmain
      exact hmain.elim
    | worker => exact left_notify hpc
  | blocked | returned =>
    rw [hpc] at he
    exact he.elim

theorem worker_decreases : program.DecreasesBut Act.cost State.Inv State.left := by
  intro s a hs he
  refine ⟨Inv.next hs he, ?_⟩
  cases a with
  | step k => exact left_stepAt hs he
  | wakeUp k =>
    have hpc : s.pc k = .blocked := he
    have hleft := left_goto s k .notified
    rw [hpc] at hleft
    exact Nat.le_of_eq (Nat.add_right_cancel (m := 6) hleft)

/-! ## Who is first -/

/-- The worker takes the mutex before `ready` is set. -/
def Early (as : List Act) : Prop :=
  ∃ bs cs u, as = bs ++ .step .worker :: cs ∧ program.Exec start bs u ∧ u.pc .worker = .lock ∧
    u.ready = false

/-- The worker waits for `ready`, or is going to. -/
def State.Lost (s : State) : Prop :=
  s.pc .worker = .wait ∨ s.pc .worker = .blocked ∨ s.pc .worker = .test ∧ s.ready = false

theorem early_iff {as : List Act} : Early as ↔
    program.Happened (fun u a => a = .step .worker ∧ u.pc .worker = .lock ∧ u.ready = false) start
      as := by
  constructor
  · rintro ⟨bs, cs, u, rfl, hu, hlock⟩
    exact ⟨bs, _, cs, u, rfl, hu, rfl, hlock⟩
  · rintro ⟨bs, _, cs, u, rfl, hu, rfl, hlock⟩
    exact ⟨bs, cs, u, rfl, hu, hlock⟩

theorem early_snoc {as : List Act} (h : program.Exec start as s) :
    Early (as ++ [a]) ↔
      Early as ∨ a = .step .worker ∧ s.pc .worker = .lock ∧ s.ready = false := by
  rw [early_iff, early_iff]
  exact Machine.happened_snoc h

/-- `main` leaves the worker alone, and sets `ready` in its own section. -/
theorem Inv.main_other (h : s.Inv) :
    (s.stepAt .main (s.pc .main)).pc .worker = s.pc .worker ∧
      ((s.stepAt .main (s.pc .main)).ready = s.ready ∨ s.pc .main = .setReady) := by
  cases hpc : s.pc .main with
  | notifyOne =>
    have hmain := h.main
    rw [hpc] at hmain
    exact hmain.elim
  | setReady => exact ⟨by simp [State.stepAt, State.goto], .inr rfl⟩
  | blocked | returned => exact ⟨rfl, .inl rfl⟩
  | assign | lockFirst | unlockFirst | lock | notified | wait | body | unlock | join | test =>
    exact ⟨by simp [State.stepAt, State.goto, State.body], .inl rfl⟩

theorem Inv.lost_main (h : s.Inv) : (s.stepAt .main (s.pc .main)).Lost ↔ s.Lost := by
  obtain ⟨hpc, hready⟩ := Inv.main_other h
  unfold State.Lost
  rw [hpc]
  rcases hready with hready | hset
  · rw [hready]
  · -- the worker is outside
    have hout : (s.pc .worker).inside = false :=
      h.excl.outside (i := .main) (by rw [hset]; rfl) (by decide)
    have hne : s.pc .worker ≠ .test := by
      intro htest
      rw [htest] at hout
      cases hout
    simp [hne]

theorem Inv.lost_worker (h : s.Inv) (he : s.ReadyAt .worker (s.pc .worker))
    (hpc : s.pc .worker ≠ .notified) :
    (s.stepAt .worker (s.pc .worker)).Lost ↔
      s.Lost ∨ s.pc .worker = .lock ∧ s.ready = false := by
  have hworker := h.worker
  unfold State.Lost
  cases hw : s.pc .worker with
  | lock => simp [State.stepAt, State.goto]
  | notified => exact absurd hw hpc
  | test =>
    cases hready : s.ready <;> simp [State.stepAt, State.goto, State.flag, hready]
  | wait => simp [State.stepAt, State.goto]
  | body => simp [State.stepAt, State.goto]
  | unlock => simp [State.stepAt, State.goto, State.afterUnlock]
  | notifyOne => simp [State.stepAt, State.goto]
  | blocked | returned =>
    rw [hw] at he
    exact he.elim
  | assign | lockFirst | setReady | unlockFirst | join =>
    rw [hw] at hworker
    exact hworker.elim

/-- The worker is not notified. -/
theorem worker_ne_notified (h : s.Inv) (he : s.ReadyAt .worker (s.pc .worker)) :
    (s.stepAt .worker (s.pc .worker)).pc .worker ≠ .notified := by
  have hworker := h.worker
  cases hw : s.pc .worker with
  | test => simp only [State.stepAt, State.goto, Function.update_self]; split <;> simp
  | lock | notified | wait | body | unlock | notifyOne =>
    simp [State.stepAt, State.goto, State.afterUnlock]
  | blocked | returned =>
    rw [hw] at he
    exact he.elim
  | assign | lockFirst | setReady | unlockFirst | join =>
    rw [hw] at hworker
    exact hworker.elim

theorem early_iff_lost {as : List Act} (h : program.Exec start as s)
    (hquiet : ∀ k, .wakeUp k ∉ as) :
    (Early as ↔ s.Lost) ∧ s.pc .worker ≠ .notified := by
  induction h with
  | nil =>
    refine ⟨iff_of_false ?_ ?_, by decide⟩
    · rintro ⟨bs, cs, -, heq, -⟩
      cases bs <;> cases heq
    · rintro (hpc | hpc | ⟨hpc, -⟩) <;> cases hpc
  | @snoc as t a hrun he ih =>
    obtain ⟨hiff, hne⟩ := ih fun k hk => hquiet k (List.mem_append_left _ hk)
    have hinv := inv (hrun.reachable rfl)
    rw [early_snoc hrun, hiff]
    cases a with
    | wakeUp k => exact absurd (List.mem_append_right as (List.mem_singleton_self _)) (hquiet k)
    | step k =>
      cases k with
      | main =>
        refine ⟨?_, ?_⟩
        · rw [or_iff_left (by simp)]
          exact (Inv.lost_main hinv).symm
        · show (t.stepAt .main (t.pc .main)).pc .worker ≠ .notified
          rwa [(Inv.main_other hinv).1]
      | worker =>
        refine ⟨?_, worker_ne_notified hinv he⟩
        rw [and_iff_right rfl]
        exact (Inv.lost_worker hinv he hne).symm

/-- A run is bounded, and each spurious wakeup adds four to the bound. Where it stops, both
threads have returned and have printed what they always print, or they wait for each other;
and in a run without spurious wakeups, they wait for each other exactly if the worker took the
mutex before `main` had set `ready`. -/
theorem worker_ends_iff {as : List Act} (h : program.Exec start as s) :
    as.length ≤ 24 + Machine.totalCost Act.cost as ∧
      (s.Stopped →
        s.pc .main = .returned ∧ s.pc .worker = .returned ∧
          s.out = firstLine :: (workerLines ++ [lastLine]) ∨
        s.pc .main = .blocked ∧ s.pc .worker = .blocked) ∧
      (s.Stopped → (∀ k, .wakeUp k ∉ as) → (s.pc .main = .blocked ↔ Early as)) ∧
      ∃ bs t, program.Exec s bs t ∧ t.Stopped := by
  have hinv := inv (h.reachable rfl)
  refine ⟨worker_decreases.length_le (inv ⟨start, [], rfl, .nil⟩) h, ?_, ?_, ?_⟩
  · intro hstop
    refine (Inv.stopped hinv hstop).imp_left fun hreturned => ⟨hreturned.1, hreturned.2, ?_⟩
    have hworker := hinv.worker
    rw [hreturned.2] at hworker
    rw [hinv.text.out, hreturned.1, hworker.1, hworker.2]
    rfl
  · intro hstop hquiet
    rw [(early_iff_lost h hquiet).1]
    unfold State.Lost
    rcases Inv.stopped hinv hstop with ⟨hm, hw⟩ | ⟨hm, hw⟩
    · simp [hm, hw]
    · simp [hm, hw]
  · obtain ⟨bs, t, hrun, -, ht⟩ := worker_decreases.exists_stopped hinv
    exact ⟨bs, t, hrun, fun k hk => ht (.step k) hk rfl⟩

/-- The worker is first: it takes the mutex, finds `ready` false and blocks. -/
def workerFirst : List Act :=
  List.replicate 3 (.step .worker) ++ List.replicate 7 (.step .main)

theorem workerFirst_runs : (program.run start workerFirst).isSome := by decide

theorem worker_ends_iff_workerFirst :
    ((program.run start workerFirst).get workerFirst_runs).pc .main = .blocked ↔
      Early workerFirst :=
  (worker_ends_iff (Machine.exec_run_get workerFirst_runs)).2.2.1
    (by intro k; cases k <;> decide) (by intro k; cases k <;> decide)

end SisProg.Threads.Worker
