import Mathlib.Algebra.Order.BigOperators.Group.Finset
import SisProg.Lib.Printf
import SisProg.Lib.Termination
import SisProg.Lib.Threads

/-!
# Threads that wait for the start

The threads of `atomic/cond1.cpp` run `print_id` and wait until `go` sets `ready`, which
`main` calls when it has created all of them. The flag is set and all threads are notified
under the mutex, so that none of them misses it.

* `inv`: where a thread can be while `main` is at a given place (`Main.Fits`).
* `cond1_starts_all`: for any number of threads and in any interleaving, all of them are
  started, nobody prints before `go` has, and the program ends.
-/

namespace SisProg.Threads.Cond1

open Bytes (ascii)

/-- Where a thread is.

* `unborn`: not created yet;
* `lock`: about to construct the `unique_lock`;
* `test`: in `wait`, holds the mutex, about to read `ready`;
* `wait`: it was false, about to release the mutex and block;
* `blocked`: not notified;
* `notified`: about to lock the mutex again;
* `print`: behind `wait`;
* `unlock`: about to leave the function;
* `returned`. -/
inductive Pc
  | unborn
  | lock
  | test
  | wait
  | blocked
  | notified
  | print
  | unlock
  | returned
deriving DecidableEq

/-- Where `main` is.

* `create k`: about to compare `k` with the number of threads;
* `announce`: about to print;
* `lock`, `set`, `notifyAll`, `print`, `unlock`: in `go`;
* `join k`: about to join the thread `k`, if there is one;
* `returned`. -/
inductive Main
  | create (k : Nat)
  | announce
  | lock
  | set
  | notifyAll
  | print
  | unlock
  | join (k : Nat)
  | returned
deriving DecidableEq

/-- The mutex is held by `main` (`some none`) or by a thread. -/
structure State (n : Nat) where
  ready : Bool
  mutex : Option (Option (Fin n))
  main : Main
  threads : Fin n → Pc
  out : List Bytes

inductive Act (n : Nat)
  | main
  | lock (i : Fin n)
  | proceed (i : Fin n)
  | mustWait (i : Fin n)
  | wait (i : Fin n)
  /-- A spurious wakeup. -/
  | wakeUp (i : Fin n)
  | print (i : Fin n)
  | unlock (i : Fin n)
deriving DecidableEq

/-- What `print_id` prints. -/
def line (id : Nat) : Bytes :=
  ascii "Thrad " ++ Printf.unsignedDecimal id ++ ascii " is working.\n"

/-- `notify_all` wakes the threads that are blocked. -/
def Pc.wake (pc : Pc) : Pc := if pc = .blocked then .notified else pc

variable {n : Nat}

namespace State

def goto (s : State n) (i : Fin n) (pc : Pc) : State n :=
  { s with threads := Function.update s.threads i pc }

/-- `main` can go on: the mutex is free, the thread that it joins has returned. -/
def MainReady (s : State n) : Prop :=
  match s.main with
  | .lock => s.mutex = none
  | .join k => ∀ h : k < n, s.threads ⟨k, h⟩ = .returned
  | .returned => False
  | _ => True

def mainNext (s : State n) : State n :=
  match s.main with
  | .create k =>
    if h : k < n then { s.goto ⟨k, h⟩ .lock with main := .create (k + 1) }
    else { s with main := .announce }
  | .announce => { s with main := .lock, out := s.out ++ [ascii "Ready to work...\n"] }
  | .lock => { s with main := .set, mutex := some none }
  | .set => { s with main := .notifyAll, ready := true }
  | .notifyAll => { s with main := .print, threads := fun i => (s.threads i).wake }
  | .print => { s with main := .unlock, out := s.out ++ [ascii "nesto\n"] }
  | .unlock => { s with main := .join 0, mutex := none }
  | .join k => if k < n then { s with main := .join (k + 1) } else { s with main := .returned }
  | .returned => s

def enabled (s : State n) : Act n → Prop
  | .main => s.MainReady
  | .lock i => (s.threads i = .lock ∨ s.threads i = .notified) ∧ s.mutex = none
  | .proceed i => s.threads i = .test ∧ s.ready = true
  | .mustWait i => s.threads i = .test ∧ s.ready = false
  | .wait i => s.threads i = .wait
  | .wakeUp i => s.threads i = .blocked
  | .print i => s.threads i = .print
  | .unlock i => s.threads i = .unlock

def next (s : State n) : Act n → State n
  | .main => s.mainNext
  | .lock i => { s.goto i .test with mutex := some (some i) }
  | .proceed i => s.goto i .print
  | .mustWait i => s.goto i .wait
  | .wait i => { s.goto i .blocked with mutex := none }
  | .wakeUp i => s.goto i .notified
  | .print i => { s.goto i .unlock with out := s.out ++ [line i] }
  | .unlock i => { s.goto i .returned with mutex := none }

instance (s : State n) : Decidable s.MainReady := by
  unfold MainReady
  split <;> infer_instance

instance (s : State n) (a : Act n) : Decidable (s.enabled a) := by
  cases a <;> unfold enabled <;> infer_instance

end State

def start (n : Nat) : State n := ⟨false, none, .create 0, fun _ => .unborn, []⟩

/-- The program, with `n` threads. -/
def cond1 (n : Nat) : Machine (State n) (Act n) where
  init s := s = start n
  enabled := State.enabled
  next := State.next

instance (s : State n) (a : Act n) : Decidable ((cond1 n).enabled s a) :=
  inferInstanceAs (Decidable (s.enabled a))

/-! ## The mutex -/

def Pc.inside : Pc → Bool
  | .test | .wait | .print | .unlock => true
  | _ => false

def Main.inside : Main → Bool
  | .set | .notifyAll | .print | .unlock => true
  | _ => false

/-- Who is inside. -/
def State.holds (s : State n) : Option (Fin n) → Bool
  | none => s.main.inside
  | some i => (s.threads i).inside

/-- The mutex is held by the one that is inside. -/
def State.Excl (s : State n) : Prop := Exclusive id s.mutex s.holds

variable {s t : State n} {a : Act n} {i : Fin n}

theorem holds_thread {pc : Pc} (ht : t.threads = Function.update s.threads i pc)
    (hm : t.main = s.main) : t.holds = Function.update s.holds (some i) pc.inside := by
  funext k
  cases k with
  | none => simp [State.holds, hm]
  | some j =>
    rw [Function.update_apply]
    simp only [State.holds, ht, Function.update_apply, Option.some.injEq]
    split <;> rfl

theorem holds_main (ht : ∀ i, (t.threads i).inside = (s.threads i).inside) :
    t.holds = Function.update s.holds none t.main.inside := by
  funext k
  cases k with
  | none => simp [State.holds]
  | some j => simp [State.holds, ht j]

theorem wake_inside (pc : Pc) : pc.wake.inside = pc.inside := by cases pc <;> rfl

theorem Excl.thread_keep {pc : Pc} (h : s.Excl) (ht : t.threads = Function.update s.threads i pc)
    (hm : t.main = s.main) (hmutex : t.mutex = s.mutex)
    (hpc : pc.inside = (s.threads i).inside) : t.Excl := by
  unfold State.Excl
  rw [hmutex, holds_thread ht hm]
  exact Exclusive.keep h hpc

theorem Excl.thread_release {pc : Pc} (h : s.Excl)
    (ht : t.threads = Function.update s.threads i pc) (hm : t.main = s.main)
    (hmutex : t.mutex = none) (hin : (s.threads i).inside = true) (hpc : pc.inside = false) :
    t.Excl := by
  unfold State.Excl
  rw [hmutex, holds_thread ht hm]
  exact Exclusive.release (i := some i) h hin hpc

theorem Excl.main_keep (h : s.Excl) (ht : ∀ i, (t.threads i).inside = (s.threads i).inside)
    (hmutex : t.mutex = s.mutex) (hm : t.main.inside = s.main.inside) : t.Excl := by
  unfold State.Excl
  rw [hmutex, holds_main ht]
  exact Exclusive.keep h hm

theorem Excl.thread_acquire {pc : Pc} (h : s.Excl)
    (ht : t.threads = Function.update s.threads i pc) (hm : t.main = s.main)
    (hfree : s.mutex = none) (hmutex : t.mutex = some (some i)) (hpc : pc.inside = true) :
    t.Excl := by
  unfold State.Excl at h ⊢
  rw [hfree] at h
  rw [hmutex, holds_thread ht hm]
  exact Exclusive.acquire h hpc

theorem Excl.main_acquire (h : s.Excl) (ht : t.threads = s.threads) (hfree : s.mutex = none)
    (hmutex : t.mutex = some none) (hm : t.main.inside = true) : t.Excl := by
  unfold State.Excl at h ⊢
  rw [hfree] at h
  rw [hmutex, @holds_main n s t fun i => by rw [ht]]
  exact Exclusive.acquire h hm

theorem Excl.main_release (h : s.Excl) (ht : t.threads = s.threads) (hmutex : t.mutex = none)
    (hin : s.main.inside = true) (hm : t.main.inside = false) : t.Excl := by
  unfold State.Excl
  rw [hmutex, @holds_main n s t fun i => by rw [ht]]
  exact Exclusive.release (i := none) h hin hm

/-- The one inside is alone. -/
theorem Excl.main_outside (h : s.Excl) (hi : (s.threads i).inside = true) :
    s.main.inside = false :=
  Exclusive.outside (i := some i) (k := none) h hi (by simp)

theorem Excl.free (h : s.Excl) (hfree : s.mutex = none) (k : Option (Fin n)) :
    s.holds k = false := by
  unfold State.Excl at h
  rw [hfree] at h
  exact Exclusive.outside_of_free h k

/-! ## Where the threads are -/

/-- Created, and `ready` was not seen to be set. -/
def Pc.Before : Pc → Prop
  | .lock | .test | .wait | .blocked | .notified => True
  | _ => False

/-- Created, and not going to wait. -/
def Pc.After : Pc → Prop
  | .lock | .notified | .test | .print | .unlock | .returned => True
  | _ => False

/-- Where the thread `i` can be. -/
def Main.Fits (i : Nat) : Main → Pc → Prop
  | .create k, pc => if i < k then pc.Before else pc = .unborn
  | .announce, pc | .lock, pc => pc.Before
  | .set, pc | .notifyAll, pc => pc.Before ∧ pc.inside = false
  | .print, pc | .unlock, pc => pc = .lock ∨ pc = .notified
  | .join k, pc => pc.After ∧ (i < k → pc = .returned)
  | .returned, pc => pc = .returned

/-- `ready` has been set. -/
def Main.opened : Main → Bool
  | .notifyAll | .print | .unlock | .join _ | .returned => true
  | _ => false

structure State.Inv (s : State n) : Prop where
  excl : s.Excl
  ready : s.ready = s.main.opened
  fits : ∀ i : Fin n, s.main.Fits i (s.threads i)

theorem Inv.mainNext (h : s.Inv) (he : s.MainReady) : s.mainNext.Inv := by
  obtain ⟨hexcl, hready, hfits⟩ := h
  unfold State.MainReady at he
  unfold State.mainNext
  cases hm : s.main with
  | create k =>
    rw [hm] at hready hfits
    simp only [Main.Fits] at hfits
    dsimp only
    split
    next hk =>
      have hunborn : s.threads ⟨k, hk⟩ = .unborn := by simpa using hfits ⟨k, hk⟩
      refine ⟨Excl.main_keep hexcl (fun i => ?_) rfl (by rw [hm]; rfl), hready, fun i => ?_⟩
      · simp only [State.goto, Function.update_apply]
        split
        next hi => rw [hi, hunborn]; rfl
        next => rfl
      · have hi := hfits i
        simp only [State.goto, Main.Fits, Function.update_apply, Fin.ext_iff]
        rcases Nat.lt_trichotomy i k with hlt | heq | hgt
        · rw [if_neg (Nat.ne_of_lt hlt), if_pos (Nat.lt_succ_of_lt hlt)]
          rwa [if_pos hlt] at hi
        · rw [if_pos heq, if_pos (heq ▸ Nat.lt_succ_self _)]
          trivial
        · rw [if_neg (Nat.ne_of_gt hgt), if_neg (Nat.not_lt_of_le hgt)]
          rwa [if_neg (Nat.lt_asymm hgt)] at hi
    next hk =>
      refine ⟨Excl.main_keep hexcl (fun _ => rfl) rfl (by rw [hm]; rfl), hready, fun i => ?_⟩
      have hi := hfits i
      rwa [if_pos (Nat.lt_of_lt_of_le i.isLt (Nat.le_of_not_lt hk))] at hi
  | announce =>
    rw [hm] at hready hfits
    exact ⟨Excl.main_keep hexcl (fun _ => rfl) rfl (by rw [hm]; rfl), hready, hfits⟩
  | lock =>
    rw [hm] at he hready hfits
    have hfree : s.mutex = none := he
    exact ⟨Excl.main_acquire hexcl rfl hfree rfl rfl, hready,
      fun i => ⟨hfits i, Excl.free hexcl hfree (some i)⟩⟩
  | set =>
    rw [hm] at hfits
    exact ⟨Excl.main_keep hexcl (fun _ => rfl) rfl (by rw [hm]; rfl), rfl, hfits⟩
  | notifyAll =>
    rw [hm] at hready hfits
    refine ⟨Excl.main_keep hexcl (fun i => wake_inside _) rfl (by rw [hm]; rfl), hready,
      fun i => ?_⟩
    obtain ⟨hbefore, hout⟩ := hfits i
    show (s.threads i).wake = .lock ∨ (s.threads i).wake = .notified
    cases hpc : s.threads i <;> rw [hpc] at hbefore hout <;> simp_all [Pc.Before, Pc.inside, Pc.wake]
  | print =>
    rw [hm] at hready hfits
    exact ⟨Excl.main_keep hexcl (fun _ => rfl) rfl (by rw [hm]; rfl), hready, hfits⟩
  | unlock =>
    rw [hm] at hready hfits
    refine ⟨Excl.main_release hexcl rfl rfl (by rw [hm]; rfl) rfl, hready,
      fun i => ⟨?_, fun hlt => absurd hlt (Nat.not_lt_zero _)⟩⟩
    rcases hfits i with hpc | hpc
    · simp [hpc, Pc.After]
    · simp [hpc, Pc.After]
  | join k =>
    rw [hm] at he hready hfits
    dsimp only
    split
    next hk =>
      refine ⟨Excl.main_keep hexcl (fun _ => rfl) rfl (by rw [hm]; rfl), hready, fun i => ?_⟩
      refine ⟨(hfits i).1, fun hlt => ?_⟩
      rcases Nat.lt_succ_iff_lt_or_eq.mp hlt with hlt | heq
      · exact (hfits i).2 hlt
      · obtain rfl : i = ⟨k, hk⟩ := Fin.ext heq
        exact he hk
    next hk =>
      refine ⟨Excl.main_keep hexcl (fun _ => rfl) rfl (by rw [hm]; rfl), hready, fun i => ?_⟩
      exact (hfits i).2 (Nat.lt_of_lt_of_le i.isLt (Nat.le_of_not_lt hk))
  | returned =>
    rw [hm] at he
    exact he.elim

/-- Before `ready` is set a thread can be anywhere before. -/
theorem Main.Fits.of_before {m : Main} {k : Nat} {pc pc' : Pc} (h : m.Fits k pc)
    (hpc : pc.Before) (hpc' : pc'.Before) (hm : m.opened = false) (hin : m.inside = false) :
    m.Fits k pc' := by
  cases m with
  | create c =>
    simp only [Main.Fits] at h ⊢
    split
    next => exact hpc'
    next hk =>
      rw [if_neg hk] at h
      rw [h] at hpc
      exact hpc.elim
  | announce | lock => exact hpc'
  | set => cases hin
  | notifyAll | print | unlock | join | returned => cases hm

/-- When `go` has returned a thread can be anywhere behind. -/
theorem Main.Fits.of_after {m : Main} {k : Nat} {pc pc' : Pc} (h : m.Fits k pc)
    (hpc : pc ≠ .returned) (hpc' : pc'.After) (hm : m.opened = true) (hin : m.inside = false) :
    m.Fits k pc' := by
  cases m with
  | join c => exact ⟨hpc', fun hlt => absurd (h.2 hlt) hpc⟩
  | returned => exact absurd h hpc
  | notifyAll | print | unlock => cases hin
  | create | announce | lock | set => cases hm

/-- A thread that waits has not seen `ready`. -/
theorem Main.Fits.not_opened {m : Main} {k : Nat} {pc : Pc} (h : m.Fits k pc)
    (hpc : pc = .wait) : m.opened = false := by
  cases m with
  | notifyAll => rw [hpc] at h; cases h.2
  | print | unlock => rw [hpc] at h; cases h <;> contradiction
  | join c => rw [hpc] at h; exact h.1.elim
  | returned => rw [hpc] at h; cases h
  | create | announce | lock | set => rfl

/-- A thread that has left its wait has seen it. -/
theorem Main.Fits.is_opened {m : Main} {k : Nat} {pc : Pc} (h : m.Fits k pc)
    (hpc : pc = .print ∨ pc = .unlock) : m.opened = true := by
  cases m with
  | create c =>
    simp only [Main.Fits] at h
    rcases hpc with rfl | rfl <;> split at h <;> cases h
  | announce | lock => rcases hpc with rfl | rfl <;> cases h
  | set => rcases hpc with rfl | rfl <;> cases h.2
  | notifyAll | print | unlock | join | returned => rfl

/-- A wakeup that is spurious comes before `notify_all`. -/
theorem Main.Fits.wakeUp {m : Main} {k : Nat} (h : m.Fits k .blocked) : m.Fits k .notified := by
  cases m with
  | create c =>
    simp only [Main.Fits] at h ⊢
    split
    next => trivial
    next hk => rw [if_neg hk] at h; cases h
  | announce | lock => trivial
  | set | notifyAll => exact ⟨trivial, rfl⟩
  | print | unlock => exact .inr rfl
  | join c => exact h.1.elim
  | returned => cases h

/-- A step of the thread `i`, where `pc` is a place that it can be at. -/
theorem Inv.step {pc : Pc} (h : s.Inv) (hexcl : t.Excl)
    (ht : t.threads = Function.update s.threads i pc) (hm : t.main = s.main)
    (hready : t.ready = s.ready) (hpc : s.main.Fits i pc) : t.Inv := by
  refine ⟨hexcl, by rw [hready, hm, h.ready], fun j => ?_⟩
  rw [hm, ht, Function.update_apply]
  split
  next hj => rwa [hj]
  next => exact h.fits j

theorem Inv.lock (h : s.Inv) (he : s.enabled (.lock i)) : (s.next (.lock i)).Inv := by
  have hfits := h.fits i
  have hout : s.main.inside = false := Excl.free h.excl he.2 none
  refine Inv.step h (Excl.thread_acquire h.excl rfl rfl he.2 rfl rfl) rfl rfl rfl ?_
  cases hopened : s.main.opened with
  | false =>
    refine hfits.of_before ?_ trivial hopened hout
    rcases he.1 with hpc | hpc <;> rw [hpc] <;> trivial
  | true =>
    refine hfits.of_after ?_ trivial hopened hout
    rcases he.1 with hpc | hpc <;> rw [hpc] <;> decide

theorem Inv.next (h : s.Inv) (he : s.enabled a) : (s.next a).Inv := by
  cases a with
  | main => exact Inv.mainNext h he
  | lock i => exact Inv.lock h he
  | proceed i =>
    obtain ⟨hpc, hready⟩ := he
    have hin : (s.threads i).inside = true := by rw [hpc]; rfl
    refine Inv.step h (Excl.thread_keep h.excl rfl rfl rfl hin.symm) rfl rfl rfl ?_
    exact (h.fits i).of_after (by rw [hpc]; decide) trivial (h.ready.symm.trans hready)
      (Excl.main_outside h.excl hin)
  | mustWait i =>
    obtain ⟨hpc, hready⟩ := he
    have hin : (s.threads i).inside = true := by rw [hpc]; rfl
    refine Inv.step h (Excl.thread_keep h.excl rfl rfl rfl hin.symm) rfl rfl rfl ?_
    exact (h.fits i).of_before (by rw [hpc]; trivial) trivial (h.ready.symm.trans hready)
      (Excl.main_outside h.excl hin)
  | wait i =>
    have hpc : s.threads i = .wait := he
    have hin : (s.threads i).inside = true := by rw [hpc]; rfl
    refine Inv.step h (Excl.thread_release h.excl rfl rfl rfl hin rfl) rfl rfl rfl ?_
    exact (h.fits i).of_before (by rw [hpc]; trivial) trivial ((h.fits i).not_opened hpc)
      (Excl.main_outside h.excl hin)
  | wakeUp i =>
    have hpc : s.threads i = .blocked := he
    refine Inv.step h (Excl.thread_keep h.excl rfl rfl rfl (by rw [hpc]; rfl)) rfl rfl rfl ?_
    exact (hpc ▸ h.fits i).wakeUp
  | print i =>
    have hpc : s.threads i = .print := he
    have hin : (s.threads i).inside = true := by rw [hpc]; rfl
    refine Inv.step h (Excl.thread_keep h.excl rfl rfl rfl hin.symm) rfl rfl rfl ?_
    exact (h.fits i).of_after (by rw [hpc]; decide) trivial ((h.fits i).is_opened (.inl hpc))
      (Excl.main_outside h.excl hin)
  | unlock i =>
    have hpc : s.threads i = .unlock := he
    have hin : (s.threads i).inside = true := by rw [hpc]; rfl
    refine Inv.step h (Excl.thread_release h.excl rfl rfl rfl hin rfl) rfl rfl rfl ?_
    exact (h.fits i).of_after (by rw [hpc]; decide) trivial ((h.fits i).is_opened (.inr hpc))
      (Excl.main_outside h.excl hin)

theorem inv (h : (cond1 n).Reachable s) : s.Inv := by
  refine h.induct ?_ fun _ _ _ hs he => Inv.next hs he
  rintro s rfl
  refine ⟨fun k => ?_, rfl, fun i => ?_⟩
  · cases k <;> exact ⟨nofun, nofun⟩
  · simp [start, Main.Fits]

/-! ## What is printed -/

/-- What `main` has printed. -/
def Main.printed : Main → List Bytes
  | .create _ | .announce => []
  | .lock | .set | .notifyAll | .print => [ascii "Ready to work...\n"]
  | .unlock | .join _ | .returned => [ascii "Ready to work...\n", ascii "nesto\n"]

/-- The thread has printed its line. -/
def Pc.done (pc : Pc) : Prop := pc = .unlock ∨ pc = .returned

/-- `main` has printed, and after it the threads of `order`. -/
structure State.Printed (s : State n) (order : List (Fin n)) : Prop where
  out : s.out = s.main.printed ++ order.map fun i : Fin n => line i
  nodup : order.Nodup
  mem : ∀ i, i ∈ order ↔ (s.threads i).done

/-- A step that prints nothing. -/
theorem Printed.keep {order : List (Fin n)} (h : s.Printed order) (hout : t.out = s.out)
    (hm : t.main.printed = s.main.printed)
    (ht : ∀ i, (t.threads i).done ↔ (s.threads i).done) : t.Printed order :=
  ⟨by rw [hout, hm, h.out], h.nodup, fun i => (h.mem i).trans (ht i).symm⟩

theorem Printed.thread {order : List (Fin n)} {pc : Pc} (h : s.Printed order)
    (hout : t.out = s.out) (hm : t.main = s.main)
    (ht : t.threads = Function.update s.threads i pc) (hpc : pc.done ↔ (s.threads i).done) :
    t.Printed order := by
  refine Printed.keep h hout (by rw [hm]) fun j => ?_
  rw [ht, Function.update_apply]
  split
  next hj => rw [hpc, hj]
  next => rfl

/-- `main` prints, while no thread has printed. -/
theorem Printed.main {order : List (Fin n)} (h : s.Printed order) {b : Bytes}
    (hnone : ∀ i, ¬ (s.threads i).done) (hout : t.out = s.out ++ [b])
    (hm : t.main.printed = s.main.printed ++ [b]) (ht : t.threads = s.threads) :
    t.Printed order := by
  have hnil : order = [] :=
    List.eq_nil_iff_forall_not_mem.mpr fun i hi => hnone i ((h.mem i).mp hi)
  have hs := h.out
  subst hnil
  refine ⟨?_, h.nodup, fun i => by rw [ht]; exact h.mem i⟩
  rw [hout, hm, hs]
  simp

theorem not_done_of_before {pc : Pc} (h : pc.Before) : ¬ pc.done := by
  rintro (rfl | rfl) <;> exact h

theorem Printed.mainNext {order : List (Fin n)} (h : s.Printed order) (hinv : s.Inv) :
    s.mainNext.Printed order := by
  have hfits := hinv.fits
  unfold State.mainNext
  cases hm : s.main with
  | create k =>
    rw [hm] at hfits
    simp only [Main.Fits] at hfits
    dsimp only
    split
    next hk =>
      have hunborn : s.threads ⟨k, hk⟩ = .unborn := by simpa using hfits ⟨k, hk⟩
      refine Printed.keep h rfl (by rw [hm]; rfl) fun j => ?_
      simp only [State.goto, Function.update_apply]
      split
      next hj => rw [hj, hunborn]; simp [Pc.done]
      next => rfl
    next => exact Printed.keep h rfl (by rw [hm]; rfl) fun _ => Iff.rfl
  | announce =>
    rw [hm] at hfits
    exact Printed.main h (fun i => not_done_of_before (hfits i)) rfl (by rw [hm]; rfl) rfl
  | lock | set | unlock => exact Printed.keep h rfl (by rw [hm]; rfl) fun _ => Iff.rfl
  | notifyAll =>
    refine Printed.keep h rfl (by rw [hm]; rfl) fun i => ?_
    show (s.threads i).wake.done ↔ _
    cases s.threads i <;> simp [Pc.wake, Pc.done]
  | print =>
    rw [hm] at hfits
    refine Printed.main h (fun i => ?_) rfl (by rw [hm]; rfl) rfl
    rcases hfits i with hpc | hpc <;> simp [hpc, Pc.done]
  | join k =>
    dsimp only
    split <;> exact Printed.keep h rfl (by rw [hm]; rfl) fun _ => Iff.rfl
  | returned => exact h

theorem printed_inv (h : (cond1 n).Reachable s) : ∃ order, s.Printed order := by
  refine h.induct (P := fun s => ∃ order, s.Printed order) ?_ ?_
  · rintro s rfl
    exact ⟨[], rfl, List.nodup_nil, fun i => by simp [start, Pc.done]⟩
  · rintro s a hs ⟨order, horder⟩ he
    cases a with
    | main => exact ⟨order, Printed.mainNext horder (inv hs)⟩
    | lock i =>
      refine ⟨order, Printed.thread horder rfl rfl rfl ?_⟩
      rcases he.1 with hpc | hpc <;> simp [hpc, Pc.done]
    | proceed i | mustWait i =>
      exact ⟨order, Printed.thread horder rfl rfl rfl (by simp [he.1, Pc.done])⟩
    | wait i | wakeUp i | unlock i =>
      have hpc : s.threads i = _ := he
      exact ⟨order, Printed.thread horder rfl rfl rfl (by simp [hpc, Pc.done])⟩
    | print i =>
      have hpc : s.threads i = .print := he
      have hnot : i ∉ order := fun hi => by simpa [hpc, Pc.done] using (horder.mem i).mp hi
      refine ⟨order ++ [i], ?_, ?_, fun j => ?_⟩
      · show s.out ++ [line i] = s.main.printed ++ _
        rw [horder.out, List.map_append, List.append_assoc]
        rfl
      · exact horder.nodup.append (List.nodup_singleton i) (by simpa using hnot)
      · show _ ↔ (Function.update s.threads i .unlock j).done
        rw [List.mem_append, List.mem_singleton, Function.update_apply, horder.mem]
        split
        next hj => simp [hj, Pc.done]
        next hj => simp [hj]

/-! ## The program goes on, and ends -/

theorem exists_step_of_inside (hin : (s.threads i).inside = true) :
    ∃ a, s.enabled a ∧ ∀ j, a ≠ .wakeUp j := by
  cases hpc : s.threads i with
  | test =>
    cases hready : s.ready with
    | false => exact ⟨.mustWait i, ⟨hpc, hready⟩, by simp⟩
    | true => exact ⟨.proceed i, ⟨hpc, hready⟩, by simp⟩
  | wait => exact ⟨.wait i, hpc, by simp⟩
  | print => exact ⟨.print i, hpc, by simp⟩
  | unlock => exact ⟨.unlock i, hpc, by simp⟩
  | unborn | lock | blocked | notified | returned =>
    rw [hpc] at hin
    cases hin

theorem progress (h : s.Inv) (hnot : s.main ≠ .returned) :
    ∃ a, s.enabled a ∧ ∀ j, a ≠ .wakeUp j := by
  by_cases hready : s.MainReady
  · exact ⟨.main, hready, by simp⟩
  · cases hmutex : s.mutex with
    | some k =>
      have hin := (h.excl k).mp hmutex
      cases k with
      | some i => exact exists_step_of_inside hin
      | none =>
        have hin' : s.main.inside = true := hin
        refine absurd ?_ hready
        unfold State.MainReady
        cases hm : s.main <;> rw [hm] at hin' <;> trivial
    | none =>
      -- `main` is in a `join`, and the thread can take the mutex
      unfold State.MainReady at hready
      cases hm : s.main with
      | join k =>
        rw [hm] at hready
        simp only [not_forall] at hready
        obtain ⟨hk, hrunning⟩ := hready
        have hfits := h.fits ⟨k, hk⟩
        rw [hm] at hfits
        have hout : (s.threads ⟨k, hk⟩).inside = false := Excl.free h.excl hmutex (some _)
        have hafter := hfits.1
        refine ⟨.lock ⟨k, hk⟩, ⟨?_, hmutex⟩, by simp⟩
        cases hpc : s.threads ⟨k, hk⟩ <;> rw [hpc] at hafter hout hrunning <;>
          simp_all [Pc.After, Pc.inside]
      | lock => rw [hm] at hready; exact absurd hmutex hready
      | returned => exact absurd hm hnot
      | create | announce | set | notifyAll | print | unlock =>
        rw [hm] at hready
        exact absurd trivial hready

/-- How far a thread is from its end, unless it is woken. -/
def Pc.rank : Pc → Nat
  | .returned => 0
  | .unlock => 1
  | .print => 2
  | .blocked => 3
  | .wait => 4
  | .test => 5
  | .lock | .notified => 6
  | .unborn => 7

/-- How far `main` is from its end. `notify_all` sends each thread back by three steps. -/
def Main.rank (n : Nat) : Main → Nat
  | .returned => 0
  | .join k => n - k + 1
  | .unlock => n + 2
  | .print => n + 3
  | .notifyAll => 3 * n + (n + 4)
  | .set => 3 * n + (n + 5)
  | .lock => 3 * n + (n + 6)
  | .announce => 3 * n + (n + 7)
  | .create k => 3 * n + (n + 8 + (n - k))

def State.left (s : State n) : Nat := ∑ i, (s.threads i).rank + s.main.rank n

/-- A spurious wakeup sends a thread back, and is itself a step. -/
def Act.cost : Act n → Nat
  | .wakeUp _ => 4
  | _ => 0

theorem left_thread {pc : Pc} (ht : t.threads = Function.update s.threads i pc)
    (hm : t.main = s.main) : t.left + (s.threads i).rank = s.left + pc.rank := by
  have hsum := sum_update_add Pc.rank s.threads i pc
  unfold State.left
  rw [ht, hm, Nat.add_right_comm, hsum, Nat.add_right_comm]

theorem left_lt {pc : Pc} (ht : t.threads = Function.update s.threads i pc)
    (hm : t.main = s.main) (hpc : pc.rank < (s.threads i).rank) : t.left + 1 ≤ s.left := by
  have hleft := left_thread ht hm
  refine Nat.lt_of_add_lt_add_right (n := (s.threads i).rank) ?_
  rw [hleft]
  exact Nat.add_lt_add_left hpc _

theorem left_main (ht : t.threads = s.threads) (hm : t.main.rank n < s.main.rank n) :
    t.left + 1 ≤ s.left := by
  unfold State.left
  rw [ht]
  exact Nat.add_lt_add_left hm _

theorem wake_rank_le (pc : Pc) : pc.wake.rank ≤ pc.rank + 3 := by cases pc <;> decide

theorem left_mainNext (h : s.Inv) (he : s.MainReady) : s.mainNext.left + 1 ≤ s.left := by
  unfold State.MainReady at he
  unfold State.mainNext
  cases hm : s.main with
  | create k =>
    dsimp only
    split
    next hk =>
      have hunborn : s.threads ⟨k, hk⟩ = .unborn := by
        have hfits := h.fits ⟨k, hk⟩
        rw [hm] at hfits
        simpa [Main.Fits] using hfits
      have hmove := @left_thread n s (s.goto ⟨k, hk⟩ .lock) ⟨k, hk⟩ .lock rfl rfl
      rw [hunborn] at hmove
      simp only [State.left, State.goto, hm, Main.rank, Pc.rank] at hmove ⊢
      omega
    next =>
      refine left_main rfl ?_
      rw [hm]
      simp only [Main.rank]
      omega
  | notifyAll =>
    have hsum : ∑ i, ((s.threads i).wake).rank ≤ ∑ i, (s.threads i).rank + 3 * n := by
      refine (Finset.sum_le_sum fun i _ => wake_rank_le (s.threads i)).trans_eq ?_
      rw [Finset.sum_add_distrib, Finset.sum_const, Finset.card_univ, Fintype.card_fin]
      exact congrArg _ (Nat.mul_comm n 3)
    simp only [State.left, hm, Main.rank]
    omega
  | join k =>
    dsimp only
    split
    next hk =>
      refine left_main rfl ?_
      rw [hm]
      exact Nat.succ_lt_succ (Nat.sub_succ_lt_self _ _ hk)
    next =>
      refine left_main rfl ?_
      rw [hm]
      exact Nat.succ_pos _
  | returned =>
    rw [hm] at he
    exact he.elim
  | announce | lock | set | print | unlock =>
    refine left_main rfl ?_
    rw [hm]
    simp [Main.rank]

theorem cond1_decreases (n : Nat) :
    (cond1 n).DecreasesBut Act.cost State.Inv State.left := by
  intro s a hs he
  refine ⟨Inv.next hs he, ?_⟩
  show (s.next a).left + 1 ≤ s.left + a.cost
  cases a with
  | main => exact left_mainNext hs he
  | lock i =>
    refine left_lt (i := i) rfl rfl ?_
    rcases he.1 with hpc | hpc <;> rw [hpc] <;> decide
  | proceed i | mustWait i => exact left_lt (i := i) rfl rfl (by rw [he.1]; decide)
  | wait i | print i | unlock i =>
    have hpc : s.threads i = _ := he
    exact left_lt (i := i) rfl rfl (by rw [hpc]; decide)
  | wakeUp i =>
    have hpc : s.threads i = .blocked := he
    have hmove := @left_thread n s (s.next (.wakeUp i)) i .notified rfl rfl
    rw [hpc] at hmove
    exact Nat.le_of_eq (Nat.add_right_cancel (m := 2) hmove)

theorem left_start (n : Nat) : (start n).left = 12 * n + 8 := by
  simp only [State.left, start, Pc.rank, Main.rank, Finset.sum_const, Finset.card_univ,
    Fintype.card_fin, Nat.sub_zero]
  show n * 7 + _ = _
  omega

/-- For any number of threads and in any interleaving, spurious wakeups or not: until `main`
has returned some step can be taken that is no spurious wakeup; a run is not longer than a
bound to which each spurious wakeup adds four; `main` can always return; and when it has
returned, all threads have, and behind the two lines of `main` there is the line of each of
them. -/
theorem cond1_starts_all {as : List (Act n)} (h : (cond1 n).Exec (start n) as s) :
    (s.main ≠ .returned → ∃ a, (cond1 n).enabled s a ∧ ∀ j, a ≠ .wakeUp j) ∧
      as.length ≤ 12 * n + 8 + Machine.totalCost Act.cost as ∧
      (∃ bs t, (cond1 n).Exec s bs t ∧ Machine.totalCost Act.cost bs = 0 ∧
        t.main = .returned) ∧
      (s.main = .returned → (∀ i, s.threads i = .returned) ∧
        ∃ order : List (Fin n), order.Perm (List.finRange n) ∧
          s.out = [ascii "Ready to work...\n", ascii "nesto\n"] ++
            order.map fun i : Fin n => line i) := by
  have hreach : (cond1 n).Reachable s := h.reachable rfl
  have hinv := inv hreach
  refine ⟨progress hinv, ?_, ?_, ?_⟩
  · have hle := (cond1_decreases n).length_le (inv ⟨start n, [], rfl, .nil⟩) h
    rwa [left_start] at hle
  · refine (cond1_decreases n).exists_final (F := fun s => s.main = .returned) ?_ hinv
    intro t ht hnot
    obtain ⟨a, he, hne⟩ := progress ht hnot
    refine ⟨a, he, ?_⟩
    cases a with
    | wakeUp j => exact absurd rfl (hne j)
    | _ => rfl
  · intro hreturned
    have hall : ∀ i, s.threads i = .returned := by
      intro i
      have hfits := hinv.fits i
      rwa [hreturned] at hfits
    refine ⟨hall, ?_⟩
    obtain ⟨order, hout, hnodup, hmem⟩ := printed_inv hreach
    refine ⟨order, ?_, by rw [hout, hreturned]; rfl⟩
    rw [List.perm_ext_iff_of_nodup hnodup (List.nodup_finRange n)]
    intro i
    rw [hmem, hall]
    simp [Pc.done]

/-- Two threads. -/
def early : Fin 2 := ⟨0, Nat.zero_lt_two⟩

def late : Fin 2 := ⟨1, Nat.one_lt_two⟩

/-- One of the threads waits, the other one comes when `ready` is set. -/
def oneWaits : List (Act 2) :=
  [.main, .lock early, .mustWait early, .wait early, .main, .main, .main, .main, .main, .main,
    .main, .main, .lock late, .proceed late, .print late, .unlock late, .lock early,
    .proceed early, .print early, .unlock early, .main, .main, .main]

theorem oneWaits_runs : ((cond1 2).run (start 2) oneWaits).isSome := by decide

theorem cond1_starts_all_oneWaits : ∃ order : List (Fin 2), order.Perm (List.finRange 2) ∧
    (((cond1 2).run (start 2) oneWaits).get oneWaits_runs).out =
      [ascii "Ready to work...\n", ascii "nesto\n"] ++ order.map fun i : Fin 2 => line i :=
  ((cond1_starts_all (Machine.exec_run_get oneWaits_runs)).2.2.2 (by decide)).2

end SisProg.Threads.Cond1
