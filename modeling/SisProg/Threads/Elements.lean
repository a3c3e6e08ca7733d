import Mathlib.Data.Fintype.Sum
import SisProg.Lib.Machine
import SisProg.Lib.Threads

/-!
# Producers and consumers

`producer` and `consumer` of `elements.cpp`, run by `p` and `c` threads in any
interleaving, and of its copy `cons_work/producer.cpp`, in which the loop of `consumer`
ends before `notify_one` and `consumeElement` and not after them
(`Program.afterUnlock`, `Program.afterLoop`, `Program.afterConsume`). The threads of
`prod_cons/main.cpp` take the same steps, but its counters are plain `int`s, which it changes
without the mutex: they race, and what is said about them here is not said about that program.

A step is one access to shared state: taking the mutex, comparing the size of the buffer,
reading `done`, the atomic release-and-block of `wait`, and so on. A thread that is
blocked in `wait` may wake up without a notification.

`Element` holds no data. Here the elements are numbered as they are produced, so that it
can be said which one is where. `el` is the local variable of the two functions; it is
empty before the first element and after an element was emplaced or consumed.
-/

namespace SisProg.Threads

/-- The two versions of the program. -/
inductive Program
  | elements
  | consWork
deriving DecidableEq

/-- `MAX` of both. -/
def MAX : Nat := 10

/-- Where a thread is.

* `test`: about to evaluate `!done` of the outer loop;
* `produce`: about to call `produce_element`;
* `lock`: about to construct the `unique_lock`;
* `guard`: holds the mutex, about to evaluate the condition of the inner loop;
* `check`: the condition was true, about to evaluate `if (done)`;
* `wait`: about to call `wait`, which releases the mutex;
* `blocked`: in `wait`, not notified;
* `notified`: woken in `wait`, about to lock the mutex again;
* `emplace`, `take`, `pop`: the inner loop is over, about to call `buffer.emplace`, to copy
  `buffer.back()`, to call `buffer.pop`;
* `unlock`: about to release the mutex;
* `notify`: about to call `notify_one`;
* `consume`: about to call `consume_element`;
* `returned`: the function has returned. -/
inductive Pc
  | test
  | produce
  | lock
  | guard
  | check
  | wait
  | blocked
  | notified
  | emplace
  | take
  | pop
  | unlock
  | notify
  | consume
  | returned
deriving DecidableEq

/-- A thread, with its local variable `el`. -/
structure Local where
  pc : Pc
  el : Option Nat
deriving DecidableEq

/-- Producers and consumers. -/
abbrev Thread (p c : Nat) := Fin p ⊕ Fin c

/-- `main` sets `done`, notifies all threads on one condition variable and then on the
other, and joins. -/
inductive Main
  | sleep
  | notifyFirst
  | notifySecond
  | join
deriving DecidableEq

/-- The shared variables, and the threads. The counters are the numbers of increments. -/
structure Queue (p c : Nat) where
  buffer : List Nat
  done : Bool
  mutex : Option (Thread p c)
  numProduced : Nat
  numConsumed : Nat
  threads : Thread p c → Local
  main : Main

/-- The steps. One that handles an element carries its number. -/
inductive Act (p c : Nat)
  | enter (k : Thread p c)
  | leave (k : Thread p c)
  | produce (i : Fin p)
  | lock (k : Thread p c)
  | mustWait (k : Thread p c)
  | proceed (k : Thread p c)
  | quit (k : Thread p c)
  | stay (k : Thread p c)
  | wait (k : Thread p c)
  | wakeUp (k : Thread p c)
  | emplace (i : Fin p) (e : Nat)
  | take (j : Fin c) (e : Nat)
  | pop (j : Fin c) (e : Nat)
  | unlock (k : Thread p c)
  | notifyOne (k : Thread p c) (woken : Option (Thread p c))
  | consume (j : Fin c)
  | setDone
  | notifyFirst
  | notifySecond
deriving DecidableEq

variable {p c : Nat}

/-! ## The two functions -/

/-- The first statement of the outer loop's body. -/
def afterEnter : Thread p c → Pc
  | .inl _ => .produce
  | .inr _ => .lock

/-- The statement behind the inner loop. -/
def afterGuard : Thread p c → Pc
  | .inl _ => .emplace
  | .inr _ => .take

/-- What `consumer` does when its `unique_lock` is gone: in `consWork` this is the end of
the loop's body. -/
def Program.afterPop : Program → Pc
  | .elements => .notify
  | .consWork => .test

def Program.afterUnlock (prog : Program) : Thread p c → Pc
  | .inl _ => .notify
  | .inr _ => prog.afterPop

/-- What `consumer` does behind its loop. -/
def Program.behindLoop : Program → Pc
  | .elements => .returned
  | .consWork => .notify

def Program.afterLoop (prog : Program) : Thread p c → Pc
  | .inl _ => .returned
  | .inr _ => prog.behindLoop

def afterNotify : Thread p c → Pc
  | .inl _ => .test
  | .inr _ => .consume

def Program.afterConsume : Program → Pc
  | .elements => .test
  | .consWork => .returned

/-! A consumer pops right after it has taken an element. -/

@[simp] theorem afterEnter_ne_pop (k : Thread p c) : afterEnter k ≠ .pop := by
  cases k <;> simp [afterEnter]
@[simp] theorem afterGuard_ne_pop (k : Thread p c) : afterGuard k ≠ .pop := by
  cases k <;> simp [afterGuard]
@[simp] theorem afterNotify_ne_pop (k : Thread p c) : afterNotify k ≠ .pop := by
  cases k <;> simp [afterNotify]
@[simp] theorem afterLoop_ne_pop (prog : Program) (k : Thread p c) : prog.afterLoop k ≠ .pop := by
  cases k <;> cases prog <;> simp [Program.afterLoop, Program.behindLoop]
@[simp] theorem afterUnlock_ne_pop (prog : Program) (k : Thread p c) :
    prog.afterUnlock k ≠ .pop := by
  cases k <;> cases prog <;> simp [Program.afterUnlock, Program.afterPop]
@[simp] theorem afterConsume_ne_pop (prog : Program) : prog.afterConsume ≠ .pop := by
  cases prog <;> simp [Program.afterConsume]

/-- The threads that `main` notifies first are the producers. -/
def Program.producersFirst : Program → Bool
  | .elements => false
  | .consWork => true

/-- `notify_all` wakes the threads that are blocked. -/
def Local.wake (x : Local) : Local :=
  if x.pc = .blocked then { x with pc := .notified } else x

namespace Queue

/-- The condition of the inner loop, with the bound of the buffer. -/
def MustWait (bound : Nat) (s : Queue p c) : Thread p c → Prop
  | .inl _ => s.buffer.length = bound
  | .inr _ => s.buffer = []

instance (bound : Nat) (s : Queue p c) (k : Thread p c) : Decidable (s.MustWait bound k) := by
  cases k <;> unfold MustWait <;> infer_instance

/-- The thread `k` becomes `x`. -/
def set (s : Queue p c) (k : Thread p c) (x : Local) : Queue p c :=
  { s with threads := Function.update s.threads k x }

def goto (s : Queue p c) (k : Thread p c) (pc : Pc) : Queue p c :=
  s.set k { s.threads k with pc := pc }

/-- `notify_all` on the condition variable of the producers, or of the consumers. -/
def wakeAll (s : Queue p c) (producers : Bool) : Queue p c :=
  { s with threads := fun k => if k.isLeft = producers then (s.threads k).wake else s.threads k }

@[simp] theorem set_threads (s : Queue p c) (k : Thread p c) (x : Local) :
    (s.set k x).threads = Function.update s.threads k x := rfl
@[simp] theorem set_buffer (s : Queue p c) (k : Thread p c) (x : Local) :
    (s.set k x).buffer = s.buffer := rfl
@[simp] theorem goto_threads (s : Queue p c) (k : Thread p c) (pc : Pc) :
    (s.goto k pc).threads = Function.update s.threads k { s.threads k with pc := pc } := rfl
@[simp] theorem goto_buffer (s : Queue p c) (k : Thread p c) (pc : Pc) :
    (s.goto k pc).buffer = s.buffer := rfl

/-- When a step can be taken. -/
def enabled (bound : Nat) (s : Queue p c) : Act p c → Prop
  | .enter k => (s.threads k).pc = .test ∧ s.done = false
  | .leave k => (s.threads k).pc = .test ∧ s.done = true
  | .produce i => (s.threads (.inl i)).pc = .produce
  | .lock k => ((s.threads k).pc = .lock ∨ (s.threads k).pc = .notified) ∧ s.mutex = none
  | .mustWait k => (s.threads k).pc = .guard ∧ s.MustWait bound k
  | .proceed k => (s.threads k).pc = .guard ∧ ¬ s.MustWait bound k
  | .quit k => (s.threads k).pc = .check ∧ s.done = true
  | .stay k => (s.threads k).pc = .check ∧ s.done = false
  | .wait k => (s.threads k).pc = .wait
  | .wakeUp k => (s.threads k).pc = .blocked
  | .emplace i e => s.threads (.inl i) = ⟨.emplace, some e⟩
  | .take j e => (s.threads (.inr j)).pc = .take ∧ s.buffer.getLast? = some e
  | .pop j e => (s.threads (.inr j)).pc = .pop ∧ s.buffer.head? = some e
  | .unlock k => (s.threads k).pc = .unlock
  | .notifyOne k (some w) =>
      (s.threads k).pc = .notify ∧ w.isLeft = !k.isLeft ∧ (s.threads w).pc = .blocked
  | .notifyOne k none =>
      (s.threads k).pc = .notify ∧ ∀ w, w.isLeft = !k.isLeft → (s.threads w).pc ≠ .blocked
  | .consume j => (s.threads (.inr j)).pc = .consume
  | .setDone => s.main = .sleep
  | .notifyFirst => s.main = .notifyFirst
  | .notifySecond => s.main = .notifySecond

/-- What a step does. -/
def next (prog : Program) (s : Queue p c) : Act p c → Queue p c
  | .enter k => s.goto k (afterEnter k)
  | .leave k => s.goto k (prog.afterLoop k)
  | .produce i =>
      { s.set (.inl i) ⟨.lock, some s.numProduced⟩ with numProduced := s.numProduced + 1 }
  | .lock k => { s.goto k .guard with mutex := some k }
  | .mustWait k => s.goto k .check
  | .proceed k => s.goto k (afterGuard k)
  -- `return` releases the mutex
  | .quit k => { s.goto k .returned with mutex := none }
  | .stay k => s.goto k .wait
  | .wait k => { s.goto k .blocked with mutex := none }
  | .wakeUp k => s.goto k .notified
  | .emplace i e => { s.set (.inl i) ⟨.unlock, none⟩ with buffer := s.buffer ++ [e] }
  | .take j e => s.set (.inr j) ⟨.pop, some e⟩
  | .pop j _ => { s.goto (.inr j) .unlock with buffer := s.buffer.tail }
  | .unlock k => { s.goto k (prog.afterUnlock k) with mutex := none }
  | .notifyOne k (some w) => (s.goto k (afterNotify k)).goto w .notified
  | .notifyOne k none => s.goto k (afterNotify k)
  | .consume j =>
      { s.set (.inr j) ⟨prog.afterConsume, none⟩ with numConsumed := s.numConsumed + 1 }
  | .setDone => { s with done := true, main := .notifyFirst }
  | .notifyFirst => { s.wakeAll prog.producersFirst with main := .notifySecond }
  | .notifySecond => { s.wakeAll (!prog.producersFirst) with main := .join }

instance (bound : Nat) (s : Queue p c) (a : Act p c) : Decidable (s.enabled bound a) := by
  cases a with
  | notifyOne k woken => cases woken <;> unfold enabled <;> infer_instance
  | _ => unfold enabled; infer_instance

end Queue

/-- The program with `p` producers and `c` consumers, and any bound for the buffer. -/
def queue (prog : Program) (bound p c : Nat) : Machine (Queue p c) (Act p c) where
  init s := s.buffer = [] ∧ s.done = false ∧ s.mutex = none ∧ s.numProduced = 0 ∧
    s.numConsumed = 0 ∧ (∀ k, s.threads k = ⟨.test, none⟩) ∧ s.main = .sleep
  enabled := Queue.enabled bound
  next := Queue.next prog

instance (prog : Program) (bound : Nat) (s : Queue p c) (a : Act p c) :
    Decidable ((queue prog bound p c).enabled s a) :=
  inferInstanceAs (Decidable (s.enabled bound a))

def Queue.start (p c : Nat) : Queue p c where
  buffer := []
  done := false
  mutex := none
  numProduced := 0
  numConsumed := 0
  threads _ := ⟨.test, none⟩
  main := .sleep

/-- The one producer, or the one consumer, where there is only one. -/
def only : Fin 1 := ⟨0, Nat.one_pos⟩

/-- An iteration of the one producer that finds room, while the consumer is not waiting. -/
def emplaceOne (e : Nat) : List (Act 1 1) :=
  [.enter (.inl only), .produce only, .lock (.inl only), .proceed (.inl only), .emplace only e,
    .unlock (.inl only), .notifyOne (.inl only) none]

theorem Queue.start_init (prog : Program) (bound : Nat) :
    (queue prog bound p c).init (.start p c) :=
  ⟨rfl, rfl, rfl, rfl, rfl, fun _ => rfl, rfl⟩

/-! ## What a step does to a thread -/

/-- The step `a` takes the thread `k` from one local state to another: it is a step of the
thread, or it wakes the thread. -/
inductive Local.Step (prog : Program) : Thread p c → Act p c → Local → Local → Prop
  | enter {k : Thread p c} {el : Option Nat} :
      Step prog k (.enter k) ⟨.test, el⟩ ⟨afterEnter k, el⟩
  | leave {k : Thread p c} {el : Option Nat} :
      Step prog k (.leave k) ⟨.test, el⟩ ⟨prog.afterLoop k, el⟩
  | produce {i : Fin p} {el : Option Nat} {e : Nat} :
      Step prog (.inl i) (.produce i) ⟨.produce, el⟩ ⟨.lock, some e⟩
  | lock {k : Thread p c} {el : Option Nat} : Step prog k (.lock k) ⟨.lock, el⟩ ⟨.guard, el⟩
  | relock {k : Thread p c} {el : Option Nat} :
      Step prog k (.lock k) ⟨.notified, el⟩ ⟨.guard, el⟩
  | mustWait {k : Thread p c} {el : Option Nat} :
      Step prog k (.mustWait k) ⟨.guard, el⟩ ⟨.check, el⟩
  | proceed {k : Thread p c} {el : Option Nat} :
      Step prog k (.proceed k) ⟨.guard, el⟩ ⟨afterGuard k, el⟩
  | quit {k : Thread p c} {el : Option Nat} :
      Step prog k (.quit k) ⟨.check, el⟩ ⟨.returned, el⟩
  | stay {k : Thread p c} {el : Option Nat} : Step prog k (.stay k) ⟨.check, el⟩ ⟨.wait, el⟩
  | wait {k : Thread p c} {el : Option Nat} : Step prog k (.wait k) ⟨.wait, el⟩ ⟨.blocked, el⟩
  | wakeUp {k : Thread p c} {el : Option Nat} :
      Step prog k (.wakeUp k) ⟨.blocked, el⟩ ⟨.notified, el⟩
  | emplace {i : Fin p} {e : Nat} :
      Step prog (.inl i) (.emplace i e) ⟨.emplace, some e⟩ ⟨.unlock, none⟩
  | take {j : Fin c} {el : Option Nat} {e : Nat} :
      Step prog (.inr j) (.take j e) ⟨.take, el⟩ ⟨.pop, some e⟩
  | pop {j : Fin c} {el : Option Nat} {e : Nat} :
      Step prog (.inr j) (.pop j e) ⟨.pop, el⟩ ⟨.unlock, el⟩
  | unlock {k : Thread p c} {el : Option Nat} :
      Step prog k (.unlock k) ⟨.unlock, el⟩ ⟨prog.afterUnlock k, el⟩
  | notify {k : Thread p c} {woken : Option (Thread p c)} {el : Option Nat} :
      Step prog k (.notifyOne k woken) ⟨.notify, el⟩ ⟨afterNotify k, el⟩
  | notified {k w : Thread p c} {el : Option Nat} :
      Step prog w (.notifyOne k (some w)) ⟨.blocked, el⟩ ⟨.notified, el⟩
  | consume {j : Fin c} {el : Option Nat} :
      Step prog (.inr j) (.consume j) ⟨.consume, el⟩ ⟨prog.afterConsume, none⟩
  | notifiedFirst {k : Thread p c} {el : Option Nat} :
      Step prog k .notifyFirst ⟨.blocked, el⟩ ⟨.notified, el⟩
  | notifiedSecond {k : Thread p c} {el : Option Nat} :
      Step prog k .notifySecond ⟨.blocked, el⟩ ⟨.notified, el⟩

theorem Local.eq_of_pc {x : Local} {pc : Pc} (h : x.pc = pc) : x = ⟨pc, x.el⟩ := by
  rw [← h]

namespace Queue

variable {prog : Program} {bound : Nat} {s : Queue p c} {a : Act p c}

theorem pc_of_notifyOne {k : Thread p c} {woken : Option (Thread p c)}
    (he : s.enabled bound (.notifyOne k woken)) : (s.threads k).pc = .notify := by
  cases woken with
  | none => exact he.1
  | some w => exact he.1

theorem step_set {k : Thread p c} {x : Local} (hx : Local.Step prog k a (s.threads k) x)
    (i : Thread p c) :
    (s.set k x).threads i = s.threads i ∨
      Local.Step prog i a (s.threads i) ((s.set k x).threads i) := by
  rw [set_threads, Function.update_apply]
  split
  · next hi => exact .inr (hi ▸ hx)
  · exact .inl rfl

/-- A thread at `pc` goes on to `pc'`. -/
theorem step_goto {k : Thread p c} {pc pc' : Pc} (hpc : (s.threads k).pc = pc)
    (hstep : ∀ el, Local.Step prog k a ⟨pc, el⟩ ⟨pc', el⟩) (i : Thread p c) :
    (s.goto k pc').threads i = s.threads i ∨
      Local.Step prog i a (s.threads i) ((s.goto k pc').threads i) := by
  subst hpc
  exact step_set (hstep _) i

theorem step_wakeAll (hstep : ∀ k el, Local.Step prog k a ⟨.blocked, el⟩ ⟨.notified, el⟩)
    (producers : Bool) (i : Thread p c) :
    (s.wakeAll producers).threads i = s.threads i ∨
      Local.Step prog i a (s.threads i) ((s.wakeAll producers).threads i) := by
  simp only [Queue.wakeAll, Local.wake]
  generalize s.threads i = x
  obtain ⟨pc, el⟩ := x
  split
  · split
    · next hpc =>
      obtain rfl : pc = .blocked := hpc
      exact .inr (hstep i el)
    · exact .inl rfl
  · exact .inl rfl

/-- Every step leaves a thread as it is, or is one of its steps. -/
theorem step_next (he : s.enabled bound a) (i : Thread p c) :
    (s.next prog a).threads i = s.threads i ∨
      Local.Step prog i a (s.threads i) ((s.next prog a).threads i) := by
  cases a with
  | enter k => exact step_goto he.1 (fun _ => .enter) i
  | leave k => exact step_goto he.1 (fun _ => .leave) i
  | produce i' =>
    refine step_set ?_ i
    rw [Local.eq_of_pc he]
    exact .produce
  | lock k =>
    rcases he.1 with hpc | hpc
    · exact step_goto hpc (fun _ => .lock) i
    · exact step_goto hpc (fun _ => .relock) i
  | mustWait k => exact step_goto he.1 (fun _ => .mustWait) i
  | proceed k => exact step_goto he.1 (fun _ => .proceed) i
  | quit k => exact step_goto he.1 (fun _ => .quit) i
  | stay k => exact step_goto he.1 (fun _ => .stay) i
  | wait k => exact step_goto he (fun _ => .wait) i
  | wakeUp k => exact step_goto he (fun _ => .wakeUp) i
  | emplace i' e =>
    refine step_set ?_ i
    rw [show s.threads (.inl i') = _ from he]
    exact .emplace
  | take j e =>
    refine step_set ?_ i
    rw [Local.eq_of_pc he.1]
    exact .take
  | pop j e => exact step_goto he.1 (fun _ => .pop) i
  | unlock k => exact step_goto he (fun _ => .unlock) i
  | notifyOne k woken =>
    have hk := @step_goto _ _ prog s (.notifyOne k woken) k _ (afterNotify k)
      (pc_of_notifyOne he) (fun _ => .notify) i
    cases woken with
    | none => exact hk
    | some w =>
      obtain ⟨-, hside, hblocked⟩ := he
      by_cases hi : i = w
      · subst hi
        right
        simp only [next, goto_threads, Function.update_self, ne_eq, ne_of_other_side hside,
          not_false_eq_true, Function.update_of_ne]
        rw [Local.eq_of_pc hblocked]
        exact .notified
      · simpa [next, hi] using hk
  | consume j =>
    refine step_set ?_ i
    rw [Local.eq_of_pc he]
    exact .consume
  | setDone => exact .inl rfl
  | notifyFirst => exact step_wakeAll (fun _ _ => .notifiedFirst) _ i
  | notifySecond => exact step_wakeAll (fun _ _ => .notifiedSecond) _ i

end Queue

/-! ## What holds in every state -/

/-- The thread holds the mutex. -/
def Local.locks (x : Local) : Bool :=
  match x.pc with
  | .guard | .check | .wait | .emplace | .take | .pop | .unlock => true
  | _ => false

/-- What a thread inside the lock knows of the buffer. -/
def Local.Sees (bound : Nat) (buffer : List Nat) (k : Thread p c) (x : Local) : Prop :=
  match x.pc with
  | .check | .wait => match k with
    | .inl _ => buffer.length = bound
    | .inr _ => buffer = []
  | .emplace => buffer.length < bound
  | .take => buffer ≠ []
  | .pop => buffer ≠ [] ∧ x.el = buffer.getLast?
  | _ => True

/-- Outside the lock a thread knows nothing. -/
theorem Local.sees_of_outside {bound : Nat} {buffer : List Nat} {k : Thread p c} {x : Local}
    (h : x.locks = false) : x.Sees bound buffer k := by
  rcases x with ⟨pc, el⟩
  cases pc <;> trivial

namespace Queue

variable {bound : Nat}

/-- The mutex is held by the thread inside the lock, what that thread has seen of the
buffer is still so, and the buffer keeps to its bound. -/
structure Ok (bound : Nat) (s : Queue p c) : Prop extends
    Guarded Local.locks (fun k x buffer => Local.Sees bound buffer k x) s.mutex s.threads
      s.buffer where
  le_bound : s.buffer.length ≤ bound

/-- The thread `k` stays on its side of the lock. -/
theorem Ok.move {s t : Queue p c} {k : Thread p c} {x : Local} (h : s.Ok bound)
    (ht : t.threads = Function.update s.threads k x) (hb : t.buffer = s.buffer)
    (hm : t.mutex = s.mutex) (hlocks : x.locks = (s.threads k).locks)
    (hsees : x.Sees bound s.buffer k) : t.Ok bound := by
  refine ⟨?_, by rw [hb]; exact h.le_bound⟩
  rw [hm, ht, hb]
  exact h.toGuarded.keep hlocks hsees

theorem Ok.acquire {s t : Queue p c} {k : Thread p c} {x : Local} (h : s.Ok bound)
    (hfree : s.mutex = none) (ht : t.threads = Function.update s.threads k x)
    (hb : t.buffer = s.buffer) (hm : t.mutex = some k) (hlocks : x.locks = true)
    (hsees : x.Sees bound s.buffer k) : t.Ok bound := by
  refine ⟨?_, by rw [hb]; exact h.le_bound⟩
  have hguarded := h.toGuarded
  rw [hfree] at hguarded
  rw [hm, ht, hb]
  exact hguarded.acquire hlocks hsees

theorem Ok.release {s t : Queue p c} {k : Thread p c} {x : Local} (h : s.Ok bound)
    (hk : (s.threads k).locks = true) (ht : t.threads = Function.update s.threads k x)
    (hb : t.buffer = s.buffer) (hm : t.mutex = none) (hlocks : x.locks = false) : t.Ok bound := by
  refine ⟨?_, by rw [hb]; exact h.le_bound⟩
  rw [hm, ht, hb]
  exact h.toGuarded.release hk hlocks (x.sees_of_outside hlocks)

/-- The thread `k` changes the buffer. Nobody else is inside the lock. -/
theorem Ok.change {s t : Queue p c} {k : Thread p c} {x : Local} (h : s.Ok bound)
    (hk : (s.threads k).locks = true) (ht : t.threads = Function.update s.threads k x)
    (hm : t.mutex = s.mutex) (hlocks : x.locks = true) (hsees : x.Sees bound t.buffer k)
    (hle : t.buffer.length ≤ bound) : t.Ok bound := by
  refine ⟨?_, hle⟩
  rw [hm, ht]
  exact h.toGuarded.change hk hlocks (fun _ y hy => y.sees_of_outside hy) hsees

/-- `notify_all`. -/
theorem Ok.wakeAll {s t : Queue p c} {producers : Bool} (h : s.Ok bound)
    (ht : t.threads = (s.wakeAll producers).threads) (hb : t.buffer = s.buffer)
    (hm : t.mutex = s.mutex) : t.Ok bound := by
  have hlocks : ∀ x : Local, x.wake.locks = x.locks := by
    rintro ⟨pc, el⟩
    cases pc <;> rfl
  have hsees : ∀ (k : Thread p c) (x : Local), x.Sees bound s.buffer k →
      x.wake.Sees bound s.buffer k := by
    rintro k ⟨pc, el⟩ hx
    cases pc <;> exact hx
  refine ⟨?_, by rw [hb]; exact h.le_bound⟩
  rw [hm, ht, hb]
  refine h.toGuarded.congr (fun k => ?_) (fun k => ?_) <;> simp only [Queue.wakeAll] <;> split
  · exact hlocks _
  · rfl
  · exact hsees k _ (h.sees k)
  · exact h.sees k

theorem Ok.emplace {prog : Program} {s : Queue p c} {i : Fin p} {e : Nat} (h : s.Ok bound)
    (he : s.enabled bound (.emplace i e)) : (s.next prog (.emplace i e)).Ok bound := by
  replace he : s.threads (.inl i) = ⟨.emplace, some e⟩ := he
  have hlt : s.buffer.length < bound := by
    have hsees := h.sees (.inl i)
    rw [he] at hsees
    exact hsees
  refine h.change (by rw [he]; rfl) rfl rfl rfl trivial ?_
  show (s.buffer ++ [e]).length ≤ bound
  rw [List.length_append]
  exact hlt

theorem Ok.pop {prog : Program} {s : Queue p c} {j : Fin c} {e : Nat} (h : s.Ok bound)
    (he : s.enabled bound (.pop j e)) : (s.next prog (.pop j e)).Ok bound := by
  refine h.change (by simp [Local.locks, he.1]) rfl rfl rfl trivial ?_
  show s.buffer.tail.length ≤ bound
  rw [List.length_tail]
  exact (Nat.sub_le _ _).trans h.le_bound

theorem Ok.next {prog : Program} {s : Queue p c} {a : Act p c} (h : s.Ok bound)
    (he : s.enabled bound a) : (s.next prog a).Ok bound := by
  cases a with
  | enter k =>
    refine h.move rfl rfl rfl ?_ ?_
    · simp only [Local.locks, he.1]
      cases k <;> rfl
    · cases k <;> trivial
  | leave k =>
    refine h.move rfl rfl rfl ?_ ?_
    · simp only [Local.locks, he.1]
      cases k <;> cases prog <;> rfl
    · cases k <;> cases prog <;> trivial
  | produce i =>
    replace he : (s.threads (.inl i)).pc = .produce := he
    exact h.move rfl rfl rfl (by simp [Local.locks, he]) trivial
  | lock k => exact h.acquire he.2 rfl rfl rfl rfl trivial
  | mustWait k =>
    refine h.move rfl rfl rfl (by simp [Local.locks, he.1]) ?_
    cases k with
    | inl i => exact he.2
    | inr j => exact he.2
  | proceed k =>
    refine h.move rfl rfl rfl ?_ ?_
    · simp only [Local.locks, he.1]
      cases k <;> rfl
    · cases k with
      | inl i => exact Nat.lt_of_le_of_ne h.le_bound he.2
      | inr j => exact he.2
  | quit k => exact h.release (by simp [Local.locks, he.1]) rfl rfl rfl rfl
  | stay k =>
    refine h.move rfl rfl rfl (by simp [Local.locks, he.1]) ?_
    have hsees := h.sees k
    simp only [Local.Sees, he.1] at hsees
    exact hsees
  | wait k =>
    replace he : (s.threads k).pc = .wait := he
    exact h.release (by simp [Local.locks, he]) rfl rfl rfl rfl
  | wakeUp k =>
    replace he : (s.threads k).pc = .blocked := he
    exact h.move rfl rfl rfl (by simp [Local.locks, he]) trivial
  | emplace i e => exact h.emplace he
  | take j e =>
    obtain ⟨hpc, hlast⟩ := he
    refine h.move rfl rfl rfl (by simp [Local.locks, hpc]) ⟨?_, hlast.symm⟩
    intro hnil
    rw [hnil] at hlast
    cases hlast
  | pop j e => exact h.pop he
  | unlock k =>
    replace he : (s.threads k).pc = .unlock := he
    refine h.release (by simp [Local.locks, he]) rfl rfl rfl ?_
    cases k <;> cases prog <;> rfl
  | notifyOne k woken =>
    have hk : Queue.Ok bound (s.goto k (afterNotify k)) := by
      have hpc := pc_of_notifyOne he
      refine h.move rfl rfl rfl ?_ ?_
      · simp only [Local.locks, hpc]
        cases k <;> rfl
      · cases k <;> trivial
    cases woken with
    | none => exact hk
    | some w =>
      obtain ⟨-, hside, hpc⟩ := he
      refine hk.move rfl rfl rfl ?_ trivial
      simp [Local.locks, ne_of_other_side hside, hpc]
  | consume j =>
    replace he : (s.threads (.inr j)).pc = .consume := he
    refine h.move rfl rfl rfl ?_ ?_
    · simp only [Local.locks, he]
      cases prog <;> rfl
    · cases prog <;> trivial
  | setDone => exact ⟨h.toGuarded, h.le_bound⟩
  | notifyFirst | notifySecond => exact h.wakeAll rfl rfl rfl

end Queue

theorem ok_inv {prog : Program} {bound : Nat} {s : Queue p c}
    (h : (queue prog bound p c).Reachable s) : s.Ok bound := by
  refine h.induct ?_ fun _ _ _ hs he => hs.next he
  rintro s ⟨hb, -, hm, -, -, ht, -⟩
  refine ⟨⟨?_, ?_⟩, by simp [hb]⟩
  · intro k
    simp [hm, ht k, Local.locks]
  · intro k
    rw [ht k]
    trivial

/-! ## The elements of a run -/

def Act.emplaced : Act p c → Option Nat
  | .emplace _ e => some e
  | _ => none

def Act.taken : Act p c → Option Nat
  | .take _ e => some e
  | _ => none

def Act.popped : Act p c → Option Nat
  | .pop _ e => some e
  | _ => none

/-- The elements that were emplaced, taken with `back` and popped, each in this order. -/
def emplaced (as : List (Act p c)) : List Nat := as.filterMap Act.emplaced

def taken (as : List (Act p c)) : List Nat := as.filterMap Act.taken

def popped (as : List (Act p c)) : List Nat := as.filterMap Act.popped

theorem emplaced_snoc (as : List (Act p c)) (a : Act p c) :
    emplaced (as ++ [a]) = emplaced as ++ a.emplaced.toList :=
  Machine.filterMap_snoc _ as a

theorem taken_snoc (as : List (Act p c)) (a : Act p c) :
    taken (as ++ [a]) = taken as ++ a.taken.toList :=
  Machine.filterMap_snoc _ as a

theorem popped_snoc (as : List (Act p c)) (a : Act p c) :
    popped (as ++ [a]) = popped as ++ a.popped.toList :=
  Machine.filterMap_snoc _ as a

/-- The buffer holds what was emplaced and has not been popped. -/
theorem emplaced_eq {prog : Program} {bound : Nat} {s₀ s : Queue p c} {as : List (Act p c)}
    (h₀ : (queue prog bound p c).init s₀) (h : (queue prog bound p c).Exec s₀ as s) :
    emplaced as = popped as ++ s.buffer := by
  induction h with
  | nil => exact h₀.1.symm
  | @snoc as t a _ he ih =>
    rw [emplaced_snoc, popped_snoc, ih]
    cases a with
    | emplace i e => simp [Act.emplaced, Act.popped, queue, Queue.next]
    | pop j e =>
      obtain ⟨rest, hrest⟩ := List.head?_eq_some_iff.mp he.2
      simp [Act.emplaced, Act.popped, queue, Queue.next, hrest]
    | notifyOne k woken =>
      cases woken <;> simp [Act.emplaced, Act.popped, queue, Queue.next]
    | _ => simp [Act.emplaced, Act.popped, queue, Queue.next, Queue.wakeAll]

end SisProg.Threads
