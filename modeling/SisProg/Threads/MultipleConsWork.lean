import Mathlib.Data.Fintype.Sum
import SisProg.Lib.Machine
import SisProg.Lib.Threads

/-!
# Two producers and several consumers

`producer_task`, `consumer_task` and `main` of `multiple_cons_work.cpp`, with any value of
`total_items_to_produce`, any bound for the buffer and `c` consumers, in any interleaving.
A step is one access to shared state. A thread that is blocked in `wait` may wake up
without a notification.

All threads exist at the start: one that `main` has not created yet is one that has not
taken a step. `main` puts the consumers into the vector of the producers too, as the code
does.

`ok_inv`: the mutex is held by the thread inside, the buffer keeps to its bound, `front` is
never called on an empty queue, and nobody sets `producer_finished`.
-/

namespace SisProg.Threads.MultipleConsWork

/-- Where a thread is.

* `test`: about to evaluate `i < items_per_producer`, and to call `fetch_add` if so;
* `giveBack`: about to call `fetch_sub` and to break;
* `lock`: about to construct the `unique_lock`;
* `guard`: holds the mutex in `wait`, about to evaluate the predicate;
* `wait`: it was false, about to release the mutex and to block;
* `blocked`: not notified;
* `notified`: woken, about to lock the mutex again;
* `push`: about to call `buffer.push`;
* `check`: about to evaluate the condition of the `break` in `consumer_task`;
* `pop`: about to call `buffer.front` and `buffer.pop`;
* `unlock`: about to release the mutex;
* `notify`: about to call `notify_one`;
* `returned`: the function has returned. -/
inductive Pc
  | test
  | giveBack
  | lock
  | guard
  | wait
  | blocked
  | notified
  | push
  | check
  | pop
  | unlock
  | notify
  | returned
deriving DecidableEq

/-- A thread, with `i` and `item_to_produce` of a producer, or `data` of a consumer. -/
structure Local where
  pc : Pc
  i : Nat
  item : Nat
deriving DecidableEq

/-- The producers, with the ids 1 and 2. -/
inductive Producer
  | one
  | two
deriving DecidableEq

instance : Fintype Producer := ⟨{.one, .two}, fun i => by cases i <;> decide⟩

/-- Producers and consumers. -/
abbrev Thread (c : Nat) := Producer ⊕ Fin c

/-- `main` joins the threads of one vector, notifies both sides and joins the threads of
the other one. -/
inductive Main (c : Nat)
  | joinProducers (rest : List (Thread c))
  | notifyProducers
  | joinConsumers (rest : List (Thread c))
  | returned
deriving DecidableEq

structure Queue (c : Nat) where
  buffer : List Nat
  mutex : Option (Thread c)
  producerFinished : Bool
  itemsProducedCount : Nat
  threads : Thread c → Local
  main : Main c

/-- The steps. One that handles an item carries its number. -/
inductive Act (c : Nat)
  | reserve (i : Producer) (n : Nat)
  | finish (i : Producer)
  | giveBack (i : Producer)
  | lock (k : Thread c)
  | mustWait (k : Thread c)
  | proceed (k : Thread c)
  | wait (k : Thread c)
  | wakeUp (k : Thread c)
  | push (i : Producer) (n : Nat)
  | quit (j : Fin c)
  | stay (j : Fin c)
  | pop (j : Fin c) (n : Nat)
  | unlock (k : Thread c)
  | notifyOne (k : Thread c) (woken : Option (Thread c))
  | main
deriving DecidableEq

/-- `items_per_producer`, with `N` for `total_items_to_produce`. -/
def itemsPerProducer (N : Nat) : Producer → Nat
  | .one => N - N / 2
  | .two => N / 2

variable {c : Nat}

/-- The two vectors of `main`. -/
def producers (c : Nat) : List (Thread c) :=
  [.inl .one, .inl .two] ++ (List.finRange c).map .inr

def consumers (c : Nat) : List (Thread c) := []

/-- The statement behind `wait`. -/
def afterWait : Thread c → Pc
  | .inl _ => .push
  | .inr _ => .check

/-- The next iteration of the loop. -/
def Local.again : Thread c → Local → Local
  | .inl _, x => { x with pc := .test, i := x.i + 1 }
  | .inr _, x => { x with pc := .lock }

/-- `notify_all` wakes the threads that are blocked. -/
def Local.wake (x : Local) : Local :=
  if x.pc = .blocked then { x with pc := .notified } else x

namespace Queue

/-- The predicates of the two waits. -/
def Ready (bound : Nat) (s : Queue c) : Thread c → Prop
  | .inl _ => s.buffer.length < bound
  | .inr _ => s.buffer ≠ [] ∨ s.producerFinished = true

instance (bound : Nat) (s : Queue c) (k : Thread c) : Decidable (s.Ready bound k) := by
  cases k <;> unfold Ready <;> infer_instance

/-- The thread `k` becomes `x`. -/
def set (s : Queue c) (k : Thread c) (x : Local) : Queue c :=
  { s with threads := Function.update s.threads k x }

def goto (s : Queue c) (k : Thread c) (pc : Pc) : Queue c :=
  s.set k { s.threads k with pc := pc }

/-- `notify_all` on the condition variable of the producers, or of the consumers. -/
def wakeAll (s : Queue c) (producers : Bool) : Queue c :=
  { s with threads := fun k => if k.isLeft = producers then (s.threads k).wake else s.threads k }

/-- `main` can go on: the thread that it joins has returned. -/
def MainReady (s : Queue c) : Prop :=
  match s.main with
  | .joinProducers (k :: _) | .joinConsumers (k :: _) => (s.threads k).pc = .returned
  | .joinProducers [] | .joinConsumers [] | .notifyProducers => True
  | .returned => False

def mainNext (s : Queue c) : Queue c :=
  match s.main with
  | .joinProducers (_ :: rest) => { s with main := .joinProducers rest }
  | .joinProducers [] => { s.wakeAll false with main := .notifyProducers }
  | .notifyProducers => { s.wakeAll true with main := .joinConsumers (consumers c) }
  | .joinConsumers (_ :: rest) => { s with main := .joinConsumers rest }
  | .joinConsumers [] => { s with main := .returned }
  | .returned => s

instance (s : Queue c) : Decidable s.MainReady := by
  unfold MainReady
  split <;> infer_instance

/-- When a step can be taken. -/
def enabled (N bound : Nat) (s : Queue c) : Act c → Prop
  | .reserve i n => (s.threads (.inl i)).pc = .test ∧
      (s.threads (.inl i)).i < itemsPerProducer N i ∧ n = s.itemsProducedCount
  | .finish i => (s.threads (.inl i)).pc = .test ∧
      ¬ (s.threads (.inl i)).i < itemsPerProducer N i
  | .giveBack i => (s.threads (.inl i)).pc = .giveBack
  | .lock k => ((s.threads k).pc = .lock ∨ (s.threads k).pc = .notified) ∧ s.mutex = none
  | .mustWait k => (s.threads k).pc = .guard ∧ ¬ s.Ready bound k
  | .proceed k => (s.threads k).pc = .guard ∧ s.Ready bound k
  | .wait k => (s.threads k).pc = .wait
  | .wakeUp k => (s.threads k).pc = .blocked
  | .push i n => (s.threads (.inl i)).pc = .push ∧ (s.threads (.inl i)).item = n
  | .quit j => (s.threads (.inr j)).pc = .check ∧ s.buffer = [] ∧ s.producerFinished = true
  | .stay j => (s.threads (.inr j)).pc = .check ∧ ¬ (s.buffer = [] ∧ s.producerFinished = true)
  | .pop j n => (s.threads (.inr j)).pc = .pop ∧ s.buffer.head? = some n
  | .unlock k => (s.threads k).pc = .unlock
  | .notifyOne k (some w) =>
      (s.threads k).pc = .notify ∧ w.isLeft = !k.isLeft ∧ (s.threads w).pc = .blocked
  | .notifyOne k none =>
      (s.threads k).pc = .notify ∧ ∀ w, w.isLeft = !k.isLeft → (s.threads w).pc ≠ .blocked
  | .main => s.MainReady

/-- What a step does. -/
def next (N : Nat) (s : Queue c) : Act c → Queue c
  | .reserve i n =>
      { s.set (.inl i) ⟨if N ≤ n then .giveBack else .lock, (s.threads (.inl i)).i, n⟩ with
        itemsProducedCount := s.itemsProducedCount + 1 }
  | .finish i => s.goto (.inl i) .returned
  | .giveBack i =>
      { s.goto (.inl i) .returned with itemsProducedCount := s.itemsProducedCount - 1 }
  | .lock k => { s.goto k .guard with mutex := some k }
  | .mustWait k => s.goto k .wait
  | .proceed k => s.goto k (afterWait k)
  | .wait k => { s.goto k .blocked with mutex := none }
  | .wakeUp k => s.goto k .notified
  | .push i n => { s.goto (.inl i) .unlock with buffer := s.buffer ++ [n] }
  -- `break` releases the mutex
  | .quit j => { s.goto (.inr j) .returned with mutex := none }
  | .stay j => s.goto (.inr j) .pop
  | .pop j n =>
      { s.set (.inr j) ⟨.unlock, (s.threads (.inr j)).i, n⟩ with buffer := s.buffer.tail }
  | .unlock k => { s.goto k .notify with mutex := none }
  | .notifyOne k (some w) => (s.set k ((s.threads k).again k)).goto w .notified
  | .notifyOne k none => s.set k ((s.threads k).again k)
  | .main => s.mainNext

instance (N bound : Nat) (s : Queue c) (a : Act c) : Decidable (s.enabled N bound a) := by
  cases a with
  | notifyOne k woken => cases woken <;> unfold enabled <;> infer_instance
  | _ => unfold enabled; infer_instance

/-- A producer begins with its loop, a consumer takes the mutex first. -/
def start (c : Nat) : Queue c where
  buffer := []
  mutex := none
  producerFinished := false
  itemsProducedCount := 0
  threads
    | .inl _ => ⟨.test, 0, 0⟩
    | .inr _ => ⟨.lock, 0, 0⟩
  main := .joinProducers (producers c)

end Queue

def queue (N bound c : Nat) : Machine (Queue c) (Act c) where
  init s := s = .start c
  enabled := Queue.enabled N bound
  next := Queue.next N

instance (N bound : Nat) (s : Queue c) (a : Act c) : Decidable ((queue N bound c).enabled s a) :=
  inferInstanceAs (Decidable (s.enabled N bound a))

/-! ## What holds in every state -/

/-- The thread holds the mutex. -/
def Local.locks (x : Local) : Bool :=
  match x.pc with
  | .guard | .wait | .push | .check | .pop | .unlock => true
  | _ => false

/-- What a thread inside the lock knows of the buffer. -/
def Local.Sees (bound : Nat) (buffer : List Nat) (x : Local) : Prop :=
  match x.pc with
  | .push => buffer.length < bound
  | .check | .pop => buffer ≠ []
  | _ => True

/-- Outside the lock a thread knows nothing. -/
theorem Local.sees_of_outside {bound : Nat} {buffer : List Nat} {x : Local}
    (h : x.locks = false) : x.Sees bound buffer := by
  rcases x with ⟨pc, i, item⟩
  cases pc <;> trivial

namespace Queue

variable {N bound : Nat} {s : Queue c}

@[simp] theorem set_threads (s : Queue c) (k : Thread c) (x : Local) :
    (s.set k x).threads = Function.update s.threads k x := rfl
@[simp] theorem set_buffer (s : Queue c) (k : Thread c) (x : Local) :
    (s.set k x).buffer = s.buffer := rfl
@[simp] theorem goto_threads (s : Queue c) (k : Thread c) (pc : Pc) :
    (s.goto k pc).threads = Function.update s.threads k { s.threads k with pc := pc } := rfl
@[simp] theorem goto_buffer (s : Queue c) (k : Thread c) (pc : Pc) :
    (s.goto k pc).buffer = s.buffer := rfl

/-- The steps of `main` change neither the counter nor the buffer nor the flag. -/
theorem mainNext_cases (s : Queue c) :
    ∃ m, s.mainNext = { s with main := m } ∨
      ∃ b, s.mainNext = { s.wakeAll b with main := m } := by
  unfold mainNext
  split
  · exact ⟨_, .inl rfl⟩
  · exact ⟨_, .inr ⟨false, rfl⟩⟩
  · exact ⟨_, .inr ⟨true, rfl⟩⟩
  · exact ⟨_, .inl rfl⟩
  · exact ⟨_, .inl rfl⟩
  · exact ⟨_, .inl rfl⟩

/-- The mutex is held by the thread inside the lock, what that thread has seen of the
buffer is still so, the buffer keeps to its bound, and nobody sets the flag. -/
structure Ok (bound : Nat) (s : Queue c) : Prop extends
    Guarded Local.locks (fun _ x buffer => Local.Sees bound buffer x) s.mutex s.threads
      s.buffer where
  le_bound : s.buffer.length ≤ bound
  not_finished : s.producerFinished = false

/-- The thread `k` stays on its side of the lock. -/
theorem Ok.move {k : Thread c} {x : Local} (h : s.Ok bound)
    (hlocks : x.locks = (s.threads k).locks) (hsees : x.Sees bound s.buffer) :
    (s.set k x).Ok bound :=
  ⟨h.toGuarded.keep hlocks hsees, h.le_bound, h.not_finished⟩

theorem Ok.release {k : Thread c} {x : Local} (h : s.Ok bound)
    (hk : (s.threads k).locks = true) (hlocks : x.locks = false) :
    Queue.Ok bound { s.set k x with mutex := none } :=
  ⟨h.toGuarded.release hk hlocks (x.sees_of_outside hlocks), h.le_bound, h.not_finished⟩

/-- The thread `k` changes the buffer. Nobody else is inside the lock. -/
theorem Ok.change {k : Thread c} {x : Local} {buffer : List Nat} (h : s.Ok bound)
    (hk : (s.threads k).locks = true) (hx : x.pc = .unlock) (hle : buffer.length ≤ bound) :
    Queue.Ok bound { s.set k x with buffer := buffer } :=
  ⟨h.toGuarded.change hk (by simp [Local.locks, hx]) (fun _ y hy => y.sees_of_outside hy)
    (by simp [Local.Sees, hx]), hle, h.not_finished⟩

/-- `notify_all`. -/
theorem Ok.wakeAll (h : s.Ok bound) (b : Bool) : (s.wakeAll b).Ok bound := by
  have hlocks : ∀ x : Local, x.wake.locks = x.locks := by
    rintro ⟨pc, i, item⟩
    cases pc <;> rfl
  have hsees : ∀ x : Local, x.Sees bound s.buffer → x.wake.Sees bound s.buffer := by
    rintro ⟨pc, i, item⟩ hx
    cases pc <;> exact hx
  refine ⟨h.toGuarded.congr (fun k => ?_) (fun k => ?_), h.le_bound, h.not_finished⟩ <;>
    simp only [Queue.wakeAll] <;> split
  · exact hlocks _
  · rfl
  · exact hsees _ (h.sees k)
  · exact h.sees k

theorem Ok.push {i : Producer} {n : Nat} (h : s.Ok bound)
    (he : (s.threads (.inl i)).pc = .push) : (s.next N (.push i n)).Ok bound := by
  have hlt : s.buffer.length < bound := by
    have hsees := h.sees (.inl i)
    simp only [Local.Sees, he] at hsees
    exact hsees
  refine h.change (by simp [Local.locks, he]) rfl ?_
  rw [List.length_append]
  exact hlt

theorem Ok.notifyOne {k : Thread c} {woken : Option (Thread c)} (h : s.Ok bound)
    (he : s.enabled N bound (.notifyOne k woken)) : (s.next N (.notifyOne k woken)).Ok bound := by
  have hpc : (s.threads k).pc = .notify := by
    cases woken with
    | none => exact he.1
    | some w => exact he.1
  have hk : Queue.Ok bound (s.set k ((s.threads k).again k)) := by
    refine h.move ?_ ?_
    · cases k <;> simp [Local.again, Local.locks, hpc]
    · cases k <;> trivial
  cases woken with
  | none => exact hk
  | some w =>
    obtain ⟨-, hside, hblocked⟩ := he
    refine hk.move ?_ trivial
    simp [Local.locks, ne_of_other_side hside, hblocked]

theorem Ok.next {a : Act c} (h : s.Ok bound) (he : s.enabled N bound a) :
    (s.next N a).Ok bound := by
  cases a with
  | reserve i n =>
    have hx := h.move (k := .inl i) (x := ⟨if N ≤ n then .giveBack else .lock,
      (s.threads (.inl i)).i, n⟩) (by split <;> simp [Local.locks, he.1]) (by split <;> trivial)
    exact ⟨hx.toGuarded, hx.le_bound, hx.not_finished⟩
  | finish i => exact h.move (by simp [Local.locks, he.1]) trivial
  | giveBack i =>
    replace he : (s.threads (.inl i)).pc = .giveBack := he
    have hx := h.move (k := .inl i) (x := { s.threads (.inl i) with pc := .returned })
      (by simp [Local.locks, he]) trivial
    exact ⟨hx.toGuarded, hx.le_bound, hx.not_finished⟩
  | lock k =>
    have hguarded := h.toGuarded
    rw [he.2] at hguarded
    exact ⟨hguarded.acquire rfl trivial, h.le_bound, h.not_finished⟩
  | mustWait k => exact h.move (by simp [Local.locks, he.1]) trivial
  | proceed k =>
    refine h.move ?_ ?_
    · cases k <;> simp [afterWait, Local.locks, he.1]
    · cases k with
      | inl i => exact he.2
      | inr j => exact he.2.resolve_right (by simp [h.not_finished])
  | wait k =>
    replace he : (s.threads k).pc = .wait := he
    exact h.release (by simp [Local.locks, he]) rfl
  | wakeUp k =>
    replace he : (s.threads k).pc = .blocked := he
    exact h.move (by simp [Local.locks, he]) trivial
  | push i n => exact h.push he.1
  | quit j => exact h.release (by simp [Local.locks, he.1]) rfl
  | stay j =>
    refine h.move (by simp [Local.locks, he.1]) ?_
    have hsees := h.sees (.inr j)
    simp only [Local.Sees, he.1] at hsees
    exact hsees
  | pop j n =>
    refine h.change (by simp [Local.locks, he.1]) rfl ?_
    rw [List.length_tail]
    exact (Nat.sub_le _ _).trans h.le_bound
  | unlock k =>
    replace he : (s.threads k).pc = .unlock := he
    exact h.release (by simp [Local.locks, he]) rfl
  | notifyOne k woken => exact h.notifyOne he
  | main =>
    obtain ⟨m, hm | ⟨b, hm⟩⟩ := s.mainNext_cases
    · rw [Queue.next, hm]
      exact ⟨h.toGuarded, h.le_bound, h.not_finished⟩
    · rw [Queue.next, hm]
      exact ⟨(h.wakeAll b).toGuarded, h.le_bound, h.not_finished⟩

end Queue

theorem ok_inv {N bound : Nat} {s : Queue c} (h : (queue N bound c).Reachable s) : s.Ok bound := by
  refine h.induct ?_ fun _ _ _ hs he => hs.next he
  rintro s rfl
  refine ⟨⟨?_, ?_⟩, Nat.zero_le _, rfl⟩
  · rintro (i | j) <;> simp [Queue.start, Local.locks]
  · rintro (i | j) <;> trivial

end SisProg.Threads.MultipleConsWork
