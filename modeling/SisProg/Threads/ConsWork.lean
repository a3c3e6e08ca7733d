import SisProg.Threads.Deadlock

/-!
# The copy with the other braces

In `cons_work/producer.cpp` the loop of `consumer` ends after `buffer.pop()`, so that
`produceCV.notify_one()` and `consumeElement` come once, when the loop is over. A consumer
goes on popping: each element replaces the one before it, which is never consumed, and no
producer is told that there is room. Once the producers have filled the buffer and wait,
the consumers drain it and wait too (`drained_deadlocks`).

What is left of `elements.cpp` is `consWork_conforming`: the queue does not deadlock and no
element is lost as long as no consumer comes back to the buffer with an element, and none
leaves its loop without one.
-/

namespace SisProg.Threads

variable {p c : Nat} {bound : Nat}

/-- What was popped was consumed, or is held by the consumer that has popped it, which
holds at most one element. -/
def ConsumersAccounted (as : List (Act p c)) (s : Queue p c) : Prop :=
  s.numConsumed + s.held false = (popped as).length ∧ ∀ k, (s.threads k).held k ≤ 1

/-- In a conforming run of `consWork` not all threads are ever blocked before `done` is
set, and the popped elements are accounted for. -/
theorem consWork_conforming {s₀ s : Queue p c} {as : List (Act p c)}
    (h₀ : (queue .consWork bound p c).init s₀)
    (h : (conforming .consWork bound p c).Exec s₀ as s) (hp : 0 < p) (hc : 0 < c)
    (hbound : 0 < bound) :
    (s.done = false → ¬ s.AllBlocked) ∧ ConsumersAccounted as s :=
  ⟨not_all_blocked ⟨s₀, as, h₀, h⟩ hp hc hbound, (accounted_inv h₀ h).popped.symm,
    fun k => Local.held_le_one k _⟩

/-- One element goes through the buffer, and `done` is set. -/
def oneElement : List (Act 1 1) :=
  emplaceOne 0 ++ [.enter (.inr only), .lock (.inr only), .proceed (.inr only), .take only 0,
    .pop only 0, .unlock (.inr only), .setDone, .leave (.inr only), .notifyOne (.inr only) none,
    .consume only]

instance (prog : Program) (s : Queue p c) (a : Act p c) : Decidable (Conforms prog s a) := by
  rcases a with (_ | _) | (_ | _) | _ | _ | _ | _ | _ | _ | _ | _ | _ | _ | _ | _ | _ | _ | _ | _ | _
    <;> unfold Conforms <;> infer_instance

instance (prog : Program) (s : Queue p c) (a : Act p c) :
    Decidable ((conforming prog bound p c).enabled s a) :=
  inferInstanceAs (Decidable (s.enabled bound a ∧ Conforms prog s a))

theorem oneElement_runs :
    ((conforming .consWork MAX 1 1).run (.start 1 1) oneElement).isSome := by
  decide

theorem consWork_conforming_oneElement :
    ConsumersAccounted oneElement
      (((conforming .consWork MAX 1 1).run (.start 1 1) oneElement).get oneElement_runs) :=
  (consWork_conforming (Queue.start_init .consWork MAX) (Machine.exec_run_get oneElement_runs)
    (by decide) (by decide) (by decide)).2

/-- The producer waits for room. -/
def producerWaits : List (Act 1 1) :=
  [.enter (.inl only), .produce only, .lock (.inl only), .mustWait (.inl only), .stay (.inl only),
    .wait (.inl only)]

/-- The consumer takes everything, and waits for more. -/
def drain : List (Act 1 1) :=
  (List.range MAX).flatMap fun e =>
    [.enter (.inr only), .lock (.inr only), .proceed (.inr only), .take only (MAX - 1),
      .pop only e, .unlock (.inr only)]

def consumerWaits : List (Act 1 1) :=
  [.enter (.inr only), .lock (.inr only), .mustWait (.inr only), .stay (.inr only),
    .wait (.inr only)]

def fillAndDrain : List (Act 1 1) := fill ++ producerWaits ++ drain ++ consumerWaits

theorem fillAndDrain_runs :
    ((queue .consWork MAX 1 1).run (.start 1 1) fillAndDrain).isSome := by
  decide

instance (s : Queue p c) : Decidable s.AllBlocked :=
  inferInstanceAs (Decidable (∀ _, _))

theorem drained_deadlocks :
    ∃ s, (queue .consWork MAX 1 1).Exec (.start 1 1) fillAndDrain s ∧ s.done = false ∧
      s.AllBlocked ∧ ¬ ConsumersAccounted fillAndDrain s :=
  ⟨_, Machine.exec_run_get fillAndDrain_runs, by decide, by decide, fun h => absurd h.1 (by decide)⟩

end SisProg.Threads
