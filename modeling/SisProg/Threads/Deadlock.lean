import SisProg.Lib.Exchange
import SisProg.Threads.Balance

/-!
# The queue does not deadlock while it runs

Until `done` is set, a conforming run of the program is a run of the abstract exchange
(`exchange_of_reachable`): a thread blocks when its side has nothing to take, emplacing and
popping an element is the act, and the notification is owed from there until
`notify_one`. So not all threads are blocked (`not_all_blocked`).

In `consWork` a consumer that has popped an element calls `notify_one` only after `done` is
set, and it owes the notification until then. As long as it does not come back to the
buffer it is not blocked either, so a run of `consWork` with such consumers only is an
exchange as well.
-/

namespace SisProg.Threads

variable {p c : Nat} {prog : Program} {bound : Nat}

/-- A thread owes a notification from its change of the buffer to `notify_one`; a consumer of
`consWork` takes it along to the test of its loop. -/
def Local.phase (x : Local) : Phase :=
  match x.pc with
  | .blocked => .blocked
  | .unlock | .notify => .owing
  | .test => if x.el = none then .out else .owing
  | _ => .out

namespace Queue

/-- The free slots are the units of the producers, and the elements those of the
consumers. -/
def exchange (bound : Nat) (s : Queue p c) : Exchange (Thread p c) where
  phase k := (s.threads k).phase
  units
    | true => bound - s.buffer.length
    | false => s.buffer.length

/-- The step is one of the exchange, or cannot be seen there. -/
def Refined (bound : Nat) (s t : Queue p c) : Prop :=
  t.exchange bound = s.exchange bound ∨
  ∃ a, (SisProg.exchange Sum.isLeft).enabled (s.exchange bound) a ∧
    t.exchange bound = (SisProg.exchange Sum.isLeft).next (s.exchange bound) a

theorem phase_update (f : Thread p c → Local) (k : Thread p c) (x : Local) :
    (fun i => (Function.update f k x i).phase) =
      Function.update (fun i => (f i).phase) k x.phase := by
  funext i
  simp only [Function.update_apply]
  split <;> rfl

/-- A thread moves on in the same phase. -/
theorem Refined.move {s t : Queue p c} {k : Thread p c} {x : Local}
    (ht : t.threads = Function.update s.threads k x) (hb : t.buffer = s.buffer)
    (hx : x.phase = (s.threads k).phase) : Refined bound s t := by
  refine .inl ?_
  unfold exchange
  rw [ht, hb, phase_update, hx]
  congr 1
  exact Function.update_eq_self k _

theorem Refined.wait {s : Queue p c} {k : Thread p c} (h : s.Ok bound)
    (he : (s.threads k).pc = .wait) : Refined bound s (s.next prog (.wait k)) := by
  refine .inr ⟨.block k, ⟨?_, ?_⟩, ?_⟩
  · simp [exchange, Local.phase, he]
  · have hsees := h.sees k
    simp only [Local.Sees, he] at hsees
    cases k with
    | inl i => exact Nat.sub_eq_zero_of_le hsees.ge
    | inr j => exact List.length_eq_zero_iff.mpr hsees
  · simp only [exchange, SisProg.exchange, Queue.next, goto_threads, phase_update]
    rfl

theorem Refined.wakeUp {s : Queue p c} {k : Thread p c} (he : (s.threads k).pc = .blocked) :
    Refined bound s (s.next prog (.wakeUp k)) := by
  refine .inr ⟨.wake k, ?_, ?_⟩
  · show Local.phase _ = .blocked
    simp [Local.phase, he]
  · simp only [exchange, SisProg.exchange, Queue.next, goto_threads, phase_update]
    rfl

theorem Refined.emplace {s : Queue p c} {i : Fin p} {e : Nat} (h : s.Ok bound)
    (he : s.threads (.inl i) = ⟨.emplace, some e⟩) :
    Refined bound s (s.next prog (.emplace i e)) := by
  have hlt : s.buffer.length < bound := by
    have hsees := h.sees (.inl i)
    rw [he] at hsees
    exact hsees
  refine .inr ⟨.act (.inl i), ⟨?_, Nat.sub_pos_of_lt hlt⟩, ?_⟩
  · simp [exchange, Local.phase, he]
  · simp only [exchange, SisProg.exchange, Queue.next, set_threads, phase_update]
    congr 1
    funext b
    cases b with
    | true =>
      show bound - (s.buffer ++ [e]).length = bound - s.buffer.length - 1
      rw [List.length_append, List.length_singleton, Nat.sub_add_eq]
    | false =>
      show (s.buffer ++ [e]).length = s.buffer.length + 1
      rw [List.length_append, List.length_singleton]

theorem Refined.pop {s : Queue p c} {j : Fin c} {e : Nat} (h : s.Ok bound)
    (he : (s.threads (.inr j)).pc = .pop ∧ s.buffer.head? = some e) :
    Refined bound s (s.next prog (.pop j e)) := by
  obtain ⟨hpc, hhead⟩ := he
  obtain ⟨rest, hrest⟩ := List.head?_eq_some_iff.mp hhead
  have hle := h.le_bound
  rw [hrest, List.length_cons] at hle
  refine .inr ⟨.act (.inr j), ⟨?_, ?_⟩, ?_⟩
  · simp [exchange, Local.phase, hpc]
  · show 0 < s.buffer.length
    rw [hrest]
    exact Nat.succ_pos _
  · simp only [exchange, SisProg.exchange, Queue.next, goto_threads, phase_update, hrest]
    congr 1
    funext b
    cases b with
    | true =>
      show bound - rest.length = bound - (rest.length + 1) + 1
      omega
    | false => rfl

/-- After `notify_one` nothing is owed any more. -/
theorem phase_notified {s : Queue p c} {k : Thread p c} (hh : s.Hands prog)
    (hpc : (s.threads k).pc = .notify) :
    Local.phase { s.threads k with pc := afterNotify k } = .out := by
  cases k with
  | inl i =>
    have hnone : (s.threads (.inl i)).el = none := hh.at hpc
    simp [Local.phase, afterNotify, hnone]
  | inr j => rfl

theorem Refined.notify_none {s : Queue p c} {k : Thread p c} (hh : s.Hands prog)
    (he : s.enabled bound (.notifyOne k none)) :
    Refined bound s (s.next prog (.notifyOne k none)) := by
  obtain ⟨hpc, hnone⟩ := he
  have hout := phase_notified hh hpc
  refine .inr ⟨.signal k none, ⟨?_, ?_⟩, ?_⟩
  · simp [exchange, Local.phase, hpc]
  · intro w hw hblocked
    refine hnone w hw ?_
    have hphase : (s.threads w).phase = .blocked := hblocked
    unfold Local.phase at hphase
    split at hphase
    · assumption
    · cases hphase
    · cases hphase
    · split at hphase <;> cases hphase
    · cases hphase
  · simp only [exchange, SisProg.exchange, Queue.next, goto_threads, phase_update, hout]
    rfl

theorem Refined.notify_some {s : Queue p c} {k w : Thread p c} (hh : s.Hands prog)
    (he : s.enabled bound (.notifyOne k (some w))) :
    Refined bound s (s.next prog (.notifyOne k (some w))) := by
  obtain ⟨hpc, hside, hblocked⟩ := he
  have hout := phase_notified hh hpc
  refine .inr ⟨.signal k (some w), ⟨?_, hside, ?_⟩, ?_⟩
  · simp [exchange, Local.phase, hpc]
  · simp [exchange, Local.phase, hblocked]
  · simp only [exchange, SisProg.exchange, Queue.next, goto_threads, phase_update, hout]
    rfl

theorem Refined.next {s : Queue p c} {a : Act p c} (h : s.Ok bound) (hh : s.Hands prog)
    (he : (conforming prog bound p c).enabled s a) (hmain : s.main = .sleep)
    (hdone : (s.next prog a).done = false) : Refined bound s (s.next prog a) := by
  obtain ⟨he, hconf⟩ := he
  cases a with
  | enter k =>
    refine .move rfl rfl ?_
    cases k with
    | inl i =>
      have hnone : (s.threads (.inl i)).el = none := hh.at he.1
      simp [Local.phase, afterEnter, he.1, hnone]
    | inr j =>
      have hnone : (s.threads (.inr j)).el = none := hconf
      simp [Local.phase, afterEnter, he.1, hnone]
  | leave k =>
    have hdone' : s.done = false := hdone
    rw [he.2] at hdone'
    cases hdone'
  | produce i =>
    replace he : (s.threads (.inl i)).pc = .produce := he
    exact .move rfl rfl (by simp [Local.phase, he])
  | lock k =>
    refine .move (k := k) rfl rfl ?_
    rcases he.1 with hpc | hpc <;> simp [Local.phase, hpc]
  | mustWait k => exact .move rfl rfl (by simp [Local.phase, he.1])
  | proceed k =>
    refine .move rfl rfl ?_
    cases k <;> simp [Local.phase, afterGuard, he.1]
  | quit k =>
    have hdone' : s.done = false := hdone
    rw [he.2] at hdone'
    cases hdone'
  | stay k => exact .move rfl rfl (by simp [Local.phase, he.1])
  | wait k => exact .wait h he
  | wakeUp k => exact .wakeUp he
  | emplace i e => exact .emplace h he
  | take j e => exact .move rfl rfl (by simp [Local.phase, he.1])
  | pop j e => exact .pop h he
  | unlock k =>
    replace he : (s.threads k).pc = .unlock := he
    refine .move (k := k) rfl rfl ?_
    cases k with
    | inl i => simp [Local.phase, Program.afterUnlock, he]
    | inr j =>
      have hsome : (s.threads (.inr j)).el ≠ none := hh.at he
      cases prog <;> simp [Local.phase, Program.afterUnlock, Program.afterPop, he, hsome]
  | notifyOne k woken =>
    cases woken with
    | none => exact .notify_none hh he
    | some w => exact .notify_some hh he
  | consume j =>
    replace he : (s.threads (.inr j)).pc = .consume := he
    refine .move (k := .inr j) rfl rfl ?_
    cases prog <;> simp [Local.phase, Program.afterConsume, he]
  | setDone => cases hdone
  | notifyFirst | notifySecond =>
    have hpc : s.main = _ := he
    rw [hmain] at hpc
    cases hpc

end Queue

/-! ## Until `done` is set -/

theorem main_of_running {s : Queue p c} (h : (queue prog bound p c).Reachable s)
    (hdone : s.done = false) : s.main = .sleep := by
  refine h.induct (P := fun s => s.done = false → s.main = .sleep) ?_ ?_ hdone
  · intro s hs _
    exact hs.2.2.2.2.2.2
  · intro s a _ ih he hd
    cases a with
    | setDone => cases hd
    | notifyFirst | notifySecond =>
      have hpc : s.main = _ := he
      rw [ih hd] at hpc
      cases hpc
    | notifyOne k woken => cases woken <;> exact ih hd
    | _ => exact ih hd

theorem done_of_next {s : Queue p c} {a : Act p c} (h : (s.next prog a).done = false) :
    s.done = false := by
  cases a with
  | setDone => cases h
  | notifyOne k woken => cases woken <;> exact h
  | _ => exact h

/-- Until `done` is set the program is an exchange. -/
theorem exchange_of_reachable {s : Queue p c} (h : (conforming prog bound p c).Reachable s)
    (hdone : s.done = false) : (exchange Sum.isLeft).Reachable (s.exchange bound) := by
  refine h.induct (P := fun s => s.done = false →
    (exchange Sum.isLeft).Reachable (s.exchange bound)) ?_ ?_ hdone
  · rintro s ⟨-, -, -, -, -, ht, -⟩ -
    refine ⟨_, [], fun k => ?_, .nil⟩
    simp [Queue.exchange, ht k, Local.phase]
  · intro s a hs ih he hd
    have hd' := done_of_next hd
    have hreach := hs.of_restrict
    rcases Queue.Refined.next (ok_inv hreach) (hands_inv hs) he (main_of_running hreach hd') hd with
      heq | ⟨b, hb, heq⟩
    · exact heq ▸ ih hd'
    · exact heq ▸ (ih hd').next hb

/-- The thread is blocked in `wait`, and no notification has been delivered to it. -/
def Queue.AllBlocked (s : Queue p c) : Prop := ∀ k, (s.threads k).pc = .blocked

theorem not_all_blocked {s : Queue p c} (h : (conforming prog bound p c).Reachable s)
    (hp : 0 < p) (hc : 0 < c) (hbound : 0 < bound) (hdone : s.done = false) : ¬ s.AllBlocked := by
  intro hall
  have hside : ∀ b, ∃ k : Thread p c, k.isLeft = b := by
    intro b
    cases b with
    | true => exact ⟨.inl ⟨0, hp⟩, rfl⟩
    | false => exact ⟨.inr ⟨0, hc⟩, rfl⟩
  have hunits : 0 < (s.exchange bound).units true + (s.exchange bound).units false := by
    have hle := (ok_inv h.of_restrict).le_bound
    show 0 < bound - s.buffer.length + s.buffer.length
    rwa [Nat.sub_add_cancel hle]
  obtain ⟨k, hk⟩ := exchange_not_all_blocked (exchange_of_reachable h hdone) hside hunits
  exact hk (by simp [Queue.exchange, Local.phase, hall k])

/-- `elements.cpp` does not deadlock before `done` is set. -/
theorem elements_not_all_blocked {s : Queue p c} (h : (queue .elements bound p c).Reachable s)
    (hp : 0 < p) (hc : 0 < c) (hbound : 0 < bound) (hdone : s.done = false) : ¬ s.AllBlocked :=
  not_all_blocked (conforming_elements h) hp hc hbound hdone

/-- The consumer waits, and the producer has just emplaced an element. -/
def consumerWaiting : List (Act 1 1) :=
  [.enter (.inr only), .lock (.inr only), .mustWait (.inr only), .stay (.inr only),
    .wait (.inr only), .enter (.inl only), .produce only, .lock (.inl only), .proceed (.inl only),
    .emplace only 0]

theorem consumerWaiting_runs :
    ((queue .elements MAX 1 1).run (.start 1 1) consumerWaiting).isSome := by
  decide

theorem elements_not_all_blocked_consumerWaiting :
    ¬ (((queue .elements MAX 1 1).run (.start 1 1) consumerWaiting).get
      consumerWaiting_runs).AllBlocked :=
  elements_not_all_blocked
    ((Machine.exec_run_get consumerWaiting_runs).reachable (Queue.start_init .elements MAX))
    (by decide) (by decide) (by decide) (by decide)

end SisProg.Threads
