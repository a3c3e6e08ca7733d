import Mathlib.Algebra.Order.BigOperators.Group.Finset
import Mathlib.Data.Fintype.BigOperators
import SisProg.Lib.Tickets
import SisProg.Threads.MultipleConsWork

/-!
# Each item is delivered once

The producers of `multiple_cons_work.cpp` draw the numbers of their items from an atomic
counter, outside the lock, and push them later, under it. What one has reserved is where
its loop is (`Local.reserved`), and the counter is the sum over both (`Queue.Progress`).
The two loops add up to `total_items_to_produce`, so the counter never passes it and
`fetch_sub` is never called. The rest is that of numbers drawn from a counter
(`ticketing`).

`delivered_once`: the numbers reserved are distinct and below `total_items_to_produce`,
each is pushed at most once, the items are consumed in the order in which they were
pushed, none twice, and when both producers have finished the items pushed are all numbers
below `total_items_to_produce`.
-/

namespace SisProg.Threads.MultipleConsWork

variable {c N bound : Nat}

/-! ## The counter -/

/-- The thread is in the body of its loop. -/
def Pc.inBody : Pc → Bool
  | .test | .giveBack | .returned => false
  | _ => true

/-- How many numbers a producer has reserved. -/
def Local.reserved : Thread c → Local → Nat
  | .inl _, x => if x.pc.inBody then x.i + 1 else x.i
  | .inr _, _ => 0

/-- How many it reserves in all. -/
def quota (N : Nat) : Thread c → Nat
  | .inl i => itemsPerProducer N i
  | .inr _ => 0

theorem sum_quota (N : Nat) : ∑ k : Thread c, quota N k = N := by
  have hsum : ∑ i, itemsPerProducer N i = N - N / 2 + N / 2 := Finset.sum_pair nofun
  rw [Fintype.sum_sum_type]
  simp only [quota, Finset.sum_const_zero, Nat.add_zero]
  rw [hsum, Nat.sub_add_cancel (Nat.div_le_self N 2)]

/-- The loop variable of a producer keeps to its bound, and the producer gives no number
back. -/
def Local.OnTrack (N : Nat) : Thread c → Local → Prop
  | .inl i, x => match x.pc with
    | .test => x.i ≤ itemsPerProducer N i
    | .giveBack => False
    | .returned => x.i = itemsPerProducer N i
    | _ => x.i < itemsPerProducer N i
  | .inr _, _ => True

theorem Local.onTrack_of_inBody {i : Producer} {x : Local} (h : x.pc.inBody = true) :
    x.OnTrack N (.inl i : Thread c) ↔ x.i < itemsPerProducer N i := by
  rcases x with ⟨pc, i', item⟩
  cases pc <;> first | rfl | cases h

theorem Local.reserved_le {k : Thread c} {x : Local} (h : x.OnTrack N k) :
    x.reserved k ≤ quota N k := by
  cases k with
  | inr j => exact Nat.le_refl 0
  | inl i =>
    simp only [Local.reserved, quota]
    split
    · next hbody => exact (Local.onTrack_of_inBody hbody).mp h
    · next hbody =>
      rcases x with ⟨pc, i', item⟩
      cases pc with
      | test => exact h
      | giveBack => exact h.elim
      | returned => exact h.le
      | _ => exact absurd rfl hbody

namespace Queue

variable {s t : Queue c}

def reserved (s : Queue c) : Nat := ∑ k, (s.threads k).reserved k

/-- The counter is what the producers have reserved. -/
structure Progress (N : Nat) (s : Queue c) : Prop where
  onTrack : ∀ k, (s.threads k).OnTrack N k
  count_eq : s.itemsProducedCount = s.reserved

theorem onTrack_update {k : Thread c} {x : Local} (h : s.Progress N) (hx : x.OnTrack N k)
    (i : Thread c) : (Function.update s.threads k x i).OnTrack N i := by
  rw [Function.update_apply]
  split
  · next hi => rw [hi]; exact hx
  · exact h.onTrack i

theorem reserved_set (s : Queue c) (k : Thread c) (x : Local) :
    (s.set k x).reserved + (s.threads k).reserved k = s.reserved + x.reserved k :=
  sum_update_add_of_index (fun k x => Local.reserved k x) s.threads k x

/-- A step that reserves no number and does not end an iteration. -/
theorem Progress.keep {k : Thread c} {x : Local} (h : s.Progress N)
    (ht : t.threads = Function.update s.threads k x)
    (hc : t.itemsProducedCount = s.itemsProducedCount) (hx : x.OnTrack N k)
    (hr : x.reserved k = (s.threads k).reserved k) : t.Progress N := by
  refine ⟨fun i => by rw [ht]; exact onTrack_update h hx i, ?_⟩
  have hsum := s.reserved_set k x
  rw [hr] at hsum
  have hreserved : t.reserved = (s.set k x).reserved := by rw [reserved, ht]; rfl
  rw [hc, h.count_eq, hreserved, Nat.add_right_cancel hsum]

/-- A step from one place of the body to another. -/
theorem Progress.goto {k : Thread c} {x : Local} (h : s.Progress N)
    (ht : t.threads = Function.update s.threads k x)
    (hc : t.itemsProducedCount = s.itemsProducedCount) (hi : x.i = (s.threads k).i)
    (hpc : (s.threads k).pc.inBody = true) (hx : x.pc.inBody = true) : t.Progress N := by
  refine h.keep ht hc ?_ ?_
  · cases k with
    | inr j => trivial
    | inl i =>
      rw [Local.onTrack_of_inBody hx, hi]
      exact (Local.onTrack_of_inBody hpc).mp (h.onTrack (.inl i))
  · cases k with
    | inr j => rfl
    | inl i => simp only [Local.reserved, hpc, hx, hi]

theorem Progress.count_le (h : s.Progress N) : s.itemsProducedCount ≤ N := by
  rw [h.count_eq]
  calc s.reserved ≤ ∑ k : Thread c, quota N k :=
        Finset.sum_le_sum fun k _ => Local.reserved_le (h.onTrack k)
    _ = N := sum_quota N

/-- A producer that reserves a number gets one below `N`. -/
theorem Progress.count_lt {i : Producer} (h : s.Progress N) (hpc : (s.threads (.inl i)).pc = .test)
    (hi : (s.threads (.inl i)).i < itemsPerProducer N i) : s.itemsProducedCount < N := by
  rw [h.count_eq]
  calc s.reserved < ∑ k : Thread c, quota N k := ?_
    _ = N := sum_quota N
  refine Finset.sum_lt_sum (fun k _ => Local.reserved_le (h.onTrack k)) ⟨.inl i, ?_⟩
  exact ⟨Finset.mem_univ _, by simpa [Local.reserved, hpc, Pc.inBody, quota] using hi⟩

theorem Progress.reserve {i : Producer} (h : s.Progress N)
    (hpc : (s.threads (.inl i)).pc = .test)
    (hi : (s.threads (.inl i)).i < itemsPerProducer N i) :
    (s.next N (.reserve i s.itemsProducedCount)).Progress N := by
  have hlt := h.count_lt hpc hi
  have hsum := s.reserved_set (.inl i)
    ⟨.lock, (s.threads (.inl i)).i, s.itemsProducedCount⟩
  simp only [Local.reserved, hpc, Pc.inBody, Bool.false_eq_true, if_false, if_true] at hsum
  rw [Queue.next, if_neg (Nat.not_le.mpr hlt)]
  refine ⟨onTrack_update h (show Local.OnTrack N _ _ from hi), ?_⟩
  have hcount := h.count_eq
  show s.itemsProducedCount + 1 = (s.set (.inl i) _).reserved
  omega

/-- `fetch_sub` is never called. -/
theorem Progress.not_giveBack {i : Producer} (h : s.Progress N) :
    (s.threads (.inl i)).pc ≠ .giveBack := by
  intro hpc
  have hi := h.onTrack (.inl i)
  simp only [Local.OnTrack, hpc] at hi

theorem Progress.again {k : Thread c} (h : s.Progress N) (hpc : (s.threads k).pc = .notify) :
    Queue.Progress N (s.set k ((s.threads k).again k)) := by
  refine h.keep rfl rfl ?_ ?_
  · cases k with
    | inr j => trivial
    | inl i =>
      exact (Local.onTrack_of_inBody (by simp [hpc, Pc.inBody])).mp (h.onTrack (.inl i))
  · cases k with
    | inr j => rfl
    | inl i => simp [Local.reserved, Local.again, hpc, Pc.inBody]

theorem Progress.wakeAll (h : s.Progress N) (b : Bool) : (s.wakeAll b).Progress N := by
  have hwake : ∀ (k : Thread c) (x : Local), x.OnTrack N k →
      x.wake.OnTrack N k ∧ x.wake.reserved k = x.reserved k := by
    rintro (i | j) ⟨pc, i', item⟩ hx
    · cases pc <;> exact ⟨hx, rfl⟩
    · exact ⟨trivial, rfl⟩
  refine ⟨fun k => ?_, ?_⟩
  · simp only [Queue.wakeAll]
    split
    · exact (hwake k _ (h.onTrack k)).1
    · exact h.onTrack k
  · show s.itemsProducedCount = _
    rw [h.count_eq]
    refine (Finset.sum_congr rfl fun k _ => ?_).symm
    simp only [Queue.wakeAll]
    split
    · exact (hwake k _ (h.onTrack k)).2
    · rfl

theorem Progress.next {a : Act c} (h : s.Progress N) (hok : s.Ok bound)
    (he : s.enabled N bound a) : (s.next N a).Progress N := by
  cases a with
  | reserve i n =>
    obtain ⟨hpc, hi, rfl⟩ := he
    exact h.reserve hpc hi
  | finish i =>
    have hi := h.onTrack (.inl i)
    simp only [Local.OnTrack, he.1] at hi
    refine h.keep rfl rfl (Nat.le_antisymm hi (Nat.not_lt.mp he.2)) ?_
    simp [Local.reserved, he.1, Pc.inBody]
  | giveBack i => exact (h.not_giveBack he).elim
  | lock k =>
    refine h.goto rfl rfl rfl ?_ rfl
    rcases he.1 with hpc | hpc <;> simp [hpc, Pc.inBody]
  | mustWait k => exact h.goto rfl rfl rfl (by simp [he.1, Pc.inBody]) rfl
  | proceed k =>
    exact h.goto rfl rfl rfl (by simp [he.1, Pc.inBody]) (by cases k <;> rfl)
  | wait k =>
    replace he : (s.threads k).pc = .wait := he
    exact h.goto rfl rfl rfl (by simp [he, Pc.inBody]) rfl
  | wakeUp k =>
    replace he : (s.threads k).pc = .blocked := he
    exact h.goto rfl rfl rfl (by simp [he, Pc.inBody]) rfl
  | push i n => exact h.goto rfl rfl rfl (by simp [he.1, Pc.inBody]) rfl
  | quit j =>
    have hfinished := he.2.2
    rw [hok.not_finished] at hfinished
    cases hfinished
  | stay j => exact h.goto rfl rfl rfl (by simp [he.1, Pc.inBody]) rfl
  | pop j n => exact h.goto rfl rfl rfl (by simp [he.1, Pc.inBody]) rfl
  | unlock k =>
    replace he : (s.threads k).pc = .unlock := he
    exact h.goto rfl rfl rfl (by simp [he, Pc.inBody]) rfl
  | notifyOne k woken =>
    cases woken with
    | none => exact h.again he.1
    | some w =>
      obtain ⟨hpc, hside, hblocked⟩ := he
      refine (h.again hpc).goto rfl rfl rfl ?_ rfl
      simp [ne_of_other_side hside, hblocked, Pc.inBody]
  | main =>
    obtain ⟨m, hm | ⟨b, hm⟩⟩ := s.mainNext_cases
    · rw [Queue.next, hm]
      exact ⟨h.onTrack, h.count_eq⟩
    · rw [Queue.next, hm]
      exact ⟨(h.wakeAll b).onTrack, (h.wakeAll b).count_eq⟩

/-- `producer_task` has returned in both producers. -/
def Finished (s : Queue c) : Prop := ∀ i, (s.threads (.inl i)).pc = .returned

instance (s : Queue c) : Decidable s.Finished :=
  inferInstanceAs (Decidable (∀ i, (s.threads (.inl i)).pc = .returned))

theorem Progress.count_of_finished (h : s.Progress N) (hf : s.Finished) :
    s.itemsProducedCount = N := by
  rw [h.count_eq]
  calc s.reserved = ∑ k : Thread c, quota N k := Finset.sum_congr rfl fun k _ => ?_
    _ = N := sum_quota N
  cases k with
  | inr j => rfl
  | inl i =>
    have hi := h.onTrack (.inl i)
    simp only [Local.OnTrack, hf i] at hi
    simpa [Local.reserved, hf i, Pc.inBody, quota] using hi

end Queue

theorem progress_inv {s : Queue c} (h : (queue N bound c).Reachable s) : s.Progress N := by
  refine h.induct ?_ fun _ _ hs hp he => hp.next (ok_inv hs) he
  rintro s rfl
  refine ⟨?_, ?_⟩
  · rintro (i | j)
    · exact Nat.zero_le _
    · trivial
  · refine (Finset.sum_eq_zero fun k _ => ?_).symm
    rcases k with i | j <;> rfl

/-! ## The history -/

def Act.reserved : Act c → Option Nat
  | .reserve _ n => some n
  | _ => none

def Act.pushed : Act c → Option Nat
  | .push _ n => some n
  | _ => none

def Act.consumed : Act c → Option Nat
  | .pop _ n => some n
  | _ => none

/-- The numbers that `fetch_add` has returned, and those pushed and consumed, each in this
order. -/
def reserved (as : List (Act c)) : List Nat := as.filterMap Act.reserved

def pushed (as : List (Act c)) : List Nat := as.filterMap Act.pushed

def consumed (as : List (Act c)) : List Nat := as.filterMap Act.consumed

/-- The item that a producer has reserved and not pushed yet. -/
def Local.holds (x : Local) : Option Nat :=
  match x.pc with
  | .lock | .guard | .wait | .blocked | .notified | .push => some x.item
  | _ => none

/-- The producers draw the numbers of their items and put them into the buffer. -/
def Queue.tickets (s : Queue c) : Tickets (Producer) where
  next := s.itemsProducedCount
  held i := (s.threads (.inl i)).holds
  line := s.buffer

def Act.ticket : Act c → Option (TicketAct (Producer))
  | .reserve i _ => some (.draw i)
  | .push i n => some (.file i n)
  | .pop _ n => some (.serve n)
  | _ => none

theorem holds_set (s : Queue c) (i : Producer) (x : Local) :
    (fun k => ((s.set (.inl i) x).threads (.inl k)).holds)
      = Function.update (fun k => (s.threads (.inl k)).holds) i x.holds := by
  funext k
  rw [Queue.set_threads, Function.update_apply, Function.update_apply]
  by_cases hk : k = i <;> simp [hk]

/-- A step after which a producer holds what it held before. -/
theorem tickets_eq {s t : Queue c} {k : Thread c} {x : Local}
    (ht : t.threads = Function.update s.threads k x)
    (hc : t.itemsProducedCount = s.itemsProducedCount) (hb : t.buffer = s.buffer)
    (hx : k.isLeft = true → x.holds = (s.threads k).holds) : t.tickets = s.tickets := by
  rw [Queue.tickets, Queue.tickets, hc, hb, ht]
  refine congrArg (Tickets.mk s.itemsProducedCount · s.buffer) (funext fun i => ?_)
  rw [Function.update_apply]
  split
  · next hi => rw [← hi] at hx; rw [hx rfl]
  · rfl

theorem tickets_wakeAll (s : Queue c) (b : Bool) : (s.wakeAll b).tickets = s.tickets := by
  refine congrArg (Tickets.mk s.itemsProducedCount · s.buffer) (funext fun i => ?_)
  have hwake : ∀ x : Local, x.wake.holds = x.holds := by
    rintro ⟨pc, i, item⟩
    cases pc <;> rfl
  simp only [Queue.wakeAll]
  split
  · exact hwake _
  · rfl

theorem tickets_again {s : Queue c} {k : Thread c} (hpc : (s.threads k).pc = .notify) :
    (s.set k ((s.threads k).again k)).tickets = s.tickets := by
  refine tickets_eq rfl rfl rfl fun hk => ?_
  cases k with
  | inl i => simp [Local.again, Local.holds, hpc]
  | inr j => cases hk

theorem tickets_pop (s : Queue c) (j : Fin c) (n : Nat) :
    (s.next N (.pop j n)).tickets = { s.tickets with line := s.buffer.tail } := by
  refine congrArg (Tickets.mk s.itemsProducedCount · s.buffer.tail) (funext fun i => ?_)
  simp [Queue.next, Queue.tickets]

theorem tickets_next {s : Queue c} {a : Act c} (hp : s.Progress N) (he : s.enabled N bound a)
    (ha : a.ticket = none) : (s.next N a).tickets = s.tickets := by
  cases a with
  | reserve i n | push i n | pop j n => cases ha
  | finish i => exact tickets_eq rfl rfl rfl fun _ => by simp [Local.holds, he.1]
  | giveBack i => exact (hp.not_giveBack he).elim
  | lock k =>
    refine tickets_eq rfl rfl rfl fun _ => ?_
    rcases he.1 with hpc | hpc <;> simp [Local.holds, hpc]
  | mustWait k => exact tickets_eq rfl rfl rfl fun _ => by simp [Local.holds, he.1]
  | proceed k =>
    refine tickets_eq rfl rfl rfl fun hk => ?_
    cases k with
    | inl i => simp [afterWait, Local.holds, he.1]
    | inr j => cases hk
  | wait k =>
    replace he : (s.threads k).pc = .wait := he
    exact tickets_eq rfl rfl rfl fun _ => by simp [Local.holds, he]
  | wakeUp k =>
    replace he : (s.threads k).pc = .blocked := he
    exact tickets_eq rfl rfl rfl fun _ => by simp [Local.holds, he]
  | quit j => exact tickets_eq rfl rfl rfl fun hk => absurd hk (by simp)
  | stay j => exact tickets_eq rfl rfl rfl fun hk => absurd hk (by simp)
  | unlock k =>
    replace he : (s.threads k).pc = .unlock := he
    exact tickets_eq rfl rfl rfl fun _ => by simp [Local.holds, he]
  | notifyOne k woken =>
    cases woken with
    | none => exact tickets_again he.1
    | some w =>
      obtain ⟨hpc, hside, hblocked⟩ := he
      have hw : ((s.set k ((s.threads k).again k)).goto w .notified).tickets
          = (s.set k ((s.threads k).again k)).tickets :=
        tickets_eq rfl rfl rfl fun _ => by
          simp [Local.holds, ne_of_other_side hside, hblocked]
      exact hw.trans (tickets_again hpc)
  | main =>
    obtain ⟨m, hm | ⟨b, hm⟩⟩ := s.mainNext_cases
    · rw [Queue.next, hm]
      rfl
    · rw [Queue.next, hm]
      exact tickets_wakeAll s b

/-- As long as the counter is below `N`, reserving a number is drawing it. -/
def ticketing (N bound c : Nat) :
    Machine.Simulation ((queue N bound c).restrict fun s _ => s.Progress N)
      (tickets (Producer)) where
  abs := Queue.tickets
  label := Act.ticket
  init := by
    rintro s rfl
    exact ⟨rfl, fun _ => rfl, rfl⟩
  silent _ _ he ha := tickets_next he.2 he.1 ha
  visible := by
    rintro s a b ⟨he, hp⟩ hb
    cases a with
    | reserve i n =>
      obtain rfl := Option.some.inj hb
      obtain ⟨hpc, hi, rfl⟩ := he
      refine ⟨?_, ?_⟩
      · show (s.threads (.inl i)).holds = none
        simp [Local.holds, hpc]
      · have hlt := Nat.not_le.mpr (hp.count_lt hpc hi)
        have hset := holds_set s i ⟨.lock, (s.threads (.inl i)).i, s.itemsProducedCount⟩
        show (s.next N (.reserve i s.itemsProducedCount)).tickets = _
        rw [Queue.next, if_neg hlt]
        exact congrArg (Tickets.mk (s.itemsProducedCount + 1) · s.buffer) hset
    | push i n =>
      obtain rfl := Option.some.inj hb
      obtain ⟨hpc, rfl⟩ := he
      refine ⟨?_, congrArg (Tickets.mk s.itemsProducedCount · (s.buffer ++ [_])) (holds_set s i _)⟩
      show (s.threads (.inl i)).holds = some (s.threads (.inl i)).item
      simp [Local.holds, hpc]
    | pop j n =>
      obtain rfl := Option.some.inj hb
      exact ⟨he.2, tickets_pop (N := N) s j n⟩
    | _ => cases hb

section

variable {s₀ s : Queue c} {as : List (Act c)}

theorem progressing (h₀ : (queue N bound c).init s₀) (h : (queue N bound c).Exec s₀ as s) :
    ((queue N bound c).restrict fun s _ => s.Progress N).Exec s₀ as s :=
  h.to_restrict h₀ fun _ _ hs _ => progress_inv hs.of_restrict

theorem ticketed (h₀ : (queue N bound c).init s₀) (h : (queue N bound c).Exec s₀ as s) :
    (tickets (Producer)).Exec s₀.tickets (as.filterMap Act.ticket) s.tickets :=
  (ticketing N bound c).exec (progressing h₀ h)

theorem filed_ticket (as : List (Act c)) : filed (as.filterMap Act.ticket) = pushed as := by
  rw [filed, pushed, List.filterMap_filterMap]
  refine List.filterMap_congr fun a _ => ?_
  cases a <;> rfl

theorem served_ticket (as : List (Act c)) : served (as.filterMap Act.ticket) = consumed as := by
  rw [served, consumed, List.filterMap_filterMap]
  refine List.filterMap_congr fun a _ => ?_
  cases a <;> rfl

/-- `fetch_add` returns the numbers in order. -/
theorem reserved_eq (h₀ : (queue N bound c).init s₀) (h : (queue N bound c).Exec s₀ as s) :
    reserved as = List.range s.itemsProducedCount := by
  have hrun := progressing h₀ h
  clear h
  induction hrun with
  | nil =>
    obtain rfl := h₀
    rfl
  | @snoc as t a _ he ih =>
    obtain ⟨he, hp⟩ := he
    rw [reserved, Machine.filterMap_snoc, ← reserved, ih]
    show _ = List.range (t.next N a).itemsProducedCount
    cases a with
    | reserve i n =>
      obtain ⟨-, -, rfl⟩ := he
      exact List.range_succ.symm
    | giveBack i => exact (hp.not_giveBack he).elim
    | notifyOne k woken => cases woken <;> exact List.append_nil _
    | main =>
      obtain ⟨m, hm | ⟨b, hm⟩⟩ := t.mainNext_cases <;> rw [Queue.next, hm] <;>
        exact List.append_nil _
    | _ => exact List.append_nil _

/-- What the queue delivers. -/
structure DeliversOnce (N bound : Nat) (as : List (Act c)) (s : Queue c) : Prop where
  le_bound : s.buffer.length ≤ bound
  reserved_nodup : (reserved as).Nodup
  reserved_lt : ∀ n ∈ reserved as, n < N
  pushed_nodup : (pushed as).Nodup
  pushed_reserved : ∀ n ∈ pushed as, n ∈ reserved as
  consumed_prefix : consumed as <+: pushed as
  consumed_nodup : (consumed as).Nodup
  pushed_perm : s.Finished → (pushed as).Perm (List.range N)

/-- The buffer holds what was pushed and has not been consumed. -/
theorem pushed_eq (h₀ : (queue N bound c).init s₀) (h : (queue N bound c).Exec s₀ as s) :
    pushed as = consumed as ++ s.buffer := by
  have hline := filed_eq_append ((ticketing N bound c).init s₀ h₀) (ticketed h₀ h)
  rwa [filed_ticket, served_ticket] at hline

theorem pushed_drawn (h₀ : (queue N bound c).init s₀) (h : (queue N bound c).Exec s₀ as s) :
    s.tickets.Drawn (pushed as) := by
  have hdrawn := drawn_inv ((ticketing N bound c).init s₀ h₀) (ticketed h₀ h)
  rwa [filed_ticket] at hdrawn

/-- When both producers have finished, they hold nothing and have counted to `N`. -/
theorem pushed_perm (h₀ : (queue N bound c).init s₀) (h : (queue N bound c).Exec s₀ as s)
    (hf : s.Finished) : (pushed as).Perm (List.range N) := by
  have hheld : ∀ i, s.tickets.held i = none := fun i => by
    simp [Queue.tickets, Local.holds, hf i]
  have hperm := filed_perm ((ticketing N bound c).init s₀ h₀) (ticketed h₀ h) hheld
  have hcount : s.tickets.next = N := (progress_inv (h.reachable h₀)).count_of_finished hf
  rwa [filed_ticket, hcount] at hperm

theorem delivered_once (h₀ : (queue N bound c).init s₀) (h : (queue N bound c).Exec s₀ as s) :
    DeliversOnce N bound as s := by
  have hreach := h.reachable h₀
  have hdrawn := pushed_drawn h₀ h
  have hreserved := reserved_eq h₀ h
  have hprefix : consumed as <+: pushed as := ⟨s.buffer, (pushed_eq h₀ h).symm⟩
  refine ⟨(ok_inv hreach).le_bound, ?_, ?_, hdrawn.nodup, ?_, hprefix,
    hdrawn.nodup.sublist hprefix.sublist, pushed_perm h₀ h⟩
  · rw [hreserved]
    exact List.nodup_range
  · intro n hn
    rw [hreserved, List.mem_range] at hn
    exact Nat.lt_of_lt_of_le hn (progress_inv hreach).count_le
  · intro n hn
    rw [hreserved, List.mem_range]
    exact (hdrawn.lt_next n).mpr (.inl hn)

end

def only : Fin 1 := ⟨0, Nat.one_pos⟩

/-- The producers reserve the numbers 0, 1 and 2, push 1 before 0, and finish. The consumer
gets two of them. -/
def outOfOrder : List (Act 1) :=
  [.reserve .one 0, .reserve .two 1, .lock (.inl .two), .proceed (.inl .two), .push .two 1,
    .unlock (.inl .two), .notifyOne (.inl .two) none, .lock (.inl .one), .proceed (.inl .one),
    .push .one 0, .unlock (.inl .one), .notifyOne (.inl .one) none, .lock (.inr only),
    .proceed (.inr only), .stay only, .pop only 1, .unlock (.inr only),
    .notifyOne (.inr only) none, .finish .two, .reserve .one 2, .lock (.inl .one),
    .proceed (.inl .one), .push .one 2, .unlock (.inl .one), .notifyOne (.inl .one) none,
    .finish .one, .lock (.inr only), .proceed (.inr only), .stay only, .pop only 0,
    .unlock (.inr only)]

theorem outOfOrder_runs : ((queue 3 2 1).run (.start 1) outOfOrder).isSome := by
  decide

theorem delivered_once_outOfOrder :
    pushed outOfOrder = [1, 0, 2] ∧ (pushed outOfOrder).Perm (List.range 3) :=
  have hrun := Machine.exec_run_get outOfOrder_runs
  ⟨by decide, (delivered_once rfl hrun).pushed_perm (by decide)⟩

end SisProg.Threads.MultipleConsWork
