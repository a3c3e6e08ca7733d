import SisProg.Lib.Termination
import SisProg.Lib.Threads

/-!
# One condition variable for both sides

`producer` and `consumer` of `cond.cpp` hand over `n` numbers through a buffer of bounded
size. Both wait on the same condition variable, each with a predicate, and `notify_one` is
called when the mutex has been released. With one thread on each side this is enough:
`cond_finishes` says that the program is never stuck and that it ends, spurious wakeups or
not, as long as there are finitely many of them; and that the consumer gets the numbers in
their order.
-/

namespace SisProg.Threads

inductive Side
  | producer
  | consumer
deriving DecidableEq

def Side.other : Side → Side
  | .producer => .consumer
  | .consumer => .producer

/-- Where a thread is.

* `head`: about to compare `i`;
* `lock`: about to construct the `unique_lock`;
* `test`: in `wait`, holds the mutex, about to evaluate the predicate;
* `wait`: the predicate was false, about to release the mutex and block;
* `blocked`: not notified;
* `notified`: about to lock the mutex again;
* `body`: behind `wait`, about to change the buffer and print;
* `unlock`: about to leave the block;
* `notify`: about to call `notify_one`;
* `returned`: the function has returned. -/
inductive CondPc
  | head
  | lock
  | test
  | wait
  | blocked
  | notified
  | body
  | unlock
  | notify
  | returned
deriving DecidableEq

/-- A line of the output, with the size of the buffer. -/
inductive Line
  | produced (i size : Nat)
  | consumed (data size : Nat)
deriving DecidableEq

structure Cond where
  buffer : List Nat
  mutex : Option Side
  pc : Side → CondPc
  i : Side → Nat
  out : List Line

inductive CondAct
  | enter (k : Side)
  | leave (k : Side)
  | lock (k : Side)
  | proceed (k : Side)
  | mustWait (k : Side)
  | wait (k : Side)
  /-- A spurious wakeup. -/
  | wakeUp (k : Side)
  | body (k : Side)
  | unlock (k : Side)
  | notifyOne (k : Side)
deriving DecidableEq

namespace Cond

/-- The predicate is false. -/
def MustWait (maxbuff : Nat) (buffer : List Nat) : Side → Prop
  | .producer => ¬ buffer.length < maxbuff
  | .consumer => buffer = []

instance (maxbuff : Nat) (buffer : List Nat) (k : Side) : Decidable (MustWait maxbuff buffer k) :=
  match k with
  | .producer => inferInstanceAs (Decidable (¬ buffer.length < maxbuff))
  | .consumer => inferInstanceAs (Decidable (buffer = []))

def goto (s : Cond) (k : Side) (pc : CondPc) : Cond := { s with pc := Function.update s.pc k pc }

/-- `notify_one`: only the other thread can be blocked. -/
def notifyOne (s : Cond) (k : Side) : Cond :=
  if s.pc k.other = .blocked then s.goto k.other .notified else s

/-- The block behind `wait`. `front` and `pop_front` need an element. -/
def handOver (s : Cond) : Side → Cond
  | .producer =>
    { s with
      buffer := s.buffer ++ [s.i .producer]
      out := s.out ++ [.produced (s.i .producer) (s.buffer.length + 1)] }
  | .consumer =>
    match s.buffer with
    | [] => s
    | data :: buffer =>
      { s with buffer := buffer, out := s.out ++ [.consumed data buffer.length] }

/-- `n` numbers are handed over. -/
def enabled (n maxbuff : Nat) (s : Cond) : CondAct → Prop
  | .enter k => s.pc k = .head ∧ s.i k < n
  | .leave k => s.pc k = .head ∧ ¬ s.i k < n
  | .lock k => (s.pc k = .lock ∨ s.pc k = .notified) ∧ s.mutex = none
  | .proceed k => s.pc k = .test ∧ ¬ MustWait maxbuff s.buffer k
  | .mustWait k => s.pc k = .test ∧ MustWait maxbuff s.buffer k
  | .wait k => s.pc k = .wait
  | .wakeUp k => s.pc k = .blocked
  | .body k => s.pc k = .body
  | .unlock k => s.pc k = .unlock
  | .notifyOne k => s.pc k = .notify

def next (s : Cond) : CondAct → Cond
  | .enter k => s.goto k .lock
  | .leave k => s.goto k .returned
  | .lock k => { s.goto k .test with mutex := some k }
  | .proceed k => s.goto k .body
  | .mustWait k => s.goto k .wait
  | .wait k => { s.goto k .blocked with mutex := none }
  | .wakeUp k => s.goto k .notified
  | .body k => (s.handOver k).goto k .unlock
  | .unlock k => { s.goto k .notify with mutex := none }
  | .notifyOne k => { (s.notifyOne k).goto k .head with i := Function.update s.i k (s.i k + 1) }

instance (n maxbuff : Nat) (s : Cond) (a : CondAct) : Decidable (s.enabled n maxbuff a) := by
  cases a <;> unfold enabled <;> infer_instance

end Cond

def Cond.start : Cond := ⟨[], none, fun _ => .head, fun _ => 0, []⟩

/-- The program, with `n` numbers and a bound for the buffer. -/
def cond (n maxbuff : Nat) : Machine Cond CondAct where
  init s := s = .start
  enabled := Cond.enabled n maxbuff
  next := Cond.next

instance (n maxbuff : Nat) (s : Cond) (a : CondAct) : Decidable ((cond n maxbuff).enabled s a) :=
  inferInstanceAs (Decidable (s.enabled n maxbuff a))

/-! ## The mutex -/

/-- The thread holds the mutex. -/
def CondPc.inside : CondPc → Bool
  | .test | .wait | .body | .unlock => true
  | _ => false

/-- What a thread knows of the buffer. -/
def CondPc.Sees (maxbuff : Nat) (k : Side) (pc : CondPc) (buffer : List Nat) : Prop :=
  match pc with
  | .wait => Cond.MustWait maxbuff buffer k
  | .body => ¬ Cond.MustWait maxbuff buffer k
  | _ => True

theorem sees_outside {maxbuff : Nat} {pc : CondPc} (h : pc.inside = false) (k : Side)
    (buffer : List Nat) : pc.Sees maxbuff k buffer := by
  cases pc with
  | wait | body => cases h
  | _ => trivial

variable {n maxbuff : Nat} {s : Cond} {a : CondAct}

/-- The mutex, and what is known under it. -/
def CondGuarded (maxbuff : Nat) (s : Cond) : Prop :=
  Guarded CondPc.inside (CondPc.Sees maxbuff) s.mutex s.pc s.buffer

@[simp] theorem handOver_pc (s : Cond) (k : Side) : (s.handOver k).pc = s.pc := by
  unfold Cond.handOver
  split
  next => rfl
  next => split <;> rfl

@[simp] theorem handOver_mutex (s : Cond) (k : Side) : (s.handOver k).mutex = s.mutex := by
  unfold Cond.handOver
  split
  next => rfl
  next => split <;> rfl

@[simp] theorem handOver_i (s : Cond) (k : Side) : (s.handOver k).i = s.i := by
  unfold Cond.handOver
  split
  next => rfl
  next => split <;> rfl

theorem other_ne (k : Side) : k.other ≠ k := by cases k <;> simp [Side.other]

theorem eq_or_other (j k : Side) : j = k ∨ j = k.other := by
  cases j <;> cases k <;> simp [Side.other]

theorem notifyOne_pc (s : Cond) (j k : Side) : (s.notifyOne k).pc j =
    if j = k.other ∧ s.pc k.other = .blocked then .notified else s.pc j := by
  unfold Cond.notifyOne Cond.goto
  split
  next hblocked => simp only [Function.update_apply, hblocked, and_true]
  next hnot => simp [hnot]

@[simp] theorem notifyOne_pc_self (s : Cond) (k : Side) : (s.notifyOne k).pc k = s.pc k := by
  rw [notifyOne_pc, if_neg fun h => other_ne k h.1.symm]

@[simp] theorem notifyOne_i (s : Cond) (k : Side) : (s.notifyOne k).i = s.i := by
  unfold Cond.notifyOne
  split <;> rfl

@[simp] theorem notifyOne_buffer (s : Cond) (k : Side) : (s.notifyOne k).buffer = s.buffer := by
  unfold Cond.notifyOne
  split <;> rfl

@[simp] theorem notifyOne_out (s : Cond) (k : Side) : (s.notifyOne k).out = s.out := by
  unfold Cond.notifyOne
  split <;> rfl

theorem CondGuarded.notifyOne (h : CondGuarded maxbuff s) (k : Side) :
    CondGuarded maxbuff (s.notifyOne k) := by
  unfold Cond.notifyOne
  split
  next hblocked => exact Guarded.keep h (by rw [hblocked]; rfl) trivial
  next => exact h

theorem CondGuarded.next (h : CondGuarded maxbuff s) (he : s.enabled n maxbuff a) :
    CondGuarded maxbuff (s.next a) := by
  cases a with
  | enter k | leave k => exact Guarded.keep h (by rw [he.1]; rfl) trivial
  | lock k =>
    obtain ⟨-, hfree⟩ := he
    unfold CondGuarded at h
    rw [hfree] at h
    exact Guarded.acquire h rfl trivial
  | proceed k | mustWait k => exact Guarded.keep h (by rw [he.1]; rfl) he.2
  | wait k | unlock k =>
    have hpc := he
    simp only [Cond.enabled] at hpc
    exact Guarded.release h (by rw [hpc]; rfl) rfl trivial
  | wakeUp k =>
    have hpc : s.pc k = .blocked := he
    exact Guarded.keep h (by rw [hpc]; rfl) trivial
  | body k =>
    have hpc : s.pc k = .body := he
    unfold CondGuarded
    simp only [Cond.next, Cond.goto, handOver_pc, handOver_mutex]
    exact Guarded.change h (by rw [hpc]; rfl) rfl (fun j y hy => sees_outside hy j _) trivial
  | notifyOne k =>
    have hpc : s.pc k = .notify := he
    exact Guarded.keep (h.notifyOne k) (by rw [notifyOne_pc_self, hpc]; rfl) trivial

theorem condGuarded (h : (cond n maxbuff).Reachable s) : CondGuarded maxbuff s := by
  refine h.induct ?_ ?_
  · intro s hs
    subst hs
    exact ⟨fun k => ⟨(fun h => nomatch h), fun h => nomatch h⟩, fun k => trivial⟩
  · intro s a _ hs he
    exact hs.next he

/-! ## The iterations -/

/-- How `i` is related to `n`. -/
def CondPc.Within (n : Nat) (pc : CondPc) (i : Nat) : Prop :=
  match pc with
  | .head => i ≤ n
  | .returned => i = n
  | _ => i < n

theorem update_within {k : Side} {pc : CondPc} {i : Nat} (h : ∀ j, (s.pc j).Within n (s.i j))
    (hk : pc.Within n i) (j : Side) :
    (Function.update s.pc k pc j).Within n (Function.update s.i k i j) := by
  rcases eq_or_ne j k with rfl | hne
  · rw [Function.update_self, Function.update_self]
    exact hk
  · rw [Function.update_of_ne hne, Function.update_of_ne hne]
    exact h j

theorem goto_within {k : Side} {pc : CondPc} (h : ∀ j, (s.pc j).Within n (s.i j))
    (hk : pc.Within n (s.i k)) (j : Side) : ((s.goto k pc).pc j).Within n ((s.goto k pc).i j) := by
  have hupdate := @update_within n s k pc (s.i k) h hk j
  rwa [Function.update_eq_self] at hupdate

theorem within (h : (cond n maxbuff).Reachable s) : ∀ k, (s.pc k).Within n (s.i k) := by
  refine h.induct (P := fun s => ∀ k, (s.pc k).Within n (s.i k)) ?_ ?_
  · intro s hs k
    subst hs
    exact Nat.zero_le n
  · intro s a _ hs he
    cases a with
    | enter k => exact goto_within hs he.2
    | leave k =>
      have hk := hs k
      rw [he.1] at hk
      exact goto_within hs (Nat.le_antisymm hk (Nat.le_of_not_lt he.2))
    | lock k =>
      have hk := hs k
      rcases he.1 with hpc | hpc
      · rw [hpc] at hk
        exact goto_within hs hk
      · rw [hpc] at hk
        exact goto_within hs hk
    | proceed k | mustWait k =>
      have hk := hs k
      rw [he.1] at hk
      exact goto_within hs hk
    | wait k | wakeUp k | unlock k =>
      have hk := hs k
      rw [he] at hk
      exact goto_within hs hk
    | body k =>
      have hk := hs k
      rw [he] at hk
      intro j
      simp only [cond, Cond.next, Cond.goto, handOver_pc, handOver_i]
      exact @goto_within n s k .unlock hs hk j
    | notifyOne k =>
      have hk := hs k
      rw [he] at hk
      have hnotified : ∀ j, ((s.notifyOne k).pc j).Within n ((s.notifyOne k).i j) := by
        intro j
        rw [notifyOne_i, notifyOne_pc]
        split
        next hother =>
          have hj := hs j
          rwa [hother.1, hother.2, ← hother.1] at hj
        next => exact hs j
      have hnext := @update_within n (s.notifyOne k) k .head (s.i k + 1) hnotified hk
      rw [notifyOne_i] at hnext
      exact hnext

/-! ## What is handed over -/

/-- The thread has changed the buffer, and not counted it yet. -/
def CondPc.past : CondPc → Nat
  | .unlock | .notify => 1
  | _ => 0

/-- How often a thread has changed the buffer. -/
def Cond.changed (s : Cond) (k : Side) : Nat := s.i k + (s.pc k).past

def Line.produced? : Line → Option Nat
  | .produced i _ => some i
  | .consumed _ _ => none

def Line.consumed? : Line → Option Nat
  | .produced _ _ => none
  | .consumed data _ => some data

/-- The size that is printed is one that the buffer can have. -/
def Line.Sized (maxbuff : Nat) : Line → Prop
  | .produced _ size => 0 < size ∧ size ≤ maxbuff
  | .consumed _ size => size < maxbuff

/-- The numbers are produced and consumed in their order, and the buffer has those in
between. -/
structure Handed (maxbuff produced consumed : Nat) (buffer : List Nat) (out : List Line) :
    Prop where
  between : List.range produced = List.range consumed ++ buffer
  bounded : buffer.length ≤ maxbuff
  produced : out.filterMap Line.produced? = List.range produced
  consumed : out.filterMap Line.consumed? = List.range consumed
  sized : ∀ line ∈ out, line.Sized maxbuff

theorem Handed.produce {p c : Nat} {buffer : List Nat} {out : List Line}
    (h : Handed maxbuff p c buffer out) (hroom : buffer.length < maxbuff) :
    Handed maxbuff (p + 1) c (buffer ++ [p]) (out ++ [.produced p (buffer.length + 1)]) where
  between := by rw [List.range_succ, h.between, List.append_assoc]
  bounded := by
    rw [List.length_append]
    exact hroom
  produced := by simp [h.produced, Line.produced?, List.range_succ]
  consumed := by simp [h.consumed, Line.consumed?]
  sized line hline := by
    rcases List.mem_append.mp hline with hline | hline
    · exact h.sized line hline
    · rw [List.mem_singleton.mp hline]
      exact ⟨Nat.succ_pos _, hroom⟩

theorem Handed.consume {p c data : Nat} {buffer : List Nat} {out : List Line}
    (h : Handed maxbuff p c (data :: buffer) out) :
    Handed maxbuff p (c + 1) buffer (out ++ [.consumed data buffer.length]) := by
  -- the first number of the buffer is the next one to be consumed
  have hdata : data = c := by
    have hget : (List.range p)[c]? = (List.range c ++ data :: buffer)[c]? := by rw [h.between]
    rw [List.getElem?_append_right (by simp), List.length_range, Nat.sub_self,
      List.getElem?_cons_zero] at hget
    have hlt : c < p := by simpa using (List.getElem?_eq_some_iff.mp hget).1
    rw [List.getElem?_range hlt] at hget
    exact (Option.some.inj hget).symm
  subst hdata
  refine ⟨?_, ?_, ?_, ?_, ?_⟩
  · rw [h.between, List.range_succ, List.append_assoc]
    rfl
  · exact Nat.le_of_succ_le h.bounded
  · simp [h.produced, Line.produced?]
  · simp [h.consumed, Line.consumed?, List.range_succ]
  · intro line hline
    rcases List.mem_append.mp hline with hline | hline
    · exact h.sized line hline
    · rw [List.mem_singleton.mp hline]
      exact h.bounded

/-- The thread moves, and has changed the buffer as often as before. -/
theorem changed_step {t : Cond} {k : Side} {pc : CondPc} (hpc : t.pc = Function.update s.pc k pc)
    (hi : t.i = s.i) (h : pc.past = (s.pc k).past) (j : Side) : t.changed j = s.changed j := by
  unfold Cond.changed
  rw [hpc, hi]
  rcases eq_or_ne j k with rfl | hne
  · rw [Function.update_self, h]
  · rw [Function.update_of_ne hne]

/-- What is produced, what is consumed, and what is between. -/
def CondHanded (maxbuff : Nat) (s : Cond) : Prop :=
  Handed maxbuff (s.changed .producer) (s.changed .consumer) s.buffer s.out

theorem CondHanded.congr {t : Cond} (h : CondHanded maxbuff s)
    (hchanged : ∀ k, t.changed k = s.changed k) (hbuffer : t.buffer = s.buffer)
    (hout : t.out = s.out) : CondHanded maxbuff t := by
  unfold CondHanded
  rw [hchanged, hchanged, hbuffer, hout]
  exact h

theorem changed_body {k : Side} (hpc : s.pc k = .body) (j : Side) :
    ((s.handOver k).goto k .unlock).changed j = s.changed j + if j = k then 1 else 0 := by
  unfold Cond.changed Cond.goto
  rcases eq_or_ne j k with rfl | hne
  · simp [hpc, CondPc.past]
  · simp [hne]

theorem changed_notifyOne {k : Side} (hpc : s.pc k = .notify) (j : Side) :
    (s.next (.notifyOne k)).changed j = s.changed j := by
  unfold Cond.changed
  simp only [Cond.next, Cond.goto, notifyOne_i]
  rcases eq_or_ne j k with rfl | hne
  · simp [hpc, CondPc.past]
  · rw [Function.update_of_ne hne, Function.update_of_ne hne, notifyOne_pc]
    split
    next hother => rw [hother.1, hother.2]; rfl
    next => rfl

theorem CondHanded.body {k : Side} (h : CondHanded maxbuff s) (hpc : s.pc k = .body)
    (hready : ¬ Cond.MustWait maxbuff s.buffer k) : CondHanded maxbuff (s.next (.body k)) := by
  unfold CondHanded
  simp only [Cond.next, changed_body hpc]
  cases k with
  | producer =>
    have hi : s.changed .producer = s.i .producer := by
      rw [Cond.changed, hpc]
      rfl
    have hproduce := Handed.produce h (not_not.mp hready)
    rw [hi] at hproduce ⊢
    exact hproduce
  | consumer =>
    unfold CondHanded at h
    cases hbuffer : s.buffer with
    | nil => exact absurd hbuffer hready
    | cons data buffer =>
      rw [hbuffer] at h
      simp only [Cond.handOver, hbuffer]
      exact h.consume

theorem condHanded (h : (cond n maxbuff).Reachable s) : CondHanded maxbuff s := by
  refine h.induct ?_ ?_
  · intro s hs
    subst hs
    exact ⟨rfl, Nat.zero_le _, rfl, rfl, by simp [Cond.start]⟩
  · intro s a hreach hs he
    cases a with
    | enter k | leave k | proceed k | mustWait k =>
      exact hs.congr (changed_step rfl rfl (by rw [he.1]; rfl)) rfl rfl
    | lock k =>
      refine hs.congr (changed_step rfl rfl ?_) rfl rfl
      rcases he.1 with hpc | hpc
      · rw [hpc]
        rfl
      · rw [hpc]
        rfl
    | wait k | wakeUp k | unlock k =>
      exact hs.congr (changed_step rfl rfl (by rw [he]; rfl)) rfl rfl
    | body k =>
      have hsees := (condGuarded hreach).sees k
      rw [he] at hsees
      exact hs.body he hsees
    | notifyOne k =>
      exact hs.congr (changed_notifyOne he) (notifyOne_buffer s k) (notifyOne_out s k)

/-! ## Nobody waits in vain -/

/-- A thread that is blocked has to wait, or the other one is about to notify it. -/
def Covered (maxbuff : Nat) (s : Cond) : Prop :=
  ∀ k, s.pc k = .blocked → Cond.MustWait maxbuff s.buffer k ∨ (s.pc k.other).past = 1

theorem other_other (k : Side) : k.other.other = k := by cases k <;> rfl

/-- The thread moves on, and does not block. -/
theorem Covered.step {t : Cond} {k : Side} {pc : CondPc} (h : Covered maxbuff s)
    (ht : t.pc = Function.update s.pc k pc) (hbuffer : t.buffer = s.buffer) (hpc : pc ≠ .blocked)
    (hpast : (s.pc k).past = 1 → pc.past = 1) : Covered maxbuff t := by
  intro j hj
  rw [ht] at hj ⊢
  rw [hbuffer]
  rcases eq_or_other j k with rfl | rfl
  · rw [Function.update_self] at hj
    exact absurd hj hpc
  · rw [Function.update_of_ne (other_ne k)] at hj
    rw [other_other, Function.update_self]
    exact (h k.other hj).imp_right fun hk => hpast (by rwa [other_other] at hk)

theorem covered (h : (cond n maxbuff).Reachable s) : Covered maxbuff s := by
  refine h.induct ?_ ?_
  · intro s hs k hk
    subst hs
    cases hk
  · intro s a hreach hs he
    cases a with
    | enter k | leave k | proceed k | mustWait k =>
      exact hs.step rfl rfl (by simp) (by rw [he.1]; simp [CondPc.past])
    | lock k =>
      refine hs.step rfl rfl (by simp) ?_
      rcases he.1 with hpc | hpc
      · rw [hpc]
        simp [CondPc.past]
      · rw [hpc]
        simp [CondPc.past]
    | wait k =>
      have hpc : s.pc k = .wait := he
      have hsees := (condGuarded hreach).sees k
      rw [hpc] at hsees
      intro j hj
      show Cond.MustWait maxbuff s.buffer j ∨ _
      rcases eq_or_other j k with rfl | rfl
      · exact .inl hsees
      · have hj' : Function.update s.pc k .blocked k.other = .blocked := hj
        rw [Function.update_of_ne (other_ne k)] at hj'
        refine .inl ((hs k.other hj').resolve_right ?_)
        rw [other_other, hpc]
        simp [CondPc.past]
    | wakeUp k => exact hs.step rfl rfl (by simp) (by rw [he]; simp [CondPc.past])
    | unlock k => exact hs.step rfl rfl (by simp) fun _ => rfl
    | body k =>
      intro j hj
      refine .inr ?_
      simp only [cond, Cond.next, Cond.goto, handOver_pc] at hj ⊢
      rcases eq_or_other j k with rfl | rfl
      · rw [Function.update_self] at hj
        cases hj
      · rw [other_other, Function.update_self]
        rfl
    | notifyOne k =>
      intro j hj
      simp only [cond, Cond.next, Cond.goto] at hj
      rcases eq_or_other j k with rfl | rfl
      · rw [Function.update_self] at hj
        cases hj
      · -- the other one has been notified
        rw [Function.update_of_ne (other_ne k), notifyOne_pc] at hj
        split at hj
        next => cases hj
        next hnot => exact absurd ⟨rfl, hj⟩ hnot

/-- The two do not wait for each other, and nobody waits for one that has returned. -/
theorem not_blocked (hmax : 1 ≤ maxbuff) (h : (cond n maxbuff).Reachable s)
    (hidle : ∀ k, s.pc k = .blocked ∨ s.pc k = .returned) : ∀ k, s.pc k ≠ .blocked := by
  have hcovered := covered h
  have hbetween := (condHanded h).between
  have hpast : ∀ k, (s.pc k).past = 0 := by
    intro k
    rcases hidle k with hk | hk
    · rw [hk]
      rfl
    · rw [hk]
      rfl
  have hchanged : ∀ k, s.changed k = s.i k := fun k => by rw [Cond.changed, hpast k]; rfl
  have hwaits : ∀ k, s.pc k = .blocked → Cond.MustWait maxbuff s.buffer k ∧ s.i k < n := by
    intro k hk
    have hi := within h k
    rw [hk] at hi
    refine ⟨(hcovered k hk).resolve_right ?_, hi⟩
    rw [hpast]
    simp
  have hends : ∀ k, s.pc k ≠ .blocked → s.i k = n := by
    intro k hk
    have hi := within h k
    rwa [(hidle k).resolve_left hk] at hi
  have hlength := congrArg List.length hbetween
  rw [hchanged, hchanged, List.length_append, List.length_range, List.length_range] at hlength
  have hproducer : s.pc .producer ≠ .blocked := by
    intro hp
    obtain ⟨hfull, hi⟩ := hwaits .producer hp
    have hfull' : maxbuff ≤ s.buffer.length := Nat.not_lt.mp hfull
    rcases Decidable.em (s.pc .consumer = .blocked) with hc | hc
    · have hempty : s.buffer = [] := (hwaits .consumer hc).1
      rw [hempty, List.length_nil] at hfull'
      omega
    · have hall := hends .consumer hc
      omega
  intro k
  cases k with
  | producer => exact hproducer
  | consumer =>
    intro hc
    obtain ⟨hempty, hi⟩ := hwaits .consumer hc
    have hbuffer : s.buffer = [] := hempty
    have hall := hends .producer hproducer
    rw [hbuffer, List.length_nil] at hlength
    omega

/-! ## The program goes on, and ends -/

/-- A spurious wakeup sends a thread back, and is itself a step. -/
def CondAct.cost : CondAct → Nat
  | .wakeUp _ => 4
  | _ => 0

/-- The two functions have returned. -/
def Cond.Finished (s : Cond) : Prop := ∀ k, s.pc k = .returned

theorem cond_progress (hmax : 1 ≤ maxbuff) (h : (cond n maxbuff).Reachable s)
    (hnot : ¬ s.Finished) : ∃ a, (cond n maxbuff).enabled s a ∧ a.cost = 0 := by
  cases hmutex : s.mutex with
  | some k =>
    have hinside := ((condGuarded h).mutex k).mp hmutex
    cases hpc : s.pc k with
    | test =>
      rcases Decidable.em (Cond.MustWait maxbuff s.buffer k) with hwait | hwait
      · exact ⟨.mustWait k, ⟨hpc, hwait⟩, rfl⟩
      · exact ⟨.proceed k, ⟨hpc, hwait⟩, rfl⟩
    | wait => exact ⟨.wait k, hpc, rfl⟩
    | body => exact ⟨.body k, hpc, rfl⟩
    | unlock => exact ⟨.unlock k, hpc, rfl⟩
    | head | lock | blocked | notified | notify | returned =>
      rw [hpc] at hinside
      cases hinside
  | none =>
    have houtside : ∀ k, (s.pc k).inside = false := by
      intro k
      refine Bool.eq_false_of_not_eq_true fun hk => ?_
      have hheld := ((condGuarded h).mutex k).mpr hk
      rw [hmutex] at hheld
      cases hheld
    by_contra hstuck
    have hidle : ∀ k, s.pc k = .blocked ∨ s.pc k = .returned := by
      intro k
      have hout := houtside k
      cases hpc : s.pc k with
      | head =>
        rcases Nat.lt_or_ge (s.i k) n with hlt | hle
        · exact absurd ⟨.enter k, ⟨hpc, hlt⟩, rfl⟩ hstuck
        · exact absurd ⟨.leave k, ⟨hpc, Nat.not_lt.mpr hle⟩, rfl⟩ hstuck
      | lock => exact absurd ⟨.lock k, ⟨.inl hpc, hmutex⟩, rfl⟩ hstuck
      | notified => exact absurd ⟨.lock k, ⟨.inr hpc, hmutex⟩, rfl⟩ hstuck
      | notify => exact absurd ⟨.notifyOne k, hpc, rfl⟩ hstuck
      | blocked => exact .inl rfl
      | returned => exact .inr rfl
      | test | wait | body | unlock =>
        rw [hpc] at hout
        cases hout
    exact hnot fun k => (hidle k).resolve_left (not_blocked hmax h hidle k)

/-- How far a thread is from the end of an iteration. -/
def CondPc.rest : CondPc → Nat
  | .head => 12
  | .lock | .notified => 11
  | .test => 10
  | .wait | .body => 9
  | .blocked | .unlock => 8
  | .notify => 7
  | .returned => 0

/-- How far a thread is from the end. -/
def Cond.toGo (n : Nat) (s : Cond) (k : Side) : Nat := 9 * (n - s.i k) + (s.pc k).rest

def Cond.left (n : Nat) (s : Cond) : Nat := s.toGo n .producer + s.toGo n .consumer

theorem left_eq (n : Nat) (s : Cond) (k : Side) :
    s.left n = s.toGo n k + s.toGo n k.other := by
  cases k with
  | producer => rfl
  | consumer => exact Nat.add_comm _ _

/-- The thread moves, within its iteration. -/
theorem left_step {t : Cond} {k : Side} {pc : CondPc} (hpc : t.pc = Function.update s.pc k pc)
    (hi : t.i = s.i) : t.left n + (s.pc k).rest = s.left n + pc.rest := by
  rw [left_eq n t k, left_eq n s k]
  unfold Cond.toGo
  rw [hpc, hi, Function.update_self, Function.update_of_ne (other_ne k)]
  omega

theorem left_lt {t : Cond} {k : Side} {pc : CondPc} (hpc : t.pc = Function.update s.pc k pc)
    (hi : t.i = s.i) (hrest : pc.rest < (s.pc k).rest) : t.left n + 1 ≤ s.left n := by
  have hstep := @left_step n s t k pc hpc hi
  omega

/-- A notification sends the other thread back. -/
theorem rest_notifyOne (s : Cond) (k : Side) :
    ((s.notifyOne k).pc k.other).rest ≤ (s.pc k.other).rest + 3 := by
  rw [notifyOne_pc]
  split
  next h =>
    rw [h.2]
    decide
  next => exact Nat.le_add_right _ _

theorem left_notifyOne {k : Side} (hpc : s.pc k = .notify) (hi : s.i k < n) :
    (s.next (.notifyOne k)).left n + 1 ≤ s.left n := by
  have hrest := rest_notifyOne s k
  rw [left_eq n _ k, left_eq n s k]
  unfold Cond.toGo
  simp only [Cond.next, Cond.goto, Function.update_self, notifyOne_i,
    Function.update_of_ne (other_ne k), hpc, CondPc.rest] at hrest ⊢
  omega

theorem cond_decreases (n maxbuff : Nat) : (cond n maxbuff).DecreasesBut CondAct.cost
    (cond n maxbuff).Reachable (Cond.left n) := by
  intro s a hs he
  refine ⟨hs.next he, ?_⟩
  show (s.next a).left n + 1 ≤ s.left n + a.cost
  cases a with
  | enter k | leave k | proceed k | mustWait k =>
    exact left_lt rfl rfl (by rw [he.1]; decide)
  | lock k =>
    refine left_lt rfl rfl ?_
    rcases he.1 with hpc | hpc
    · rw [hpc]
      decide
    · rw [hpc]
      decide
  | wait k | unlock k => exact left_lt rfl rfl (by rw [he]; decide)
  | wakeUp k =>
    have hpc : s.pc k = .blocked := he
    have hstep := @left_step n s (s.next (.wakeUp k)) k .notified rfl rfl
    rw [hpc] at hstep
    simp only [CondPc.rest] at hstep
    simp only [CondAct.cost]
    omega
  | body k =>
    refine @left_lt n s (s.next (.body k)) k .unlock ?_ (handOver_i s k) (by rw [he]; decide)
    simp [Cond.next, Cond.goto]
  | notifyOne k =>
    have hi := within hs k
    rw [he] at hi
    exact left_notifyOne he hi

/-- Whatever the interleaving and the wakeups: the numbers are produced and consumed in their
order, and no size that is printed is out of bounds; unless both functions have returned some
step can be taken that is no spurious wakeup; a run is not longer than a bound to which each
spurious wakeup adds four; both functions can always return; and when they have returned all
numbers have been handed over. -/
theorem cond_finishes (hmax : 1 ≤ maxbuff) {as : List CondAct}
    (h : (cond n maxbuff).Exec .start as s) :
    CondHanded maxbuff s ∧
      (¬ s.Finished → ∃ a, (cond n maxbuff).enabled s a ∧ a.cost = 0) ∧
      as.length ≤ 18 * n + 24 + Machine.totalCost CondAct.cost as ∧
      (∃ bs t, (cond n maxbuff).Exec s bs t ∧ Machine.totalCost CondAct.cost bs = 0 ∧
        t.Finished) ∧
      (s.Finished → s.out.filterMap Line.consumed? = List.range n ∧ s.buffer = []) := by
  have hreach : (cond n maxbuff).Reachable s := h.reachable rfl
  have hhanded := condHanded hreach
  refine ⟨hhanded, cond_progress hmax hreach, ?_, ?_, ?_⟩
  · have hle := (cond_decreases n maxbuff).length_le ⟨.start, [], rfl, .nil⟩ h
    have hleft : Cond.left n .start = 18 * n + 24 := by
      simp only [Cond.left, Cond.toGo, Cond.start, CondPc.rest]
      omega
    rwa [hleft] at hle
  · exact (cond_decreases n maxbuff).exists_final (fun s hs hnot => cond_progress hmax hs hnot)
      hreach
  · intro hfinished
    have hchanged : ∀ k, s.changed k = n := by
      intro k
      have hi := within hreach k
      rw [hfinished k] at hi
      rw [Cond.changed, hfinished k]
      exact hi
    have hbetween := hhanded.between
    have hconsumed := hhanded.consumed
    rw [hchanged, hchanged] at hbetween
    rw [hchanged] at hconsumed
    exact ⟨hconsumed, List.append_cancel_left (hbetween.symm.trans (List.append_nil _).symm)⟩

/-- The consumer comes first, wakes up for nothing, and is notified. The second number is there
when it comes back. -/
def twoNumbers : List CondAct :=
  [.enter .consumer, .lock .consumer, .mustWait .consumer, .wait .consumer, .wakeUp .consumer,
    .lock .consumer, .mustWait .consumer, .wait .consumer, .enter .producer, .lock .producer,
    .proceed .producer, .body .producer, .unlock .producer, .notifyOne .producer, .lock .consumer,
    .proceed .consumer, .body .consumer, .unlock .consumer, .notifyOne .consumer, .enter .producer,
    .lock .producer, .proceed .producer, .body .producer, .unlock .producer, .notifyOne .producer,
    .enter .consumer, .lock .consumer, .proceed .consumer, .body .consumer, .unlock .consumer,
    .leave .producer, .notifyOne .consumer, .leave .consumer]

theorem twoNumbers_runs : ((cond 2 5).run .start twoNumbers).isSome := by decide

theorem cond_finishes_twoNumbers :
    (((cond 2 5).run .start twoNumbers).get twoNumbers_runs).out.filterMap Line.consumed? = [0, 1] ∧
      twoNumbers.length ≤ 18 * 2 + 24 + Machine.totalCost CondAct.cost twoNumbers := by
  obtain ⟨-, -, hlength, -, hall⟩ :=
    cond_finishes (by decide : 1 ≤ 5) (Machine.exec_run_get twoNumbers_runs)
  refine ⟨(hall ?_).1, hlength⟩
  intro k
  cases k <;> decide

end SisProg.Threads
