import SisProg.Threads.Elements

/-!
# Where the elements are

An element is produced, then it is in the hands of its producer, then in the buffer, then
in the hands of the consumer that has popped it, then consumed. `Accounted` says that the
counters and the size of the buffer account for all of them, and it holds of both
versions of the program as long as a consumer goes round its loop with empty hands and,
in `consWork`, leaves it with an element (`Conforms`). In `elements.cpp` this is so in
every run (`exec_elements`).

A producer that finds the buffer full and `done` set returns with the element that it has
just produced. `final_balance_iff` says that the numbers that `main` prints balance exactly
in the runs without such a return, as long as the counters do not wrap around.
-/

namespace SisProg.Threads

variable {p c : Nat} {prog : Program} {bound : Nat}

/-! ## The hands of a thread -/

/-- What `el` holds at each point of the two functions. -/
def Local.Hands (prog : Program) : Thread p c → Local → Prop
  | .inl _, x => match x.pc with
    | .test | .produce | .unlock | .notify => x.el = none
    | .returned => True
    | _ => x.el ≠ none
  | .inr _, x => match x.pc with
    | .pop | .unlock | .notify | .consume => x.el ≠ none
    | .test => prog = .elements → x.el = none
    | _ => x.el = none

/-- A consumer begins the body of its loop with empty hands, and in `consWork` it has an
element when it leaves the loop. -/
def Conforms (prog : Program) (s : Queue p c) : Act p c → Prop
  | .enter (.inr j) => (s.threads (.inr j)).el = none
  | .leave (.inr j) => prog = .consWork → (s.threads (.inr j)).el ≠ none
  | _ => True

/-- The runs all of whose steps conform. -/
def conforming (prog : Program) (bound p c : Nat) : Machine (Queue p c) (Act p c) :=
  (queue prog bound p c).restrict (Conforms prog)

/-- What a thread holds after a step of its own that conforms. -/
theorem Local.Step.hands {s : Queue p c} {k : Thread p c} {a : Act p c} {x y : Local}
    (hstep : Local.Step prog k a x y) (hs : s.threads k = x) (hx : x.Hands prog k)
    (hconf : Conforms prog s a) : y.Hands prog k := by
  cases hstep with
  | enter =>
    cases k with
    | inl i => exact hx
    | inr j =>
      have hnone : (s.threads (.inr j)).el = none := hconf
      rw [hs] at hnone
      exact hnone
  | leave =>
    cases k with
    | inl i => trivial
    | inr j =>
      cases prog with
      | elements => exact hx rfl
      | consWork =>
        have hsome : (s.threads (.inr j)).el ≠ none := hconf rfl
        rw [hs] at hsome
        exact hsome
  | produce | take => exact Option.some_ne_none _
  | quit =>
    cases k with
    | inl i => trivial
    | inr j => exact hx
  | emplace => rfl
  | pop => exact hx
  | unlock =>
    cases k with
    | inl i => exact hx
    | inr j =>
      cases prog with
      | elements => exact hx
      | consWork => exact nofun
  | consume =>
    cases prog with
    | elements => exact fun _ => rfl
    | consWork => rfl
  | _ => cases k <;> exact hx

namespace Queue

def Hands (prog : Program) (s : Queue p c) : Prop := ∀ k, (s.threads k).Hands prog k

/-- The hands of a thread whose program counter is known. -/
theorem Hands.at {s : Queue p c} (h : s.Hands prog) {k : Thread p c} {pc : Pc}
    (hpc : (s.threads k).pc = pc) : Local.Hands prog k ⟨pc, (s.threads k).el⟩ := by
  rw [← hpc]
  exact h k

theorem Hands.next {s : Queue p c} {a : Act p c} (h : s.Hands prog)
    (he : (conforming prog bound p c).enabled s a) : (s.next prog a).Hands prog := by
  intro k
  rcases step_next he.1 k with heq | hstep
  · rw [heq]
    exact h k
  · exact hstep.hands rfl (h k) he.2

end Queue

theorem hands_inv {s : Queue p c} (h : (conforming prog bound p c).Reachable s) :
    s.Hands prog := by
  refine h.induct ?_ fun _ _ _ hs he => hs.next he
  rintro s ⟨-, -, -, -, -, ht, -⟩ k
  rw [ht k]
  cases k with
  | inl i => rfl
  | inr j => exact fun _ => rfl

/-- Every step of `elements.cpp` conforms. -/
theorem conforms_elements {s : Queue p c} {a : Act p c}
    (hs : (conforming .elements bound p c).Reachable s) (he : s.enabled bound a) :
    Conforms .elements s a := by
  cases a with
  | enter k =>
    have hk := (hands_inv hs).at he.1
    cases k with
    | inl i => trivial
    | inr j => exact hk rfl
  | leave k =>
    cases k with
    | inl i => trivial
    | inr j => exact nofun
  | _ => trivial

theorem exec_elements {s₀ s : Queue p c} {as : List (Act p c)}
    (h₀ : (queue .elements bound p c).init s₀) (h : (queue .elements bound p c).Exec s₀ as s) :
    (conforming .elements bound p c).Exec s₀ as s :=
  h.to_restrict h₀ fun _ _ hs he => conforms_elements hs he

theorem conforming_elements {s : Queue p c} (h : (queue .elements bound p c).Reachable s) :
    (conforming .elements bound p c).Reachable s := by
  obtain ⟨s₀, as, h₀, hrun⟩ := h
  exact ⟨s₀, as, h₀, exec_elements h₀ hrun⟩

/-! ## The balance -/

/-- The elements in the hands of a thread: a producer's until it has emplaced it, a
consumer's since it has popped it. -/
def Local.held : Thread p c → Local → Nat
  | .inl _, x => if x.el = none then 0 else 1
  | .inr _, x => if x.el = none ∨ x.pc = .pop then 0 else 1

/-- The same, if the thread is on that side. -/
def Local.heldOn (producers : Bool) (k : Thread p c) (x : Local) : Nat :=
  if k.isLeft = producers then x.held k else 0

theorem Local.held_le_one (k : Thread p c) (x : Local) : x.held k ≤ 1 := by
  cases k <;> simp only [Local.held] <;> split <;> decide

/-- The step changes what is in the hands of a thread. -/
def Act.handles : Act p c → Bool
  | .produce _ | .emplace .. | .pop .. | .consume _ => true
  | _ => false

/-- Only for a consumer that pops it matters where a thread is. -/
theorem Local.heldOn_congr {x y : Local} (b : Bool) (k : Thread p c) (hel : y.el = x.el)
    (hx : x.pc ≠ .pop) (hy : y.pc ≠ .pop) : y.heldOn b k = x.heldOn b k := by
  cases k <;> simp [Local.heldOn, Local.held, hel, hx, hy]

theorem Local.Step.heldOn_eq {k : Thread p c} {a : Act p c} {x y : Local}
    (hstep : Local.Step prog k a x y) (b : Bool) (hx : x.Hands prog k) (ha : a.handles = false) :
    y.heldOn b k = x.heldOn b k := by
  cases hstep with
  | produce | emplace | pop | consume => cases ha
  | take =>
    obtain rfl : _ = none := hx
    simp [Local.heldOn, Local.held]
  | _ => exact heldOn_congr b k rfl (by simp) (by simp)

namespace Queue

/-- The elements in the hands of the producers, or of the consumers. -/
def held (producers : Bool) (s : Queue p c) : Nat := ∑ k, (s.threads k).heldOn producers k

theorem held_set (b : Bool) (s : Queue p c) (k : Thread p c) (x : Local) :
    (s.set k x).held b + (s.threads k).heldOn b k = s.held b + x.heldOn b k :=
  sum_update_add_of_index (fun k x => Local.heldOn b k x) s.threads k x

theorem held_keep {b : Bool} {s : Queue p c} {k : Thread p c} {x : Local}
    (h : x.heldOn b k = (s.threads k).heldOn b k) : (s.set k x).held b = s.held b := by
  have hsum := s.held_set b k x
  rw [h] at hsum
  exact Nat.add_right_cancel hsum

theorem held_gain {b : Bool} {s : Queue p c} {k : Thread p c} {x : Local}
    (hk : (s.threads k).heldOn b k = 0) (hx : x.heldOn b k = 1) :
    (s.set k x).held b = s.held b + 1 := by
  have hsum := s.held_set b k x
  rwa [hk, hx, Nat.add_zero] at hsum

theorem held_lose {b : Bool} {s : Queue p c} {k : Thread p c} {x : Local}
    (hk : (s.threads k).heldOn b k = 1) (hx : x.heldOn b k = 0) :
    (s.set k x).held b + 1 = s.held b := by
  have hsum := s.held_set b k x
  rwa [hk, hx, Nat.add_zero] at hsum

/-- The other steps handle no element, or move one in a consumer's hands. -/
theorem held_next {s : Queue p c} {a : Act p c} (he : s.enabled bound a) (hh : s.Hands prog)
    (ha : a.handles = false) (b : Bool) : (s.next prog a).held b = s.held b := by
  refine Finset.sum_congr rfl fun k _ => ?_
  rcases step_next he k with heq | hstep
  · rw [heq]
  · exact hstep.heldOn_eq b (hh k) ha

end Queue

/-- What was produced was emplaced, or is in a producer's hands; what was popped was
consumed, or is in a consumer's. -/
structure Accounted (as : List (Act p c)) (s : Queue p c) : Prop where
  produced : s.numProduced = (emplaced as).length + s.held true
  popped : (popped as).length = s.numConsumed + s.held false

section

variable {as : List (Act p c)} {s t : Queue p c}

open Queue

/-- A step that handles no element. -/
theorem Accounted.keep {a : Act p c} (h : Accounted as s) (hp : t.numProduced = s.numProduced)
    (hc : t.numConsumed = s.numConsumed) (hheld : ∀ b, t.held b = s.held b)
    (hemp : a.emplaced = none) (hpop : a.popped = none) : Accounted (as ++ [a]) t := by
  refine ⟨?_, ?_⟩
  · rw [emplaced_snoc, hp, hheld, hemp, h.produced]
    simp
  · rw [popped_snoc, hc, hheld, hpop, ← h.popped]
    simp

theorem Accounted.produce {i : Fin p} (h : Accounted as s) (hh : s.Hands prog)
    (he : (s.threads (.inl i)).pc = .produce) :
    Accounted (as ++ [.produce i]) (s.next prog (.produce i)) := by
  have hnone : (s.threads (.inl i)).el = none := hh.at he
  have hgain : (s.set (.inl i) ⟨.lock, some s.numProduced⟩).held true = s.held true + 1 :=
    held_gain (by simp [Local.heldOn, Local.held, hnone]) (by simp [Local.heldOn, Local.held])
  refine ⟨?_, ?_⟩
  · rw [emplaced_snoc]
    show s.numProduced + 1 = _ + (s.set (.inl i) _).held true
    rw [hgain, h.produced]
    simp [Act.emplaced, Nat.add_assoc]
  · rw [popped_snoc]
    show _ = s.numConsumed + (s.set (.inl i) _).held false
    rw [held_keep (by simp [Local.heldOn]), ← h.popped]
    simp [Act.popped]

theorem Accounted.emplace {i : Fin p} {e : Nat} (h : Accounted as s)
    (he : s.threads (.inl i) = ⟨.emplace, some e⟩) :
    Accounted (as ++ [.emplace i e]) (s.next prog (.emplace i e)) := by
  have hlose : (s.set (.inl i) ⟨.unlock, none⟩).held true + 1 = s.held true :=
    held_lose (by simp [Local.heldOn, Local.held, he]) (by simp [Local.heldOn, Local.held])
  refine ⟨?_, ?_⟩
  · rw [emplaced_snoc]
    show s.numProduced = _ + (s.set (.inl i) _).held true
    rw [h.produced, ← hlose]
    simp only [Act.emplaced, Option.toList_some, List.length_append, List.length_singleton]
    omega
  · rw [popped_snoc]
    show _ = s.numConsumed + (s.set (.inl i) _).held false
    rw [held_keep (by simp [Local.heldOn]), ← h.popped]
    simp [Act.popped]

theorem Accounted.pop {j : Fin c} {e : Nat} (h : Accounted as s) (hh : s.Hands prog)
    (he : (s.threads (.inr j)).pc = .pop) :
    Accounted (as ++ [.pop j e]) (s.next prog (.pop j e)) := by
  have hsome : (s.threads (.inr j)).el ≠ none := hh.at he
  have hgain : (s.goto (.inr j) .unlock).held false = s.held false + 1 :=
    held_gain (by simp [Local.heldOn, Local.held, he]) (by simp [Local.heldOn, Local.held, hsome])
  refine ⟨?_, ?_⟩
  · rw [emplaced_snoc]
    show s.numProduced = _ + (s.set (.inr j) _).held true
    rw [held_keep (by simp [Local.heldOn]), h.produced]
    simp [Act.emplaced]
  · rw [popped_snoc]
    show _ = s.numConsumed + (s.goto (.inr j) .unlock).held false
    rw [hgain]
    simp [Act.popped, h.popped, Nat.add_assoc]

theorem Accounted.consume {j : Fin c} (h : Accounted as s) (hh : s.Hands prog)
    (he : (s.threads (.inr j)).pc = .consume) :
    Accounted (as ++ [.consume j]) (s.next prog (.consume j)) := by
  have hsome : (s.threads (.inr j)).el ≠ none := hh.at he
  have hlose : (s.set (.inr j) ⟨prog.afterConsume, none⟩).held false + 1 = s.held false :=
    held_lose (by simp [Local.heldOn, Local.held, hsome, he]) (by simp [Local.heldOn, Local.held])
  refine ⟨?_, ?_⟩
  · rw [emplaced_snoc]
    show s.numProduced = _ + (s.set (.inr j) _).held true
    rw [held_keep (by simp [Local.heldOn]), h.produced]
    simp [Act.emplaced]
  · rw [popped_snoc]
    show _ = s.numConsumed + 1 + (s.set (.inr j) _).held false
    simp only [Act.popped, Option.toList_none, List.append_nil, h.popped]
    rw [← hlose]
    omega

theorem Accounted.next {a : Act p c} (h : Accounted as s) (hh : s.Hands prog)
    (he : s.enabled bound a) : Accounted (as ++ [a]) (s.next prog a) := by
  cases a with
  | produce i => exact h.produce hh he
  | emplace i e => exact h.emplace he
  | pop j e => exact h.pop hh he.1
  | consume j => exact h.consume hh he
  | notifyOne k woken =>
    have hheld := @held_next p c prog bound s (.notifyOne k woken) he hh rfl
    cases woken with
    | none => exact h.keep rfl rfl hheld rfl rfl
    | some w => exact h.keep rfl rfl hheld rfl rfl
  | _ => exact h.keep rfl rfl (held_next he hh rfl) rfl rfl

end

theorem accounted_inv {s₀ s : Queue p c} {as : List (Act p c)}
    (h₀ : (queue prog bound p c).init s₀) (h : (conforming prog bound p c).Exec s₀ as s) :
    Accounted as s := by
  induction h with
  | nil =>
    obtain ⟨-, -, -, hp, hc, ht, -⟩ := h₀
    have hheld : ∀ b, s₀.held b = 0 := fun b => Finset.sum_eq_zero fun k _ => by
      rw [ht k]
      cases k <;> simp [Local.heldOn, Local.held]
    exact ⟨by rw [hp, hheld]; rfl, by rw [hc, hheld]; rfl⟩
  | snoc hrun he ih => exact ih.next (hands_inv ⟨_, _, h₀, hrun⟩) he.1

/-- What was produced was consumed, or is in the buffer or in some thread's hands. -/
theorem produced_eq {s₀ s : Queue p c} {as : List (Act p c)}
    (h₀ : (queue prog bound p c).init s₀) (h : (conforming prog bound p c).Exec s₀ as s) :
    s.numProduced = s.numConsumed + s.buffer.length + (s.held true + s.held false) := by
  obtain ⟨hproduced, hpopped⟩ := accounted_inv h₀ h
  rw [hproduced, emplaced_eq h₀ h.of_restrict, List.length_append, hpopped]
  omega

/-! ## The producers that give up -/

/-- The thread has returned with an element. -/
def Local.GaveUp (x : Local) : Prop := x.pc = .returned ∧ x.el ≠ none

/-- The producers that have given up are those that have quit. -/
def Quits (as : List (Act p c)) (s : Queue p c) : Prop :=
  ∀ i, .quit (.inl i) ∈ as ↔ (s.threads (.inl i)).GaveUp

theorem mem_snoc_iff {as : List (Act p c)} {a b : Act p c} (h : b ≠ a) :
    b ∈ as ++ [a] ↔ b ∈ as := by
  simp [h]

/-- A producer gives up when it quits. -/
theorem Local.Step.gaveUp_iff {i : Fin p} {a : Act p c} {x y : Local}
    (hstep : Local.Step .elements (.inl i) a x y) (hx : x.Hands .elements (.inl i : Thread p c))
    (ha : a ≠ .quit (.inl i)) : y.GaveUp ↔ x.GaveUp := by
  cases hstep with
  | quit => exact absurd rfl ha
  | leave =>
    obtain rfl : _ = none := hx
    simp [Local.GaveUp]
  | _ => simp [Local.GaveUp, afterEnter, afterGuard, afterNotify, Program.afterUnlock]

theorem Quits.next {as : List (Act p c)} {s : Queue p c} {a : Act p c} (h : Quits as s)
    (hh : s.Hands .elements) (he : s.enabled bound a) :
    Quits (as ++ [a]) (s.next .elements a) := by
  intro i
  by_cases ha : a = .quit (.inl i)
  · subst ha
    have hsome : (s.threads (.inl i)).el ≠ none := hh.at he.1
    simp [Queue.next, Local.GaveUp, hsome]
  · rw [mem_snoc_iff (Ne.symm ha), h i]
    rcases Queue.step_next he (.inl i) with heq | hstep
    · rw [heq]
    · exact (hstep.gaveUp_iff (hh _) ha).symm

theorem quits_inv {s₀ s : Queue p c} {as : List (Act p c)}
    (h₀ : (queue .elements bound p c).init s₀) (h : (queue .elements bound p c).Exec s₀ as s) :
    Quits as s := by
  induction h with
  | nil =>
    intro i
    simp [Local.GaveUp, h₀.2.2.2.2.2.1 (.inl i)]
  | snoc hrun he ih =>
    exact ih.next (hands_inv (conforming_elements (hrun.reachable h₀))) he

/-! ## The numbers that `main` prints -/

/-- What the `std::atomic<int>` of this many increments holds. -/
def atomicInt (increments : Nat) : Int32 := Int32.ofNat increments

def Queue.Balances (s : Queue p c) : Prop :=
  (atomicInt s.numProduced).toInt = (atomicInt s.numConsumed).toInt + s.buffer.length

instance (s : Queue p c) : Decidable s.Balances :=
  inferInstanceAs (Decidable (_ = _))

/-- A call of `produce_element`. -/
def Act.produces : Act p c → Bool
  | .produce _ => true
  | _ => false

/-- How many elements are produced. -/
def produced (as : List (Act p c)) : Nat := as.countP Act.produces

theorem numProduced_next {s : Queue p c} {a : Act p c} (hproduce : ∀ i, a ≠ .produce i) :
    (s.next prog a).numProduced = s.numProduced := by
  cases a with
  | produce i => exact absurd rfl (hproduce i)
  | notifyOne k woken => cases woken <;> rfl
  | _ => rfl

theorem numProduced_eq {s₀ s : Queue p c} {as : List (Act p c)}
    (h₀ : (queue prog bound p c).init s₀) (h : (queue prog bound p c).Exec s₀ as s) :
    s.numProduced = produced as := by
  induction h with
  | nil => exact h₀.2.2.2.1
  | @snoc as s a hrun he ih =>
    show (s.next prog a).numProduced = _
    rw [produced, List.countP_append, List.countP_singleton]
    by_cases ha : ∃ i, a = .produce i
    · obtain ⟨i, rfl⟩ := ha
      show s.numProduced + 1 = _
      rw [ih]
      rfl
    · rw [numProduced_next (not_exists.mp ha), ih]
      cases a with
      | produce i => exact absurd ⟨i, rfl⟩ ha
      | _ => rfl

/-- Below `2 ^ 31` the counters are the numbers of increments. -/
theorem balances_iff {s : Queue p c} (hlt : s.numProduced < 2 ^ 31)
    (hle : s.numConsumed ≤ s.numProduced) :
    s.Balances ↔ s.numProduced = s.numConsumed + s.buffer.length := by
  unfold Queue.Balances atomicInt
  rw [Int32.toInt_ofNat_of_lt hlt, Int32.toInt_ofNat_of_lt (hle.trans_lt hlt)]
  omega

def Queue.AllReturned (s : Queue p c) : Prop := ∀ k, (s.threads k).pc = .returned

instance (s : Queue p c) : Decidable s.AllReturned :=
  inferInstanceAs (Decidable (∀ _, _))

/-- When all have returned, what a producer holds it has given up. -/
theorem held_true_eq_zero_iff {s : Queue p c} (hr : s.AllReturned) :
    s.held true = 0 ↔ ∀ i, ¬ (s.threads (.inl i)).GaveUp := by
  unfold Queue.held
  rw [Finset.sum_eq_zero_iff]
  constructor
  · intro h i hg
    have hi := h (.inl i) (Finset.mem_univ _)
    simp [Local.heldOn, Local.held, hg.2] at hi
  · intro h k _
    cases k with
    | inl i =>
      have hnone : (s.threads (.inl i)).el = none := by
        by_contra hsome
        exact h i ⟨hr (.inl i), hsome⟩
      simp [Local.heldOn, Local.held, hnone]
    | inr j => simp [Local.heldOn]

/-- A consumer returns with empty hands. -/
theorem held_false_eq_zero {s : Queue p c} (hh : s.Hands prog) (hr : s.AllReturned) :
    s.held false = 0 := by
  refine Finset.sum_eq_zero fun k _ => ?_
  cases k with
  | inl i => simp [Local.heldOn]
  | inr j =>
    have hnone : (s.threads (.inr j)).el = none := hh.at (hr (.inr j))
    simp [Local.heldOn, Local.held, hnone]

/-- When all producers and consumers have returned, and the counters have not wrapped around,
the numbers balance exactly if no producer has found the buffer full and `done` set. -/
theorem final_balance_iff {s₀ s : Queue p c} {as : List (Act p c)}
    (h₀ : (queue .elements bound p c).init s₀) (h : (queue .elements bound p c).Exec s₀ as s)
    (hlt : produced as < 2 ^ 31) (hr : s.AllReturned) :
    s.Balances ↔ ∀ i, .quit (.inl i) ∉ as := by
  have hconf := exec_elements h₀ h
  have heq := produced_eq h₀ hconf
  rw [held_false_eq_zero (hands_inv ⟨_, _, h₀, hconf⟩) hr, Nat.add_zero] at heq
  have hle : s.numConsumed ≤ s.numProduced := by omega
  have hq := quits_inv h₀ h
  simp only [hq _]
  rw [balances_iff (by rwa [numProduced_eq h₀ h]) hle, ← held_true_eq_zero_iff hr, heq]
  exact Nat.add_eq_left

/-- One producer fills the buffer, with no consumer waiting. -/
def fill : List (Act 1 1) := (List.range MAX).flatMap emplaceOne

/-- It stops before it produces another element. -/
def stopped : List (Act 1 1) := fill ++ [.setDone, .leave (.inl only), .leave (.inr only)]

/-- It stops with another element in its hands. -/
def stoppedFull : List (Act 1 1) :=
  fill ++ [.enter (.inl only), .produce only, .lock (.inl only), .mustWait (.inl only), .setDone,
    .quit (.inl only), .leave (.inr only)]

theorem stopped_runs : ((queue .elements MAX 1 1).run (.start 1 1) stopped).isSome := by
  decide

theorem stoppedFull_runs : ((queue .elements MAX 1 1).run (.start 1 1) stoppedFull).isSome := by
  decide

theorem final_balance_stopped :
    (((queue .elements MAX 1 1).run (.start 1 1) stopped).get stopped_runs).Balances :=
  (final_balance_iff (Queue.start_init .elements MAX) (Machine.exec_run_get stopped_runs)
    (by decide) (by decide)).mpr (by decide)

theorem lastElement_lost :
    ∃ s, (queue .elements MAX 1 1).Exec (.start 1 1) stoppedFull s ∧ s.AllReturned ∧
      ¬ s.Balances :=
  ⟨_, Machine.exec_run_get stoppedFull_runs, by decide, by decide⟩

end SisProg.Threads
