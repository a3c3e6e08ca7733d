import SisProg.Lib.Tickets
import SisProg.Threads.Balance

/-!
# Which element a consumer gets

`consumer` copies `buffer.back()` and then calls `buffer.pop()`, which removes the front.
With one element in the buffer the two are the same. With more, the consumer gets the
newest element, the oldest one is removed and nobody gets it, and the newest is still
there for the next consumer.

The producers draw the numbers of their elements from a counter (`ticketing`), so no element
is emplaced twice. `handover_iff`: in a run every element is handed over once and in order
exactly if each consumer has found the buffer with one element.
-/

namespace SisProg.Threads

variable {p c : Nat} {prog : Program} {bound : Nat}

/-! ## No element is emplaced twice -/

theorem el_set (s : Queue p c) (i : Fin p) (x : Local) :
    (fun k => ((s.set (.inl i) x).threads (.inl k)).el)
      = Function.update (fun k => (s.threads (.inl k)).el) i x.el := by
  funext k
  rw [Queue.set_threads, Function.update_apply, Function.update_apply]
  by_cases hk : k = i <;> simp [hk]

theorem Local.Step.el_eq {i : Fin p} {a : Act p c} {x y : Local}
    (hstep : Local.Step prog (.inl i) a x y) (hproduce : a ≠ .produce i)
    (hemplace : ∀ e, a ≠ .emplace i e) : y.el = x.el := by
  cases hstep with
  | produce => exact absurd rfl hproduce
  | emplace => exact absurd rfl (hemplace _)
  | _ => rfl

/-- What a producer holds changes when it produces and when it emplaces. -/
theorem el_next {s : Queue p c} {a : Act p c} {i : Fin p} (he : s.enabled bound a)
    (hproduce : a ≠ .produce i) (hemplace : ∀ e, a ≠ .emplace i e) :
    ((s.next prog a).threads (.inl i)).el = (s.threads (.inl i)).el := by
  rcases Queue.step_next he (.inl i) with heq | hstep
  · rw [heq]
  · exact hstep.el_eq hproduce hemplace

theorem buffer_next {s : Queue p c} {a : Act p c} (hemplaced : a.emplaced = none)
    (hpopped : a.popped = none) : (s.next prog a).buffer = s.buffer := by
  cases a with
  | emplace i e => cases hemplaced
  | pop j e => cases hpopped
  | notifyOne k woken => cases woken <;> rfl
  | _ => rfl

/-- The producers draw the numbers of their elements and put them into the buffer. -/
def Queue.tickets (s : Queue p c) : Tickets (Fin p) where
  next := s.numProduced
  held i := (s.threads (.inl i)).el
  line := s.buffer

def Act.ticket : Act p c → Option (TicketAct (Fin p))
  | .produce i => some (.draw i)
  | .emplace i e => some (.file i e)
  | .pop _ e => some (.serve e)
  | _ => none

/-- A producer that produces an element has none. -/
def ticketing (bound p c : Nat) :
    Machine.Simulation
      ((conforming .elements bound p c).restrict fun s _ => Queue.Hands .elements s)
      (tickets (Fin p)) where
  abs := Queue.tickets
  label := Act.ticket
  init := by
    rintro s ⟨hb, -, -, hp, -, ht, -⟩
    exact ⟨hp, fun i => by simp [Queue.tickets, ht], hb⟩
  silent := by
    intro s a he ha
    have hproduce : ∀ i, a ≠ .produce i := by
      rintro i rfl
      cases ha
    have hemplace : ∀ i e, a ≠ .emplace i e := by
      rintro i e rfl
      cases ha
    have hheld : ∀ i, ((s.next .elements a).threads (.inl i)).el = (s.threads (.inl i)).el :=
      fun i => el_next he.1.1 (hproduce i) (hemplace i)
    have hbuffer : (s.next .elements a).buffer = s.buffer := by
      cases a with
      | emplace i e | pop j e => cases ha
      | _ => exact buffer_next rfl rfl
    show Queue.tickets (s.next .elements a) = Queue.tickets s
    rw [Queue.tickets, Queue.tickets, numProduced_next hproduce, hbuffer, funext hheld]
  visible := by
    rintro s a b ⟨⟨he, -⟩, hhands⟩ hb
    cases a with
    | produce i =>
      obtain rfl := Option.some.inj hb
      exact ⟨hhands.at he, congrArg (Tickets.mk (s.numProduced + 1) · s.buffer) (el_set s i _)⟩
    | emplace i e =>
      obtain rfl := Option.some.inj hb
      replace he : s.threads (.inl i) = ⟨.emplace, some e⟩ := he
      refine ⟨?_, congrArg (Tickets.mk s.numProduced · (s.buffer ++ [e])) (el_set s i _)⟩
      show (s.threads (.inl i)).el = some e
      rw [he]
    | pop j e =>
      obtain rfl := Option.some.inj hb
      exact ⟨he.2, rfl⟩
    | _ => cases hb

theorem ticketed {s₀ s : Queue p c} {as : List (Act p c)}
    (h₀ : (queue .elements bound p c).init s₀) (h : (queue .elements bound p c).Exec s₀ as s) :
    (tickets (Fin p)).Exec s₀.tickets (as.filterMap Act.ticket) s.tickets :=
  (ticketing bound p c).exec ((exec_elements h₀ h).to_restrict h₀ fun _ _ hs _ =>
    hands_inv hs.of_restrict)

theorem filed_ticket (as : List (Act p c)) : filed (as.filterMap Act.ticket) = emplaced as := by
  rw [filed, emplaced, List.filterMap_filterMap]
  refine List.filterMap_congr fun a _ => ?_
  cases a <;> rfl

theorem emplaced_nodup {s₀ s : Queue p c} {as : List (Act p c)}
    (h₀ : (queue .elements bound p c).init s₀) (h : (queue .elements bound p c).Exec s₀ as s) :
    (emplaced as).Nodup := by
  rw [← filed_ticket]
  exact (drawn_inv ((ticketing bound p c).init _ h₀) (ticketed h₀ h)).nodup

/-! ## Taking and popping -/

/-- Some consumer has taken an element and not popped yet. -/
def Queue.Popping (s : Queue p c) : Prop := ∃ j, (s.threads (.inr j)).pc = .pop

theorem Local.Step.pop_iff {k : Thread p c} {a : Act p c} {x y : Local}
    (hstep : Local.Step prog k a x y) (htaken : a.taken = none) (hpopped : a.popped = none) :
    y.pc = .pop ↔ x.pc = .pop := by
  cases hstep with
  | take => cases htaken
  | pop => cases hpopped
  | _ => simp

/-- The other steps neither begin nor end this. -/
theorem pop_next {s : Queue p c} {a : Act p c} (he : s.enabled bound a) (htaken : a.taken = none)
    (hpopped : a.popped = none) (i : Thread p c) :
    ((s.next prog a).threads i).pc = .pop ↔ (s.threads i).pc = .pop := by
  rcases Queue.step_next he i with heq | hstep
  · rw [heq]
  · exact hstep.pop_iff htaken hpopped

theorem popping_next {s : Queue p c} {a : Act p c} (he : s.enabled bound a)
    (htaken : a.taken = none) (hpopped : a.popped = none) :
    (s.next prog a).Popping ↔ s.Popping :=
  exists_congr fun j => pop_next he htaken hpopped (.inr j)

/-- A consumer that takes an element is alone inside the lock. -/
theorem not_popping_of_take {s : Queue p c} {j : Fin c} (h : s.Ok bound)
    (he : (s.threads (.inr j)).pc = .take) : ¬ s.Popping := by
  rintro ⟨j', hj'⟩
  have hlocks : (s.threads (.inr j)).locks = true := by simp [Local.locks, he]
  have hsame := h.mutex.alone hlocks (k := .inr j') (by simp [Local.locks, hj'])
  rw [hsame, he] at hj'
  cases hj'

theorem popping_take {s : Queue p c} {j : Fin c} {e : Nat} : (s.next prog (.take j e)).Popping :=
  ⟨j, by simp [Queue.next]⟩

theorem not_popping_pop {s : Queue p c} {j : Fin c} {e : Nat} (h : s.Ok bound)
    (he : (s.threads (.inr j)).pc = .pop) : ¬ (s.next prog (.pop j e)).Popping := by
  rintro ⟨j', hj'⟩
  have hlocks : (s.threads (.inr j)).locks = true := by simp [Local.locks, he]
  by_cases hne : (.inr j' : Thread p c) = .inr j
  · simp [Queue.next, hne] at hj'
  · have hout := h.mutex.outside hlocks hne
    simp [Queue.next, hne] at hj'
    simp [Local.locks, hj'] at hout

theorem act_cases (a : Act p c) :
    (∃ j e, a = .take j e) ∨ (∃ j e, a = .pop j e) ∨ a.taken = none ∧ a.popped = none := by
  cases a with
  | take j e => exact .inl ⟨j, e, rfl⟩
  | pop j e => exact .inr (.inl ⟨j, e, rfl⟩)
  | _ => exact .inr (.inr ⟨rfl, rfl⟩)

theorem popping_of_pop {s : Queue p c} {j : Fin c} {e : Nat} (he : s.enabled bound (.pop j e)) :
    s.Popping :=
  ⟨j, he.1⟩

/-- Elements are taken and popped in turn. -/
structure InTurn (as : List (Act p c)) (s : Queue p c) : Prop where
  popping : s.Popping → (taken as).length = (popped as).length + 1
  not_popping : ¬ s.Popping → (taken as).length = (popped as).length

theorem InTurn.next {as : List (Act p c)} {s : Queue p c} {a : Act p c} (h : InTurn as s)
    (hok : s.Ok bound) (he : s.enabled bound a) : InTurn (as ++ [a]) (s.next prog a) := by
  rcases act_cases a with ⟨j, e, rfl⟩ | ⟨j, e, rfl⟩ | ⟨htaken, hpopped⟩
  · have heq := h.not_popping (not_popping_of_take hok he.1)
    refine ⟨fun _ => ?_, fun hp => absurd popping_take hp⟩
    rw [taken_snoc, popped_snoc]
    simp [Act.taken, Act.popped, heq]
  · have heq := h.popping (popping_of_pop he)
    refine ⟨fun hp => absurd hp (not_popping_pop hok he.1), fun _ => ?_⟩
    rw [taken_snoc, popped_snoc]
    simp [Act.taken, Act.popped, heq]
  · have hiff : (s.next prog a).Popping ↔ s.Popping := popping_next he htaken hpopped
    refine ⟨fun hp => ?_, fun hp => ?_⟩ <;> rw [taken_snoc, popped_snoc, htaken, hpopped]
    · simpa using h.popping (hiff.mp hp)
    · simpa using h.not_popping fun hp' => hp (hiff.mpr hp')

theorem inTurn_inv {s₀ s : Queue p c} {as : List (Act p c)}
    (h₀ : (queue prog bound p c).init s₀) (h : (queue prog bound p c).Exec s₀ as s) :
    InTurn as s := by
  induction h with
  | nil =>
    refine ⟨?_, fun _ => rfl⟩
    rintro ⟨j, hj⟩
    rw [h₀.2.2.2.2.2.1 (.inr j)] at hj
    cases hj
  | snoc hrun he ih => exact ih.next (ok_inv (hrun.reachable h₀)) he

/-! ## One element in the buffer -/

/-- Each consumer has found one element in the buffer when it took one. -/
def SingleAtTakes (prog : Program) (bound : Nat) (s₀ : Queue p c) (as : List (Act p c)) : Prop :=
  ∀ bs j e cs t, as = bs ++ .take j e :: cs → (queue prog bound p c).Exec s₀ bs t →
    t.buffer.length = 1

/-- The elements are taken in the order in which they were emplaced, none twice, and none is
removed without having been taken. -/
def HandsOver (as : List (Act p c)) : Prop :=
  taken as <+: emplaced as ∧ (taken as).Nodup ∧ ∀ e ∈ popped as, e ∈ taken as

/-- What was popped was taken before. -/
structure HandedOver (as : List (Act p c)) (s : Queue p c) : Prop where
  popping : s.Popping → s.buffer.length = 1 ∧ taken as = popped as ++ s.buffer
  not_popping : ¬ s.Popping → taken as = popped as

/-- Nobody emplaces an element while a consumer pops. -/
theorem not_emplaced_of_popping {s : Queue p c} {a : Act p c} (hok : s.Ok bound)
    (hp : s.Popping) (he : s.enabled bound a) : a.emplaced = none := by
  cases a with
  | emplace i e =>
    obtain ⟨j, hj⟩ := hp
    have hi : s.threads (.inl i) = ⟨.emplace, some e⟩ := he
    have hsame := hok.mutex.alone (i := .inr j) (k := .inl i) (by simp [Local.locks, hj])
      (by simp [Local.locks, hi])
    cases hsame
  | _ => rfl

theorem HandedOver.next {as : List (Act p c)} {s : Queue p c} {a : Act p c} (h : HandedOver as s)
    (hok : s.Ok bound) (he : s.enabled bound a)
    (hone : ∀ j e, a = .take j e → s.buffer.length = 1) :
    HandedOver (as ++ [a]) (s.next prog a) := by
  rcases act_cases a with ⟨j, e, rfl⟩ | ⟨j, e, rfl⟩ | ⟨htaken, hpopped⟩
  · have heq := h.not_popping (not_popping_of_take hok he.1)
    have hlen := hone j e rfl
    obtain ⟨x, hx⟩ := List.length_eq_one_iff.mp hlen
    obtain rfl : x = e := by simpa [hx] using he.2
    refine ⟨fun _ => ⟨hlen, ?_⟩, fun hp => absurd popping_take hp⟩
    rw [taken_snoc, popped_snoc, heq]
    simp [Act.taken, Act.popped, Queue.next, hx]
  · obtain ⟨hlen, heq⟩ := h.popping (popping_of_pop he)
    obtain ⟨x, hx⟩ := List.length_eq_one_iff.mp hlen
    obtain rfl : x = e := by simpa [hx] using he.2
    refine ⟨fun hp => absurd hp (not_popping_pop hok he.1), fun _ => ?_⟩
    rw [taken_snoc, popped_snoc, heq]
    simp [Act.taken, Act.popped, hx]
  · have hiff : (s.next prog a).Popping ↔ s.Popping := popping_next he htaken hpopped
    refine ⟨fun hp => ?_, fun hp => ?_⟩ <;> rw [taken_snoc, popped_snoc, htaken, hpopped]
    · rw [buffer_next (not_emplaced_of_popping hok (hiff.mp hp) he) hpopped]
      simpa using h.popping (hiff.mp hp)
    · simpa using h.not_popping fun hp' => hp (hiff.mpr hp')

theorem handedOver_of_single {s₀ s : Queue p c} {as : List (Act p c)}
    (h₀ : (queue prog bound p c).init s₀) (h : (queue prog bound p c).Exec s₀ as s)
    (hone : SingleAtTakes prog bound s₀ as) : HandedOver as s := by
  induction h with
  | nil =>
    refine ⟨?_, fun _ => rfl⟩
    rintro ⟨j, hj⟩
    rw [h₀.2.2.2.2.2.1 (.inr j)] at hj
    cases hj
  | @snoc as t a hrun he ih =>
    have hone' : SingleAtTakes prog bound s₀ as := by
      rintro bs j e cs u rfl hu
      exact hone bs j e (cs ++ [a]) u (by simp) hu
    refine (ih hone').next (ok_inv (hrun.reachable h₀)) he ?_
    rintro j e rfl
    exact hone as j e [] t rfl hrun

theorem handsOver_of_single {s₀ s : Queue p c} {as : List (Act p c)}
    (h₀ : (queue .elements bound p c).init s₀) (h : (queue .elements bound p c).Exec s₀ as s)
    (hone : SingleAtTakes .elements bound s₀ as) : HandsOver as := by
  have hover := handedOver_of_single h₀ h hone
  have hnodup := emplaced_nodup h₀ h
  have hemp := emplaced_eq h₀ h
  by_cases hp : s.Popping
  · have htaken := (hover.popping hp).2
    rw [← hemp] at htaken
    rw [HandsOver, htaken]
    exact ⟨List.prefix_rfl, hnodup, fun e he => hemp ▸ List.mem_append_left _ he⟩
  · have htaken := hover.not_popping hp
    have hsub : taken as <+: emplaced as := by
      rw [htaken, hemp]
      exact List.prefix_append _ _
    exact ⟨hsub, hnodup.sublist hsub.sublist, fun e he => htaken ▸ he⟩

/-- A consumer that takes an element when the buffer holds more gets the wrong one. -/
theorem single_of_handsOver {s₀ s : Queue p c} {as : List (Act p c)}
    (h₀ : (queue .elements bound p c).init s₀) (h : (queue .elements bound p c).Exec s₀ as s)
    (hover : HandsOver as) : SingleAtTakes .elements bound s₀ as := by
  rintro bs j e cs t rfl ht
  obtain ⟨t', ht', he, -⟩ := h.enabled_of_cons
  obtain rfl := ht.unique ht'
  have hlen := (inTurn_inv h₀ ht).not_popping
    (not_popping_of_take (ok_inv (ht.reachable h₀)) he.1)
  have hemp := emplaced_eq h₀ ht
  have hnodup := emplaced_nodup h₀ ht
  obtain ⟨rest, hrest⟩ := hover.1
  cases hb : t.buffer with
  | nil =>
    have hlast := he.2
    rw [hb] at hlast
    cases hlast
  | cons x buffer =>
    have htaken : taken (bs ++ .take j e :: cs) = taken bs ++ e :: taken cs := by
      simp [taken, Act.taken]
    have hemplaced : emplaced (bs ++ .take j e :: cs) = emplaced bs ++ emplaced cs := by
      rw [emplaced, List.filterMap_append]
      rfl
    rw [hb] at hemp
    -- the element taken is the next one to be popped
    have hx : e = x := by
      rw [htaken, hemplaced, hemp, List.append_assoc, List.append_assoc] at hrest
      exact (List.cons.inj (List.append_inj hrest hlen).2).1
    rw [hemp] at hnodup
    have hbuffer := (List.nodup_append.mp hnodup).2.1
    have hlast := he.2
    rw [hb, hx] at hlast
    cases buffer with
    | nil => rfl
    | cons y buffer =>
      rw [List.getLast?_cons_cons] at hlast
      exact absurd (List.mem_of_getLast? hlast) (List.nodup_cons.mp hbuffer).1

/-- A run hands over every element once and in order exactly if each consumer has found one
element in the buffer. -/
theorem handover_iff {s₀ s : Queue p c} {as : List (Act p c)}
    (h₀ : (queue .elements bound p c).init s₀) (h : (queue .elements bound p c).Exec s₀ as s) :
    HandsOver as ↔ SingleAtTakes .elements bound s₀ as :=
  ⟨single_of_handsOver h₀ h, handsOver_of_single h₀ h⟩

/-- The consumer takes an element, and another one when it has been emplaced. -/
def handed : List (Act 1 1) :=
  emplaceOne 0 ++
    [.enter (.inr only), .lock (.inr only), .proceed (.inr only), .take only 0, .pop only 0,
      .unlock (.inr only), .notifyOne (.inr only) none, .consume only] ++
  emplaceOne 1 ++
    [.enter (.inr only), .lock (.inr only), .proceed (.inr only), .take only 1, .pop only 1]

/-- The consumer finds two elements in the buffer. -/
def secondFirst : List (Act 1 1) :=
  emplaceOne 0 ++ emplaceOne 1 ++
    [.enter (.inr only), .lock (.inr only), .proceed (.inr only), .take only 1, .pop only 0]

theorem handed_runs : ((queue .elements MAX 1 1).run (.start 1 1) handed).isSome := by
  decide

theorem secondFirst_runs : ((queue .elements MAX 1 1).run (.start 1 1) secondFirst).isSome := by
  decide

theorem handover_handed : SingleAtTakes .elements MAX (.start 1 1) handed :=
  (handover_iff (Queue.start_init .elements MAX) (Machine.exec_run_get handed_runs)).mp
    ⟨by decide, by decide, by decide⟩

theorem secondFirst_taken :
    (∃ s, (queue .elements MAX 1 1).Exec (.start 1 1) secondFirst s) ∧ ¬ HandsOver secondFirst :=
  ⟨⟨_, Machine.exec_run_get secondFirst_runs⟩, fun h => absurd h.1 (by decide)⟩

end SisProg.Threads
