import SisProg.Threads.DeliveredOnce

/-!
# The program that never finishes

Nobody sets `producer_finished` in `multiple_cons_work.cpp`, so no consumer leaves its
loop; and `main` joins the consumers with the producers, before the notifications. When
all items have been produced and consumed, the consumers wait for one that never comes and
`main` waits for the consumers.

* `stranded_inv`: no consumer returns, and `main` does not get past the joins.
* `stuck_run`: whatever `total_items_to_produce` is, there is a run that produces and
  consumes all items one at a time and ends with all threads blocked.
* `never_finished`: both.
-/

namespace SisProg.Threads.MultipleConsWork

variable {c N bound : Nat}

namespace Queue

variable {s : Queue c}

/-- The thread is in its wait, not notified, and its predicate is false. -/
def Blocked (bound : Nat) (s : Queue c) (k : Thread c) : Prop :=
  (s.threads k).pc = .blocked ∧ ¬ s.Ready bound k

/-- Every thread that has not returned is blocked, and so is `main`, in a join. -/
structure Stuck (bound : Nat) (s : Queue c) : Prop where
  threads : ∀ k, (s.threads k).pc = .returned ∨ s.Blocked bound k
  main : s.main ≠ .returned ∧ ¬ s.MainReady

/-! ## The consumers do not return -/

/-- All consumers are still there to be joined. -/
structure Stranded (s : Queue c) : Prop where
  running : ∀ j, (s.threads (.inr j)).pc ≠ .returned
  main : ∃ rest, s.main = .joinProducers rest ∧ (List.finRange c).map .inr <:+ rest

theorem running_update {k : Thread c} {x : Local} (h : s.Stranded)
    (hx : k.isLeft = true ∨ x.pc ≠ .returned) (j : Fin c) :
    (Function.update s.threads k x (.inr j)).pc ≠ .returned := by
  rw [Function.update_apply]
  split
  · next hj => exact hx.resolve_left (by simp [← hj])
  · exact h.running j

theorem Stranded.mainNext (h : s.Stranded) (hc : 0 < c) (he : s.MainReady) :
    s.mainNext.Stranded := by
  obtain ⟨rest, hmain, hsuffix⟩ := h.main
  cases rest with
  | nil =>
    have hnil := List.suffix_nil.mp hsuffix
    rw [List.map_eq_nil_iff, List.finRange_eq_nil_iff] at hnil
    exact absurd hnil (Nat.ne_of_gt hc)
  | cons k rest =>
    simp only [MainReady, hmain] at he
    rw [Queue.mainNext, hmain]
    refine ⟨h.running, rest, rfl, ?_⟩
    rcases List.suffix_cons_iff.mp hsuffix with heq | hsuffix
    · -- the thread that `main` has joined is not a consumer
      have hk : k ∈ (List.finRange c).map .inr := heq ▸ List.mem_cons_self
      obtain ⟨j, -, rfl⟩ := List.mem_map.mp hk
      exact absurd he (h.running j)
    · exact hsuffix

theorem Stranded.next {a : Act c} (h : s.Stranded) (hok : s.Ok bound) (hc : 0 < c)
    (he : s.enabled N bound a) : (s.next N a).Stranded := by
  cases a with
  | quit j =>
    have hfinished := he.2.2
    rw [hok.not_finished] at hfinished
    cases hfinished
  | main => exact h.mainNext hc he
  | notifyOne k woken =>
    have hk : Queue.Stranded (s.set k ((s.threads k).again k)) :=
      ⟨running_update h (by cases k <;> simp [Local.again]), h.main⟩
    cases woken with
    | none => exact hk
    | some w => exact ⟨running_update hk (.inr (by simp)), h.main⟩
  | proceed k => exact ⟨running_update h (by cases k <;> simp [afterWait]), h.main⟩
  | _ => exact ⟨running_update h (by simp), h.main⟩

end Queue

theorem stranded_inv {s : Queue c} (hc : 0 < c) (h : (queue N bound c).Reachable s) :
    s.Stranded := by
  refine h.induct ?_ fun _ _ hs hp he => hp.next (ok_inv hs) hc he
  rintro s rfl
  exact ⟨nofun, producers c, rfl, List.suffix_append _ _⟩

/-! ## Parts of a run -/

namespace Queue

variable {s : Queue c}

/-- The state after an iteration of a producer that nobody disturbs. -/
def produce (s : Queue c) (i : Producer) : Queue c :=
  { s with
    buffer := s.buffer ++ [s.itemsProducedCount]
    itemsProducedCount := s.itemsProducedCount + 1
    threads := Function.update s.threads (.inl i)
      ⟨.test, (s.threads (.inl i)).i + 1, s.itemsProducedCount⟩ }

/-- The state after an iteration of a consumer. -/
def consume (s : Queue c) (j : Fin c) (n : Nat) : Queue c :=
  { s with
    buffer := s.buffer.tail
    threads := Function.update s.threads (.inr j) ⟨.lock, (s.threads (.inr j)).i, n⟩ }

/-- The state after a consumer has found the buffer empty. -/
def block (s : Queue c) (j : Fin c) : Queue c :=
  s.goto (.inr j) .blocked

theorem exec_produce (N bound : Nat) {i : Producer} (hmutex : s.mutex = none) (hlt : s.buffer.length < bound)
    (hpc : (s.threads (.inl i)).pc = .test)
    (hi : (s.threads (.inl i)).i < itemsPerProducer N i) (hcount : s.itemsProducedCount < N)
    (hblocked : ∀ j, (s.threads (.inr j)).pc ≠ .blocked) :
    ∃ as, (queue N bound c).Exec s as (s.produce i) := by
  have hguard := Nat.not_le.mpr hcount
  refine ⟨[.reserve i s.itemsProducedCount, .lock (.inl i), .proceed (.inl i),
    .push i s.itemsProducedCount, .unlock (.inl i), .notifyOne (.inl i) none],
    Machine.exec_of_run ?_⟩
  simp [Machine.run, queue, enabled, Queue.next, goto, set, Ready, produce, afterWait,
    Local.again, hmutex, hlt, hpc, hi, hguard, hblocked]

theorem exec_consume (N bound : Nat) {j : Fin c} {n : Nat} (hmutex : s.mutex = none)
    (hbuffer : s.buffer.head? = some n) (hpc : (s.threads (.inr j)).pc = .lock)
    (hblocked : ∀ i, (s.threads (.inl i)).pc ≠ .blocked) :
    ∃ as, (queue N bound c).Exec s as (s.consume j n) := by
  have hne : s.buffer ≠ [] := by
    intro hnil
    rw [hnil] at hbuffer
    cases hbuffer
  refine ⟨[.lock (.inr j), .proceed (.inr j), .stay j, .pop j n, .unlock (.inr j),
    .notifyOne (.inr j) none], Machine.exec_of_run ?_⟩
  simp [Machine.run, queue, enabled, Queue.next, goto, set, Ready, consume, afterWait,
    Local.again, hmutex, hbuffer, hne, hpc, hblocked]

theorem exec_block (N bound : Nat) {j : Fin c} (hmutex : s.mutex = none) (hbuffer : s.buffer = [])
    (hfinished : s.producerFinished = false) (hpc : (s.threads (.inr j)).pc = .lock) :
    ∃ as, (queue N bound c).Exec s as (s.block j) := by
  refine ⟨[.lock (.inr j), .mustWait (.inr j), .wait (.inr j)], Machine.exec_of_run ?_⟩
  simp [Machine.run, queue, enabled, Queue.next, goto, set, Ready, block, hmutex, hbuffer,
    hfinished, hpc]

/-- Between two iterations: the producers have made `a .one` and `a .two` items, and all of them
have been consumed. -/
structure Between (a : Producer → Nat) (s : Queue c) : Prop where
  buffer : s.buffer = []
  mutex : s.mutex = none
  made : ∀ i, (s.threads (.inl i)).pc = .test ∧ (s.threads (.inl i)).i = a i
  idle : ∀ j, (s.threads (.inr j)).pc = .lock
  main : s.main = .joinProducers (producers c)

theorem Between.consume_produce {a : Producer → Nat} (h : s.Between a) (i : Producer) (j : Fin c)
    (n : Nat) : ((s.produce i).consume j n).Between (Function.update a i (a i + 1)) := by
  refine ⟨by simp [consume, produce, h.buffer], h.mutex, fun k => ?_, fun k => ?_, h.main⟩
  · obtain ⟨hpc, hloop⟩ := h.made k
    by_cases hk : k = i
    · subst hk
      simp [consume, produce, hloop]
    · simp [consume, produce, hk, hpc, hloop]
  · by_cases hk : k = j <;> simp [consume, produce, hk, h.idle]

/-- One more item is made and consumed. -/
theorem Between.item {a : Producer → Nat} {i : Producer} (h : s.Between a)
    (hs : (queue N bound c).Reachable s) (hi : a i < itemsPerProducer N i) (hbound : 0 < bound)
    (j : Fin c) :
    ∃ as t, (queue N bound c).Exec s as t ∧ t.Between (Function.update a i (a i + 1)) := by
  obtain ⟨hpc, hloop⟩ := h.made i
  rw [← hloop] at hi
  obtain ⟨as, hpush⟩ := exec_produce N bound h.mutex
    (by rw [h.buffer]; exact hbound) hpc hi ((progress_inv hs).count_lt hpc hi)
    (by simp [h.idle])
  have hblocked : ∀ k, ((s.produce i).threads (.inl k)).pc ≠ .blocked := by
    intro k
    by_cases hk : k = i <;> simp [produce, hk, (h.made k).1]
  obtain ⟨bs, hpop⟩ := exec_consume N bound (s := s.produce i) (j := j)
    (n := s.itemsProducedCount) h.mutex (by simp [produce, h.buffer])
    (by simp [produce, h.idle]) hblocked
  exact ⟨as ++ bs, _, hpush.append hpop, h.consume_produce i j _⟩

/-- A producer makes all its items. -/
theorem Between.items {a : Producer → Nat} (i : Producer) (h : s.Between a)
    (hs : (queue N bound c).Reachable s) (hi : a i ≤ itemsPerProducer N i) (hbound : 0 < bound)
    (j : Fin c) :
    ∃ as t, (queue N bound c).Exec s as t ∧
      t.Between (Function.update a i (itemsPerProducer N i)) := by
  generalize hd : itemsPerProducer N i - a i = d
  induction d generalizing s a with
  | zero =>
    have heq : itemsPerProducer N i = a i := Nat.le_antisymm (Nat.sub_eq_zero_iff_le.mp hd) hi
    exact ⟨[], s, .nil, by rwa [heq, Function.update_eq_self]⟩
  | succ d ih =>
    have hlt : a i < itemsPerProducer N i := Nat.lt_of_sub_eq_succ hd
    obtain ⟨as, t, hrun, ht⟩ := h.item hs hlt hbound j
    obtain ⟨bs, u, hrun', hu⟩ := ih ht (hs.exec hrun) (by rw [Function.update_self]; exact hlt)
      (by rw [Function.update_self]; omega)
    rw [Function.update_idem] at hu
    exact ⟨as ++ bs, u, hrun.append hrun', hu⟩

/-- The producers have returned, and the consumers in `js` are blocked. -/
structure Ending (js : List (Fin c)) (s : Queue c) : Prop where
  buffer : s.buffer = []
  mutex : s.mutex = none
  finished : s.Finished
  blocked : ∀ j ∈ js, (s.threads (.inr j)).pc = .blocked
  idle : ∀ j, j ∉ js → (s.threads (.inr j)).pc = .lock
  main : s.main = .joinProducers ((List.finRange c).map .inr)

theorem Between.ending (bound : Nat) (h : s.Between (itemsPerProducer N)) :
    ∃ as t, (queue N bound c).Exec s as t ∧ t.Ending [] := by
  have hrun : (queue N bound c).run s [.finish .one, .finish .two, .main, .main]
      = some { (s.goto (.inl .one) .returned).goto (.inl .two) .returned with
          main := .joinProducers ((List.finRange c).map .inr) } := by
    simp [Machine.run, queue, enabled, Queue.next, goto, set, MainReady, Queue.mainNext,
      producers, h.made, h.main]
  refine ⟨_, _, Machine.exec_of_run hrun, h.buffer, h.mutex, fun i => ?_, fun j hj => ?_, fun j _ => ?_, rfl⟩
  · cases i <;> simp [goto, set]
  · exact absurd hj List.not_mem_nil
  · simp [goto, set, h.idle]

/-- One consumer after the other finds the buffer empty. -/
theorem Ending.all (h : s.Ending []) (hs : (queue N bound c).Reachable s) (js : List (Fin c)) :
    ∃ as t, (queue N bound c).Exec s as t ∧ t.Ending js := by
  induction js with
  | nil => exact ⟨[], s, .nil, h⟩
  | cons j js ih =>
    obtain ⟨as, t, hrun, ht⟩ := ih
    by_cases hj : j ∈ js
    · refine ⟨as, t, hrun, ht.buffer, ht.mutex, ht.finished, ?_, fun k hk => ht.idle k ?_, ht.main⟩
      · intro k hk
        rcases List.mem_cons.mp hk with rfl | hk
        · exact ht.blocked k hj
        · exact ht.blocked k hk
      · exact fun hmem => hk (List.mem_cons_of_mem j hmem)
    · obtain ⟨bs, hblock⟩ := exec_block N bound ht.mutex ht.buffer
        (ok_inv (hs.exec hrun)).not_finished (ht.idle j hj)
      refine ⟨as ++ bs, t.block j, hrun.append hblock, ht.buffer, ht.mutex, ?_, ?_, ?_, ht.main⟩
      · intro i
        simpa [block, goto, set] using ht.finished i
      · intro k hk
        by_cases hkj : k = j
        · simp [block, goto, set, hkj]
        · simpa [block, goto, set, hkj] using ht.blocked k ((List.mem_cons.mp hk).resolve_left hkj)
      · intro k hk
        rw [List.mem_cons, not_or] at hk
        simpa [block, goto, set, hk.1] using ht.idle k hk.2

theorem Ending.stuck (h : s.Ending (List.finRange c)) (hs : (queue N bound c).Reachable s)
    (hc : 0 < c) : s.Stuck bound := by
  refine ⟨fun k => ?_, ?_, fun hmain => ?_⟩
  · cases k with
    | inl i => exact .inl (h.finished i)
    | inr j =>
      refine .inr ⟨h.blocked j (List.mem_finRange j), ?_⟩
      simp [Ready, h.buffer, (ok_inv hs).not_finished]
  · rw [h.main]
    exact nofun
  · cases hjoin : (List.finRange c).map (Sum.inr : Fin c → Thread c) with
    | nil =>
      rw [List.map_eq_nil_iff, List.finRange_eq_nil_iff] at hjoin
      exact Nat.ne_of_gt hc hjoin
    | cons k rest =>
      have hk : k ∈ (List.finRange c).map Sum.inr := hjoin ▸ List.mem_cons_self
      obtain ⟨j, hj, rfl⟩ := List.mem_map.mp hk
      simp only [MainReady, h.main, hjoin, h.blocked j hj] at hmain
      cases hmain

end Queue

/-- All items are produced and consumed, and then nobody can go on. -/
theorem stuck_run (N : Nat) {bound c : Nat} (hbound : 0 < bound) (hc : 0 < c) :
    ∃ as s, (queue N bound c).Exec (.start c) as s ∧ s.Stuck bound ∧
      (consumed as).Perm (List.range N) := by
  have h₀ : (queue N bound c).init (.start c) := rfl
  have hstart : (Queue.start c).Between fun _ => 0 :=
    ⟨rfl, rfl, fun _ => ⟨rfl, rfl⟩, fun _ => rfl, rfl⟩
  obtain ⟨as₁, s₁, hrun₁, h₁⟩ := hstart.items .one ⟨_, _, h₀, .nil⟩ (Nat.zero_le _)
    hbound ⟨0, hc⟩
  obtain ⟨as₂, s₂, hrun₂, h₂⟩ := h₁.items .two (hrun₁.reachable h₀) (Nat.zero_le _) hbound ⟨0, hc⟩
  have hall : Function.update (Function.update (fun _ => 0) .one (itemsPerProducer N .one)) .two
      (itemsPerProducer N .two) = itemsPerProducer N :=
    funext fun i => by cases i <;> rfl
  rw [hall] at h₂
  have hrun₁₂ := hrun₁.append hrun₂
  obtain ⟨as₃, s₃, hrun₃, h₃⟩ := h₂.ending bound
  have hrun₁₃ := hrun₁₂.append hrun₃
  obtain ⟨as₄, s₄, hrun₄, h₄⟩ := h₃.all (hrun₁₃.reachable h₀) (List.finRange c)
  have hrun := hrun₁₃.append hrun₄
  refine ⟨_, s₄, hrun, h₄.stuck (hrun.reachable h₀) hc, ?_⟩
  have hpushed := pushed_eq h₀ hrun
  rw [h₄.buffer, List.append_nil] at hpushed
  rw [← hpushed]
  exact pushed_perm h₀ hrun h₄.finished

/-- With any number of items and of consumers the program gets stuck, and in no run does
`main` return. -/
theorem never_finished (N : Nat) (hbound : 0 < bound) (hc : 0 < c) :
    (∃ as s, (queue N bound c).Exec (.start c) as s ∧ s.Stuck bound ∧
      (consumed as).Perm (List.range N)) ∧
    ∀ s, (queue N bound c).Reachable s →
      s.main ≠ .returned ∧ ∀ j, (s.threads (.inr j)).pc ≠ .returned := by
  refine ⟨stuck_run N hbound hc, fun s hs => ?_⟩
  obtain ⟨hrunning, rest, hmain, -⟩ := stranded_inv hc hs
  exact ⟨by rw [hmain]; exact nofun, hrunning⟩

theorem never_finished_one : ∃ as s, (queue 1 10 3).Exec (.start 3) as s ∧ s.Stuck 10 ∧
    (consumed as).Perm (List.range 1) :=
  (never_finished 1 (by decide) (by decide)).1

/-- The program as it stands: 50 items, a buffer of 10 and three consumers. -/
theorem fifty_stuck : ∃ s, (queue 50 10 3).Reachable s ∧ s.Stuck 10 := by
  have hbound : 0 < 10 := by decide
  have hc : 0 < 3 := by decide
  obtain ⟨as, s, hrun, hstuck, -⟩ := stuck_run 50 hbound hc
  exact ⟨s, ⟨_, as, rfl, hrun⟩, hstuck⟩

end SisProg.Threads.MultipleConsWork
