import SisProg.Lib.Termination
import SisProg.Lib.Threads

/-!
# Critical sections

Threads that touch a shared state in sections guarded by one mutex, and nowhere else. A
section is a list of accesses, each of which reads and writes the shared state and what is
local to its thread. The threads are interleaved access by access.

* `serialization`: seen from outside, a section is executed at once, when the mutex is taken.
  So what is proved of the `atomic` machine holds whenever the mutex is free
  (`reachable_atomic`).
* `inside`: the thread that holds the mutex has performed a part of one section since it was
  free.
* `reachable_give`: that a thread decides as it goes which sections it enters makes no
  difference.
* `sections_decreases`, `sections_progress`: no thread is stuck, and all of them end.
-/

namespace SisProg.Sections

variable {ι σ ℓ : Type}

/-- An access to the shared state and to the local one. -/
abbrev Access (σ ℓ : Type) := σ → ℓ → σ × ℓ

/-- The accesses between `lock` and `unlock`. -/
abbrev Section (σ ℓ : Type) := List (Access σ ℓ)

/-- The accesses, one after the other. -/
def perform : Section σ ℓ → σ → ℓ → σ × ℓ
  | [], x, l => (x, l)
  | f :: fs, x, l => perform fs (f x l).1 (f x l).2

/-- The threads, with the sections that they have yet to enter. The thread that holds the
mutex has `rest` left to do. -/
structure State (ι σ ℓ : Type) where
  shared : σ
  locals : ι → ℓ
  todo : ι → List (Section σ ℓ)
  owner : Option ι
  rest : Section σ ℓ

/-- The same, with nobody inside. -/
structure Atomic (ι σ ℓ : Type) where
  shared : σ
  locals : ι → ℓ
  todo : ι → List (Section σ ℓ)

inductive Act (ι : Type)
  | lock (i : ι)
  | access (i : ι)
  | unlock (i : ι)
deriving DecidableEq

section

variable [DecidableEq ι]

def State.enabled (s : State ι σ ℓ) : Act ι → Prop
  | .lock i => s.owner = none ∧ s.todo i ≠ []
  | .access i => s.owner = some i ∧ s.rest ≠ []
  | .unlock i => s.owner = some i ∧ s.rest = []

def State.next (s : State ι σ ℓ) : Act ι → State ι σ ℓ
  | .lock i =>
    { s with
      todo := Function.update s.todo i (s.todo i).tail
      owner := some i
      rest := (s.todo i).headD [] }
  | .access i =>
    match s.rest with
    | [] => s
    | f :: fs =>
      { s with
        shared := (f s.shared (s.locals i)).1
        locals := Function.update s.locals i (f s.shared (s.locals i)).2
        rest := fs }
  | .unlock _ => { s with owner := none }

instance (s : State ι σ ℓ) (a : Act ι) : Decidable (s.enabled a) := by
  cases a <;> unfold State.enabled <;> infer_instance

/-- The thread `i` executes its next section at once. -/
def Atomic.next (s : Atomic ι σ ℓ) (i : ι) : Atomic ι σ ℓ where
  shared := (perform ((s.todo i).headD []) s.shared (s.locals i)).1
  locals :=
    Function.update s.locals i (perform ((s.todo i).headD []) s.shared (s.locals i)).2
  todo := Function.update s.todo i (s.todo i).tail

variable (program : ι → List (Section σ ℓ)) (x : σ) (l : ι → ℓ)

/-- The threads, access by access. -/
def sections : Machine (State ι σ ℓ) (Act ι) where
  init s := s = ⟨x, l, program, none, []⟩
  enabled := State.enabled
  next := State.next

/-- The threads, section by section. -/
def atomic : Machine (Atomic ι σ ℓ) ι where
  init s := s = ⟨x, l, program⟩
  enabled s i := s.todo i ≠ []
  next := Atomic.next

/-! ## Serialization -/

/-- The state when the section has been executed that is being executed. -/
def State.settle (s : State ι σ ℓ) : Atomic ι σ ℓ :=
  match s.owner with
  | none => ⟨s.shared, s.locals, s.todo⟩
  | some i =>
    { shared := (perform s.rest s.shared (s.locals i)).1
      locals := Function.update s.locals i (perform s.rest s.shared (s.locals i)).2
      todo := s.todo }

/-- The thread that takes the mutex. -/
def Act.locks : Act ι → Option ι
  | .lock i => some i
  | _ => none

variable {program x l} {s t : State ι σ ℓ}

theorem settle_of_free (h : s.owner = none) : s.settle = ⟨s.shared, s.locals, s.todo⟩ := by
  unfold State.settle
  rw [h]

theorem settle_of_owner {i : ι} (h : s.owner = some i) : s.settle =
    { shared := (perform s.rest s.shared (s.locals i)).1
      locals := Function.update s.locals i (perform s.rest s.shared (s.locals i)).2
      todo := s.todo } := by
  unfold State.settle
  rw [h]

theorem settle_lock {i : ι} (h : s.owner = none) :
    (s.next (.lock i)).settle = s.settle.next i := by
  rw [settle_of_free h]
  rfl

theorem settle_access {i : ι} (h : s.owner = some i) : (s.next (.access i)).settle = s.settle := by
  rw [settle_of_owner h]
  cases hrest : s.rest with
  | nil =>
    have hnext : s.next (.access i) = s := by simp only [State.next, hrest]
    rw [hnext, settle_of_owner h, hrest]
  | cons f fs =>
    have hnext : s.next (.access i) =
        { s with
          shared := (f s.shared (s.locals i)).1
          locals := Function.update s.locals i (f s.shared (s.locals i)).2
          rest := fs } := by
      simp only [State.next, hrest]
    rw [hnext]
    simp only [State.settle, h, Function.update_self, Function.update_idem, perform]

theorem settle_unlock {i : ι} (h : s.owner = some i) (hrest : s.rest = []) :
    (s.next (.unlock i)).settle = s.settle := by
  rw [settle_of_owner h, hrest]
  simp only [State.next, State.settle, perform, Function.update_eq_self]

/-- The threads refine those that execute each section at once. -/
def serialization (program : ι → List (Section σ ℓ)) (x : σ) (l : ι → ℓ) :
    Machine.Simulation (sections program x l) (atomic program x l) where
  abs := State.settle
  label := Act.locks
  init s hs := by
    have hs' : s = ⟨x, l, program, none, []⟩ := hs
    rw [hs']
    rfl
  silent s a he hlabel := by
    cases a with
    | lock i => cases hlabel
    | access i => exact settle_access he.1
    | unlock i => exact settle_unlock he.1 he.2
  visible s a i he hlabel := by
    cases a with
    | lock j =>
      obtain rfl : j = i := Option.some.inj hlabel
      refine ⟨?_, settle_lock he.1⟩
      rw [settle_of_free he.1]
      exact he.2
    | access | unlock => cases hlabel

theorem reachable_atomic (h : (sections program x l).Reachable s) :
    (atomic program x l).Reachable s.settle :=
  (serialization program x l).reachable h

/-! ## The thread inside -/

theorem perform_append (fs gs : Section σ ℓ) (x : σ) (l : ℓ) :
    perform (fs ++ gs) x l = perform gs (perform fs x l).1 (perform fs x l).2 := by
  induction fs generalizing x l with
  | nil => rfl
  | cons f fs ih => exact ih _ _

/-- The thread `i` has performed `done` of a section that it entered in the state `t`. -/
structure Entered (s : State ι σ ℓ) (i : ι) (t : State ι σ ℓ) (done : Section σ ℓ) : Prop where
  free : t.owner = none
  todo : t.todo = Function.update s.todo i ((done ++ s.rest) :: s.todo i)
  shared : s.shared = (perform done t.shared (t.locals i)).1
  own : s.locals i = (perform done t.shared (t.locals i)).2

theorem inside (h : (sections program x l).Reachable s) {i : ι} (hi : s.owner = some i) :
    ∃ t done, (sections program x l).Reachable t ∧ Entered s i t done := by
  revert i
  refine h.induct (P := fun s => ∀ {i : ι}, s.owner = some i →
    ∃ t done, (sections program x l).Reachable t ∧ Entered s i t done) ?_ ?_
  · intro s hs i hi
    have hs' : s = ⟨x, l, program, none, []⟩ := hs
    rw [hs'] at hi
    cases hi
  · intro s a hreach hs he j hj
    cases a with
    | lock i =>
      obtain rfl : i = j := Option.some.inj hj
      obtain ⟨hfree, hne⟩ := he
      obtain ⟨sec, secs, hsecs⟩ := List.exists_cons_of_ne_nil hne
      refine ⟨s, [], hreach, hfree, ?_, rfl, rfl⟩
      simp only [sections, State.next, hsecs, List.tail_cons, List.headD_cons, List.nil_append,
        Function.update_self, Function.update_idem]
      rw [← hsecs, Function.update_eq_self]
    | access i =>
      obtain ⟨howner, hne⟩ := he
      obtain ⟨f, fs, hfs⟩ := List.exists_cons_of_ne_nil hne
      simp only [sections, State.next, hfs] at hj ⊢
      obtain rfl : i = j := Option.some.inj (howner.symm.trans hj)
      obtain ⟨t, done, ht, hentered⟩ := hs howner
      refine ⟨t, done ++ [f], ht, hentered.free, ?_, ?_, ?_⟩
      · rw [hentered.todo, hfs]
        simp
      · rw [perform_append, ← hentered.shared, ← hentered.own]
        rfl
      · rw [perform_append, ← hentered.shared, ← hentered.own]
        exact Function.update_self _ _ _
    | unlock i => cases hj

/-! ## Threads that find out what to do as they go -/

/-- The thread `i` has nothing left to do. -/
structure State.Idle (s : State ι σ ℓ) (i : ι) : Prop where
  outside : s.owner ≠ some i
  todo : s.todo i = []

instance (s : State ι σ ℓ) (i : ι) : Decidable (s.Idle i) :=
  decidable_of_iff (s.owner ≠ some i ∧ s.todo i = [])
    ⟨fun h => ⟨h.1, h.2⟩, fun h => ⟨h.outside, h.todo⟩⟩

/-- After what is left for it, the thread `i` is to enter one more section. -/
def State.give (s : State ι σ ℓ) (i : ι) (sec : Section σ ℓ) : State ι σ ℓ :=
  { s with todo := Function.update s.todo i (s.todo i ++ [sec]) }

theorem give_enabled {i : ι} {sec : Section σ ℓ} {a : Act ι} (he : s.enabled a) :
    (s.give i sec).enabled a := by
  cases a with
  | lock j =>
    refine ⟨he.1, ?_⟩
    rcases eq_or_ne j i with rfl | hne
    · simp [State.give]
    · simpa [State.give, hne] using he.2
  | access | unlock => exact he

theorem give_next {i : ι} {sec : Section σ ℓ} {a : Act ι} (he : s.enabled a) :
    (s.give i sec).next a = (s.next a).give i sec := by
  cases a with
  | lock j =>
    obtain ⟨first, secs, hsecs⟩ := List.exists_cons_of_ne_nil he.2
    rcases eq_or_ne j i with rfl | hne
    · simp [State.give, State.next, hsecs]
    · simp only [State.give, State.next, Function.update_of_ne hne, Function.update_of_ne hne.symm]
      rw [Function.update_comm hne]
  | access j =>
    obtain ⟨f, fs, hfs⟩ := List.exists_cons_of_ne_nil he.2
    simp only [State.give, State.next, hfs]
  | unlock => rfl

/-- A section that is given late might as well have been there from the start. -/
def giving (program : ι → List (Section σ ℓ)) (x : σ) (l : ι → ℓ) (i : ι) (sec : Section σ ℓ) :
    Machine.Simulation (sections program x l)
      (sections (Function.update program i (program i ++ [sec])) x l) where
  abs s := s.give i sec
  label := some
  init s hs := by
    have hs' : s = ⟨x, l, program, none, []⟩ := hs
    rw [hs']
    rfl
  silent s a _ hlabel := by cases hlabel
  visible s a b he hlabel := by
    obtain rfl := Option.some.inj hlabel
    exact ⟨give_enabled he, (give_next he).symm⟩

theorem reachable_give (h : (sections program x l).Reachable s) (i : ι) (sec : Section σ ℓ) :
    (sections (Function.update program i (program i ++ [sec])) x l).Reachable (s.give i sec) :=
  (giving program x l i sec).reachable h

theorem State.Idle.give {i j : ι} (h : s.Idle j) (hne : j ≠ i) (sec : Section σ ℓ) :
    (s.give i sec).Idle j :=
  ⟨h.outside, (Function.update_of_ne hne _ _).trans h.todo⟩

theorem State.Idle.next {i : ι} (h : s.Idle i) {a : Act ι} (he : s.enabled a) :
    (s.next a).Idle i := by
  cases a with
  | lock j =>
    have hne : i ≠ j := by
      rintro rfl
      exact he.2 h.todo
    exact ⟨fun howner => hne (Option.some.inj howner).symm,
      (Function.update_of_ne hne _ _).trans h.todo⟩
  | access j =>
    obtain ⟨f, fs, hfs⟩ := List.exists_cons_of_ne_nil he.2
    simp only [State.next, hfs]
    exact ⟨h.outside, h.todo⟩
  | unlock => exact ⟨by simp [State.next], h.todo⟩

/-! ## All threads end -/

/-- Every thread has left its last section. -/
def State.Finished (s : State ι σ ℓ) : Prop := s.owner = none ∧ ∀ i, s.todo i = []

theorem sections_progress (h : ¬ s.Finished) : ∃ a, (sections program x l).enabled s a := by
  cases howner : s.owner with
  | none =>
    have hsome : ∃ i, s.todo i ≠ [] := by
      by_contra hnone
      exact h ⟨howner, fun i => not_not.mp (not_exists.mp hnone i)⟩
    obtain ⟨i, hi⟩ := hsome
    exact ⟨.lock i, howner, hi⟩
  | some i =>
    cases hrest : s.rest with
    | nil => exact ⟨.unlock i, howner, hrest⟩
    | cons f fs => exact ⟨.access i, howner, by rw [hrest]; simp⟩

/-- The steps for some sections: two more than there are accesses in each. -/
def steps : List (Section σ ℓ) → Nat
  | [] => 0
  | sec :: secs => sec.length + 2 + steps secs

variable [Fintype ι]

/-- The steps that are left. -/
def State.left (s : State ι σ ℓ) : Nat :=
  ∑ i, steps (s.todo i) + if s.owner.isSome then s.rest.length + 1 else 0

theorem left_lock {i : ι} (howner : s.owner = none) (hne : s.todo i ≠ []) :
    (s.next (.lock i)).left < s.left := by
  obtain ⟨sec, secs, hsecs⟩ := List.exists_cons_of_ne_nil hne
  have hsum := sum_update_add steps s.todo i secs
  rw [hsecs, steps] at hsum
  simp only [State.left, State.next, howner, hsecs, List.tail_cons, List.headD_cons,
    Option.isSome_some, Option.isSome_none, if_true]
  simp only [Bool.false_eq_true, if_false]
  omega

theorem sections_decreases : (sections program x l).Decreases (fun _ => True) State.left := by
  intro s a _ he
  refine ⟨trivial, ?_⟩
  cases a with
  | lock i => exact left_lock he.1 he.2
  | access i =>
    obtain ⟨howner, hne⟩ := he
    obtain ⟨f, fs, hfs⟩ := List.exists_cons_of_ne_nil hne
    simp only [sections, State.left, State.next, hfs, howner, List.length_cons]
    exact Nat.lt_succ_self _
  | unlock i =>
    simp only [sections, State.left, State.next, he.1, he.2]
    exact Nat.lt_succ_self _

end

end SisProg.Sections
