import SisProg.Lib.Bytes
import SisProg.Lib.Sections

/-!
# Lines of the log

`Log::print` writes its arguments to `std::cout`, one after the other, and then `std::endl`,
all under `log_mtx`. The workers of the pool call it, and so do the tasks that they run.

`log_lines`: however the threads are interleaved, what they have written is a sequence of
whole lines, those of each thread in the order in which it has printed them; only the last
line may be unfinished, by the thread that holds the mutex.
-/

namespace SisProg.Scheduler

open Sections (Access Section sections atomic)

/-- The arguments of a call of `Log::print`, as they are written. -/
abbrev Message := List Bytes

def endl : Bytes := [10]

/-- What a call writes. -/
def line (args : Message) : Bytes := args.flatten ++ endl

/-- `std::cout << arg`. -/
def write (arg : Bytes) : Access Bytes Unit := fun out _ => (out ++ arg, ())

/-- `Log::print`. -/
def print (args : Message) : Section Bytes Unit := (args ++ [endl]).map write

variable {ι : Type} [DecidableEq ι]

/-- The calls that each thread makes; `out` was there before. -/
def printing (calls : ι → List Message) (out : Bytes) :
    Machine (Sections.State ι Bytes Unit) (Sections.Act ι) :=
  sections (fun i => (calls i).map print) out fun _ => ()

theorem perform_write (args : List Bytes) (out : Bytes) :
    (Sections.perform (args.map write) out ()).1 = out ++ args.flatten := by
  induction args generalizing out with
  | nil => simp [Sections.perform]
  | cons arg args ih =>
    rw [List.map_cons, Sections.perform]
    simp only [write, ih, List.flatten_cons, List.append_assoc]

theorem perform_print (args : Message) (out : Bytes) :
    (Sections.perform (print args) out ()).1 = out ++ line args := by
  rw [print, perform_write, line]
  simp

/-- The calls of a thread, of all that were made. -/
def callsOf (i : ι) (order : List (ι × Message)) : List Message :=
  (order.filter (·.1 = i)).map Prod.snd

theorem callsOf_snoc (i j : ι) (order : List (ι × Message)) (args : Message) :
    callsOf i (order ++ [(j, args)]) =
      callsOf i order ++ if j = i then [args] else [] := by
  unfold callsOf
  rw [List.filter_append, List.map_append, List.filter_singleton]
  split <;> simp_all

theorem count_callsOf (i : ι) (args : Message) (order : List (ι × Message)) :
    (callsOf i order).count args = order.count (i, args) := by
  induction order with
  | nil => rfl
  | cons c order ih =>
    obtain ⟨j, args'⟩ := c
    rcases eq_or_ne j i with rfl | hne
    · simp_all [callsOf, List.count_cons]
    · simp_all [callsOf]

/-- Where the calls of each of some threads are the same, they are the same together. -/
theorem perm_of_callsOf {p : ι → Bool} {order order' : List (ι × Message)}
    (h : ∀ i, p i = true → callsOf i order = callsOf i order') :
    (order.filter fun c => p c.1).Perm (order'.filter fun c => p c.1) := by
  rw [List.perm_iff_count]
  rintro ⟨i, args⟩
  by_cases hp : p i = true
  · have hcount (l : List (ι × Message)) :
        (l.filter fun c => p c.1).count (i, args) = (callsOf i l).count args := by
      rw [count_callsOf]
      exact List.count_filter hp
    rw [hcount, hcount, h i hp]
  · have hnone (l : List (ι × Message)) :
        (l.filter fun c => p c.1).count (i, args) = 0 := by
      rw [List.count_eq_zero]
      simp [hp]
    rw [hnone, hnone]

variable {calls : ι → List Message} {out : Bytes}

/-- The lines are those of calls that were made in some order, each thread's in its own; the
calls that are left come after them. -/
structure Printed (calls : ι → List Message) (out : Bytes) (order : List (ι × Message))
    (s : Sections.Atomic ι Bytes Unit) : Prop where
  shared : s.shared = out ++ order.flatMap fun c => line c.2
  todo : ∀ i, ∃ rest, s.todo i = rest.map print ∧ callsOf i order ++ rest = calls i

/-- Call by call. -/
theorem atomic_printed {s : Sections.Atomic ι Bytes Unit}
    (h : (atomic (fun i => (calls i).map print) out fun _ => ()).Reachable s) :
    ∃ order, Printed calls out order s := by
  refine h.induct (P := fun s => ∃ order, Printed calls out order s) ?_ ?_
  · intro s hs
    have hs' : s = ⟨out, fun _ => (), fun i => (calls i).map print⟩ := hs
    subst hs'
    exact ⟨[], by simp, fun i => ⟨calls i, rfl, rfl⟩⟩
  · intro s i _ hs he
    obtain ⟨order, hshared, htodo⟩ := hs
    obtain ⟨rest, hrest, hcalls⟩ := htodo i
    cases rest with
    | nil => exact absurd hrest he
    | cons args rest =>
      rw [List.map_cons] at hrest
      simp only [atomic, Sections.Atomic.next, hrest, List.tail_cons, List.headD_cons]
      refine ⟨order ++ [(i, args)], ?_, ?_⟩
      · rw [perform_print, hshared]
        simp
      · intro j
        rw [callsOf_snoc]
        rcases eq_or_ne j i with rfl | hne
        · refine ⟨rest, Function.update_self _ _ _, ?_⟩
          rw [if_pos rfl, List.append_assoc]
          exact hcalls
        · obtain ⟨rest', hrest', hcalls'⟩ := htodo j
          refine ⟨rest', (Function.update_of_ne hne _ _).trans hrest', ?_⟩
          rw [if_neg hne.symm, List.append_nil]
          exact hcalls'

/-- Access by access: `part` is what the thread that holds the mutex has written of its line. -/
structure Lines (calls : ι → List Message) (out : Bytes) (order : List (ι × Message))
    (part : Bytes) (s : Sections.State ι Bytes Unit) : Prop where
  shared : s.shared = out ++ (order.flatMap fun c => line c.2) ++ part
  free : s.owner = none → part = []
  outside : ∀ i, s.owner ≠ some i →
    ∃ rest, s.todo i = rest.map print ∧ callsOf i order ++ rest = calls i
  inside : ∀ i, s.owner = some i →
    ∃ args pieces rest, pieces <+: args ++ [endl] ∧ part = pieces.flatten ∧
      callsOf i order ++ args :: rest = calls i

theorem printing_lines {s : Sections.State ι Bytes Unit} (h : (printing calls out).Reachable s) :
    ∃ order part, Lines calls out order part s := by
  cases howner : s.owner with
  | none =>
    have hatomic := Sections.reachable_atomic h
    rw [Sections.settle_of_free howner] at hatomic
    obtain ⟨order, hshared, htodo⟩ := atomic_printed hatomic
    refine ⟨order, [], ?_, fun _ => rfl, fun i _ => htodo i, by simp [howner]⟩
    rw [List.append_nil]
    exact hshared
  | some i =>
    obtain ⟨t, done, ht, hentered⟩ := Sections.inside h howner
    have hatomic := Sections.reachable_atomic ht
    rw [Sections.settle_of_free hentered.free] at hatomic
    obtain ⟨order, hshared, htodo⟩ := atomic_printed hatomic
    -- the section that was entered is the next call of the thread
    obtain ⟨rest, hrest, hcalls⟩ := htodo i
    simp only [hentered.todo, Function.update_self] at hrest
    cases rest with
    | nil => cases hrest
    | cons args rest =>
      rw [List.map_cons, List.cons.injEq] at hrest
      obtain ⟨pieces, hpieces, hdone⟩ : ∃ pieces, pieces <+: args ++ [endl] ∧
          done = pieces.map write := by
        have hprefix : done <+: (args ++ [endl]).map write := ⟨s.rest, hrest.1⟩
        exact List.prefix_map_iff.mp hprefix
      refine ⟨order, pieces.flatten, ?_, by simp [howner], ?_, ?_⟩
      · rw [hentered.shared, hdone]
        have hperform := perform_write pieces t.shared
        simp only at hshared
        rw [hshared] at hperform ⊢
        exact hperform
      · intro j hj
        have hne : j ≠ i := by
          rintro rfl
          exact hj howner
        obtain ⟨rest', hrest', hcalls'⟩ := htodo j
        simp only [hentered.todo, Function.update_of_ne hne] at hrest'
        exact ⟨rest', hrest', hcalls'⟩
      · intro j hj
        obtain rfl := Option.some.inj (howner.symm.trans hj)
        exact ⟨args, pieces, rest, hpieces, rfl, hcalls⟩

theorem Lines.callsOf_prefix {order : List (ι × Message)} {part : Bytes}
    {s : Sections.State ι Bytes Unit} (h : Lines calls out order part s) (i : ι) :
    callsOf i order <+: calls i := by
  by_cases howner : s.owner = some i
  · obtain ⟨args, -, rest, -, -, hcalls⟩ := h.inside i howner
    exact ⟨args :: rest, hcalls⟩
  · obtain ⟨rest, -, hcalls⟩ := h.outside i howner
    exact ⟨rest, hcalls⟩

/-- The thread that holds the mutex writes its next line. -/
theorem Lines.next_line {order : List (ι × Message)} {part : Bytes}
    {s : Sections.State ι Bytes Unit} (h : Lines calls out order part s) {i : ι}
    (hi : s.owner = some i) : ∃ args pieces, pieces <+: args ++ [endl] ∧
      part = pieces.flatten ∧ callsOf i order ++ [args] <+: calls i := by
  obtain ⟨args, pieces, rest, hpieces, hpart, hcalls⟩ := h.inside i hi
  exact ⟨args, pieces, hpieces, hpart, rest, by rw [← hcalls]; simp⟩

/-- The lines of a thread that is in no call and has none left are all there. -/
theorem Lines.callsOf_idle {order : List (ι × Message)} {part : Bytes}
    {s : Sections.State ι Bytes Unit} (h : Lines calls out order part s) {i : ι} (hi : s.Idle i) :
    callsOf i order = calls i := by
  obtain ⟨rest, hrest, hcalls⟩ := h.outside i hi.outside
  rw [hi.todo, eq_comm, List.map_eq_nil_iff] at hrest
  rwa [hrest, List.append_nil] at hcalls

/-- However the threads are interleaved, the output is a sequence of whole lines, with those
of each thread in its own order, and of a part of the next line of the thread that holds the
mutex; if none does, there is no such part. When all calls have returned every line is
there. -/
theorem log_lines {s : Sections.State ι Bytes Unit} (h : (printing calls out).Reachable s) :
    ∃ order part, s.shared = out ++ (order.flatMap fun c => line c.2) ++ part ∧
      (∀ i, callsOf i order <+: calls i) ∧ (s.owner = none → part = []) ∧
      (∀ i, s.owner = some i → ∃ args pieces, pieces <+: args ++ [endl] ∧ part = pieces.flatten ∧
        callsOf i order ++ [args] <+: calls i) ∧
      (s.Finished → ∀ i, callsOf i order = calls i) := by
  obtain ⟨order, part, hlines⟩ := printing_lines h
  refine ⟨order, part, hlines.shared, hlines.callsOf_prefix, hlines.free,
    fun i hi => hlines.next_line hi, ?_⟩
  intro hfinished i
  exact hlines.callsOf_idle ⟨by simp [hfinished.1], hfinished.2 i⟩

/-- The worker `false` prints the number of its task, the other one is in a task that prints. -/
def twoWorkers : Bool → List Message
  | false => [["Task ".toUTF8.toList, "1".toUTF8.toList]]
  | true => [["done\n".toUTF8.toList]]

def twoWorkersStart : Sections.State Bool Bytes Unit where
  shared := []
  locals _ := ()
  todo i := (twoWorkers i).map print
  owner := none
  rest := []

def twoWorkersRun : List (Sections.Act Bool) :=
  [.lock true, .access true, .access true, .unlock true, .lock false, .access false]

def twoWorkersInside : Sections.State Bool Bytes Unit :=
  twoWorkersRun.foldl Sections.State.next twoWorkersStart

theorem twoWorkers_reachable : (printing twoWorkers []).Reachable twoWorkersInside := by
  have hrun : (printing twoWorkers []).Exec twoWorkersStart twoWorkersRun twoWorkersInside :=
    .cons ⟨rfl, List.cons_ne_nil _ _⟩ (.cons ⟨rfl, List.cons_ne_nil _ _⟩
      (.cons ⟨rfl, List.cons_ne_nil _ _⟩ (.cons ⟨rfl, rfl⟩ (.cons ⟨rfl, List.cons_ne_nil _ _⟩
      (.single ⟨rfl, List.cons_ne_nil _ _⟩)))))
  exact hrun.reachable rfl

theorem log_lines_twoWorkers : ∃ order part,
    twoWorkersInside.shared = [] ++ (order.flatMap fun c => line c.2) ++ part ∧
      ∀ i, callsOf i order <+: twoWorkers i := by
  obtain ⟨order, part, hshared, hcalls, -⟩ := log_lines twoWorkers_reachable
  exact ⟨order, part, hshared, hcalls⟩

end SisProg.Scheduler
