import SisProg.Lib.Printf
import SisProg.Scheduler.Conservation
import SisProg.Scheduler.Log

/-!
# The pool and the log together

The pool in one machine with `Log::print`. Before a worker calls its task it prints the
task's line, and the work functions print what they want; so do other threads, such as the
workers of another pool.

`tasks_logged`: the log is whole lines and a part of one. When a work function is called, the
line of its task is there, as the last one of the worker. When all workers have returned,
they have written one line for each task that was enqueued, and what the work functions
printed.
-/

namespace SisProg.Scheduler

open ThreadPool

variable {Work κ : Type} {n m : Nat}

/-- The line of a task. `time` is what `timeToString` has returned; since the result of
`std::localtime` is shared by all threads, it need not be the time of this task. -/
def announcement (u : Task Work) (time : Bytes) : Message :=
  [Bytes.ascii "Task ", Printf.signedDecimal u.id, Bytes.ascii ", start time: ", time,
    Bytes.ascii ", duration: ", Printf.signedDecimal u.duration, Bytes.ascii ", priority: ",
    Printf.signedDecimal u.priority]

/-- The pool, and the log of its workers and of other threads. `announced i` is the task that
the worker `i` is about to call and whose line it has given to `Log::print`. -/
structure LoggedPool (Work : Type) (n m : Nat) (κ : Type) where
  pool : ThreadPool Work n m
  announced : Fin n → Option (Task Work)
  log : Sections.State (Fin n ⊕ κ) Bytes Unit

/-- The steps.

* `pool a`: a step of the pool;
* `announce i u time`: the worker `i` calls `Log::print` for its task;
* `print j args`: the work function that the worker `j` runs calls `Log::print`, or another
  thread does;
* `log a`: a step inside `Log::print`. -/
inductive LogAct (Work : Type) (n m : Nat) (κ : Type)
  | pool (a : Act Work n m)
  | announce (i : Fin n) (u : Task Work) (time : Bytes)
  | print (j : Fin n ⊕ κ) (args : Message)
  | log (a : Sections.Act (Fin n ⊕ κ))

/-- The worker that takes a step. -/
def Act.worker : Act Work n m → Option (Fin n)
  | .lock i | .test i | .block i | .wakeUp i | .check i | .finish i => some i
  | .take i _ | .unlock i _ | .clock i _ | .sleepOver i _ | .call i _ => some i
  | .enqueue (.inl i) _ | .enqueueLock (.inl i) _ | .push (.inl i) _ => some i
  | .enqueueUnlock (.inl i) | .notifyOne (.inl i) _ => some i
  | _ => none

namespace LoggedPool

/-- The line of a task comes before its call. -/
def lineFirst (announced : Fin n → Option (Task Work)) (a : Act Work n m) : Prop :=
  ∀ i, a.worker = some i → a.called = none ∨ announced i = a.called

theorem announced_of_lineFirst {announced : Fin n → Option (Task Work)} {i : Fin n}
    {u : Task Work} (h : lineFirst announced (.call i u : Act Work n m)) :
    announced i = some u :=
  (h i rfl).resolve_left (Option.some_ne_none u)

def afterStep (announced : Fin n → Option (Task Work)) :
    Act Work n m → Fin n → Option (Task Work)
  | .call i _ => Function.update announced i none
  | _ => announced

/-- A worker prints from the work function that it runs, and not while that function is in
`enqueue`. -/
def mayPrint (s : LoggedPool Work n m κ) : Fin n ⊕ κ → Prop
  | .inl i => s.pool.workers i = .running none
  | .inr _ => True

variable [DecidableEq Work] [DecidableEq κ]

/-- A thread inside `Log::print` does nothing else. -/
def enabled (s : LoggedPool Work n m κ) : LogAct Work n m κ → Prop
  | .pool a =>
      s.pool.enabled a ∧ (∀ i, a.worker = some i → s.log.Idle (.inl i)) ∧
        lineFirst s.announced a
  | .announce i u _ =>
      s.pool.workers i = .call u ∧ s.announced i = none ∧ s.log.Idle (.inl i)
  | .print j _ => s.mayPrint j ∧ s.log.Idle j
  | .log a => s.log.enabled a

def next (s : LoggedPool Work n m κ) : LogAct Work n m κ → LoggedPool Work n m κ
  | .pool a => { s with pool := s.pool.next a, announced := afterStep s.announced a }
  | .announce i u time =>
    { s with
      announced := Function.update s.announced i (some u)
      log := s.log.give (.inl i) (print (announcement u time)) }
  | .print j args => { s with log := s.log.give j (print args) }
  | .log a => { s with log := s.log.next a }

end LoggedPool

instance (announced : Fin n → Option (Task Work)) (a : Act Work n m) [DecidableEq Work] :
    Decidable (LoggedPool.lineFirst announced a) :=
  inferInstanceAs (Decidable (∀ i, a.worker = some i → a.called = none ∨ announced i = a.called))

instance (s : LoggedPool Work n m κ) (j : Fin n ⊕ κ) [DecidableEq Work] :
    Decidable (s.mayPrint j) := by
  cases j <;> unfold LoggedPool.mayPrint <;> infer_instance

instance [DecidableEq Work] [DecidableEq κ] (s : LoggedPool Work n m κ)
    (a : LogAct Work n m κ) : Decidable (s.enabled a) := by
  cases a <;> unfold LoggedPool.enabled <;> infer_instance

/-- The pool and the log, from the end of the pool's constructor; `out` was written before. -/
def loggedPool (Work : Type) [DecidableEq Work] (n m : Nat) (κ : Type) [DecidableEq κ]
    (out : Bytes) : Machine (LoggedPool Work n m κ) (LogAct Work n m κ) where
  init s := (threadPool Work n m).init s.pool ∧ (∀ i, s.announced i = none) ∧
    s.log = ⟨out, fun _ => (), fun _ => [], none, []⟩
  enabled := LoggedPool.enabled
  next := LoggedPool.next

instance [DecidableEq Work] [DecidableEq κ] (out : Bytes) (s : LoggedPool Work n m κ)
    (a : LogAct Work n m κ) : Decidable ((loggedPool Work n m κ out).enabled s a) :=
  inferInstanceAs (Decidable (s.enabled a))

/-! ## What happens in a run -/

def LogAct.poolAct : LogAct Work n m κ → Option (Act Work n m)
  | .pool a => some a
  | _ => none

def LogAct.says : LogAct Work n m κ → Option ((Fin n ⊕ κ) × Message)
  | .announce i u time => some (.inl i, announcement u time)
  | .print j args => some (j, args)
  | _ => none

def LogAct.announces : LogAct Work n m κ → Option (Task Work × Bytes)
  | .announce _ u time => some (u, time)
  | _ => none

def LogAct.works : LogAct Work n m κ → Option Message
  | .print (.inl _) args => some args
  | _ => none

/-- The calls of `Log::print`, in the order in which they are made. -/
def said (as : List (LogAct Work n m κ)) : List ((Fin n ⊕ κ) × Message) :=
  as.filterMap LogAct.says

def poolActs (as : List (LogAct Work n m κ)) : List (Act Work n m) :=
  as.filterMap LogAct.poolAct

/-- The tasks whose lines were given to `Log::print`, each with its time. -/
def announcements (as : List (LogAct Work n m κ)) : Multiset (Task Work × Bytes) :=
  ↑(as.filterMap LogAct.announces)

/-- What the work functions have printed. -/
def workPrints (as : List (LogAct Work n m κ)) : Multiset Message :=
  ↑(as.filterMap LogAct.works)

theorem said_snoc (as : List (LogAct Work n m κ)) (a : LogAct Work n m κ) :
    said (as ++ [a]) = said as ++ a.says.toList :=
  Machine.filterMap_snoc _ _ _

theorem announcements_snoc (as : List (LogAct Work n m κ)) (a : LogAct Work n m κ) :
    announcements (as ++ [a]) = announcements as + ↑a.announces.toList := by
  rw [announcements, Machine.filterMap_snoc, ← Multiset.coe_add]
  rfl

theorem calls_snoc (as : List (LogAct Work n m κ)) (a : LogAct Work n m κ) :
    calls (poolActs (as ++ [a])) =
      calls (poolActs as) + ↑(a.poolAct.bind Act.called).toList := by
  rw [poolActs, Machine.filterMap_snoc, calls, List.filterMap_append, ← Multiset.coe_add]
  cases a.poolAct with
  | none => rfl
  | some b => cases h : b.called <;> simp [h, calls, poolActs]

/-- What the workers have printed is the lines of tasks and what the work functions print. -/
theorem said_workers (as : List (LogAct Work n m κ)) :
    (↑(((said as).filter fun c => c.1.isLeft).map Prod.snd) : Multiset Message) =
      (announcements as).map (fun c => announcement c.1 c.2) + workPrints as := by
  induction as with
  | nil => rfl
  | cons a as ih =>
    cases a with
    | pool a => exact ih
    | announce i u time =>
      have hsaid : said (.announce i u time :: as) =
        (.inl i, announcement u time) :: said as := rfl
      have hnew : announcements (.announce i u time :: as) = (u, time) ::ₘ announcements as := rfl
      rw [hsaid, hnew, List.filter_cons_of_pos rfl, List.map_cons, ← Multiset.cons_coe, ih,
        Multiset.map_cons, Multiset.cons_add]
      rfl
    | print j args =>
      have hsaid : said (.print j args :: as) = (j, args) :: said as := rfl
      cases j with
      | inl i =>
        have hnew : workPrints (.print (.inl i) args :: as) = args ::ₘ workPrints as := rfl
        rw [hsaid, hnew, List.filter_cons_of_pos rfl, List.map_cons, ← Multiset.cons_coe, ih,
          Multiset.add_cons]
        rfl
      | inr k =>
        rw [hsaid, List.filter_cons_of_neg (by simp)]
        exact ih
    | log a => exact ih

/-! ## The steps of the pool -/

variable [DecidableEq Work]

/-- The worker `i` moves by steps of its own, or is woken. -/
theorem worker_next {s : ThreadPool Work n m} {a : Act Work n m} {i : Fin n} (he : s.enabled a)
    (hi : a.worker ≠ some i) :
    (s.next a).workers i = s.workers i ∨
      s.workers i = .blocked ∧ (s.next a).workers i = .notified := by
  have other {k : Fin n} (w : Worker Work) (hk : some k ≠ some i) :
      Function.update s.workers k w i = s.workers i :=
    Function.update_of_ne (fun h => hk (congrArg some h.symm)) _ _
  have caller {c : Thread n m} {t : ThreadPool Work n m} (e : Option (Enqueue Work))
      (hc : c ≠ .inl i) : (t.setCalling e c).workers i = t.workers i := by
    cases c with
    | inl k => exact Function.update_of_ne (fun h => hc (congrArg Sum.inl h.symm)) _ _
    | inr j => rfl
  cases a with
  | lock | test | block | wakeUp | take | unlock | clock | sleepOver | call | finish =>
    exact .inl (other _ hi)
  | check k =>
    simp only [ThreadPool.next]
    split <;> exact .inl (other _ hi)
  | enqueue c t | enqueueLock c t | push c t | enqueueUnlock c =>
    refine .inl (caller _ ?_)
    rintro rfl
    exact hi rfl
  | notifyOne c woken =>
    have hc : c ≠ .inl i := by
      rintro rfl
      exact hi rfl
    cases woken with
    | none => exact .inl (caller _ hc)
    | some k =>
      simp only [ThreadPool.next, caller none hc, setWorker_workers]
      rcases eq_or_ne i k with rfl | hne
      · exact .inr ⟨he.2, Function.update_self _ _ _⟩
      · exact .inl (Function.update_of_ne hne _ _)
  | notifyAll =>
    cases hw : s.workers i with
    | blocked => exact .inr ⟨rfl, congrArg Worker.wake hw⟩
    | _ => exact .inl (congrArg Worker.wake hw)
  | destroy | storeStop | join | setClock => exact .inl rfl

omit [DecidableEq Work] in
/-- A worker that is about to call its task does that next. -/
theorem call_of_worker {s : ThreadPool Work n m} {a : Act Work n m} {i : Fin n} {u : Task Work}
    (he : s.enabled a) (hi : a.worker = some i) (hw : s.workers i = .call u) :
    a = .call i u := by
  have caller {c : Thread n m} {e : Enqueue Work} (hc : s.calling c = some e) : c ≠ .inl i := by
    rintro rfl
    cases (running_of_calling hc).symm.trans hw
  cases a with
  | lock k =>
    obtain rfl := Option.some.inj hi
    rcases he.1 with h | h <;> cases h.symm.trans hw
  | test k | block k | wakeUp k | check k | unlock k | clock k | finish k =>
    obtain rfl := Option.some.inj hi
    cases (he : s.workers k = _).symm.trans hw
  | take k | sleepOver k =>
    obtain rfl := Option.some.inj hi
    cases he.1.symm.trans hw
  | call k v =>
    obtain rfl := Option.some.inj hi
    cases (he : s.workers k = _).symm.trans hw
    rfl
  | enqueue c t =>
    cases c with
    | inl k =>
      obtain rfl := Option.some.inj hi
      cases (he : s.workers k = _).symm.trans hw
    | inr j => cases hi
  | enqueueLock c =>
    cases c with
    | inl k =>
      obtain rfl := Option.some.inj hi
      exact absurd rfl (caller he.1)
    | inr j => cases hi
  | notifyOne c woken =>
    cases c with
    | inl k =>
      obtain rfl := Option.some.inj hi
      cases woken <;> exact absurd rfl (caller he.1)
    | inr j => cases hi
  | push c | enqueueUnlock c =>
    cases c with
    | inl k =>
      obtain rfl := Option.some.inj hi
      exact absurd rfl (caller he)
    | inr j => cases hi
  | destroy | storeStop | notifyAll | join | setClock => cases hi

/-! ## What holds in every state -/

variable [DecidableEq κ] {out : Bytes}

/-- One more call of `Log::print`. -/
theorem reachable_print {order : List ((Fin n ⊕ κ) × Message)}
    {s : Sections.State (Fin n ⊕ κ) Bytes Unit}
    (h : (printing (fun j => callsOf j order) out).Reachable s) (j : Fin n ⊕ κ) (args : Message) :
    (printing (fun k => callsOf k (order ++ [(j, args)])) out).Reachable
      (s.give j (print args)) := by
  have hgive := Sections.reachable_give h j (print args)
  have hcalls : (fun k => (callsOf k (order ++ [(j, args)])).map print) =
      Function.update (fun k => (callsOf k order).map print) j
        ((callsOf j order).map print ++ [print args]) := by
    funext k
    rw [callsOf_snoc]
    rcases eq_or_ne k j with rfl | hne
    · simp
    · simp [hne, hne.symm]
  unfold printing
  rw [hcalls]
  exact hgive

/-- The task that a worker has announced is the one that it is about to call, and its line is
the last thing that it has printed; nobody returns from the pool inside `Log::print`; and the
tasks announced are those called, apart from those that are about to be. -/
structure LoggedPool.Inv (out : Bytes) (as : List (LogAct Work n m κ))
    (s : LoggedPool Work n m κ) : Prop where
  at_call : ∀ i u, s.announced i = some u → s.pool.workers i = .call u
  last : ∀ i u, s.announced i = some u →
    ∃ time, (callsOf (.inl i) (said as)).getLast? = some (announcement u time)
  returned : ∀ i, s.pool.workers i = .returned → s.log.Idle (.inl i)
  balance : (announcements as).map Prod.fst =
    calls (poolActs as) + ∑ i, Dispatch.held (s.announced i)
  log : (printing (fun j => callsOf j (said as)) out).Reachable s.log

namespace LoggedPool

omit [DecidableEq Work] in
theorem announced_of_afterStep {announced : Fin n → Option (Task Work)} {a : Act Work n m}
    {i : Fin n} {u : Task Work} (h : afterStep announced a i = some u) :
    announced i = some u ∧ ∀ v, a ≠ .call i v := by
  cases a with
  | call j v =>
    have hne : i ≠ j := by
      rintro rfl
      simp [afterStep] at h
    refine ⟨by simpa [afterStep, hne] using h, ?_⟩
    intro w hw
    cases hw
    exact hne rfl
  | _ => exact ⟨h, by simp⟩

omit [DecidableEq Work] in
/-- A call takes the task from those that are announced. -/
theorem held_afterStep {announced : Fin n → Option (Task Work)} {a : Act Work n m}
    (h : lineFirst announced a) :
    ∑ i, Dispatch.held (announced i) =
      ↑a.called.toList + ∑ i, Dispatch.held (afterStep announced a i) := by
  cases a with
  | call i u =>
    have hsum := sum_update_add Dispatch.held announced i none
    rw [announced_of_lineFirst h, Dispatch.held_none, add_zero] at hsum
    rw [← hsum, add_comm]
    rfl
  | _ => exact (zero_add _).symm

variable {as : List (LogAct Work n m κ)} {s : LoggedPool Work n m κ}

omit [DecidableEq Work] in
theorem Inv.balance_silent (h : s.Inv out as) {a : LogAct Work n m κ} (ha : a.announces = none)
    (hp : a.poolAct = none) : (announcements (as ++ [a])).map Prod.fst =
      calls (poolActs (as ++ [a])) + ∑ i, Dispatch.held (s.announced i) := by
  rw [announcements_snoc, calls_snoc, ha, hp]
  simpa using h.balance

theorem Inv.pool (h : s.Inv out as) {a : Act Work n m} (he : s.enabled (.pool a)) :
    (s.next (.pool a)).Inv out (as ++ [.pool a]) := by
  obtain ⟨hpool, hidle, hfirst⟩ := he
  have hsaid : said (as ++ [.pool a]) = said as := (said_snoc _ _).trans (List.append_nil _)
  refine ⟨?_, ?_, ?_, ?_, ?_⟩
  · intro i u hi
    obtain ⟨hann, hcall⟩ := announced_of_afterStep hi
    have hw := h.at_call i u hann
    -- the call is the one step that the worker could take, and it was not taken
    have hother : a.worker ≠ some i := fun hi => hcall u (call_of_worker hpool hi hw)
    rcases worker_next hpool hother with hsame | ⟨hblocked, -⟩
    · exact hsame.trans hw
    · cases hblocked.symm.trans hw
  · intro i u hi
    rw [hsaid]
    exact h.last i u (announced_of_afterStep hi).1
  · intro i hi
    by_cases hown : a.worker = some i
    · exact hidle i hown
    · rcases worker_next hpool hown with hsame | ⟨-, hnotified⟩
      · exact h.returned i (hsame.symm.trans hi)
      · cases hnotified.symm.trans hi
  · rw [announcements_snoc, calls_snoc]
    show Multiset.map Prod.fst (announcements as + 0) = calls (poolActs as) +
      (a.called.toList : Multiset _) + ∑ i, Dispatch.held (afterStep s.announced a i)
    rw [add_zero, h.balance, held_afterStep hfirst, add_assoc]
  · rw [hsaid]
    exact h.log

theorem Inv.announce (h : s.Inv out as) {i : Fin n} {u : Task Work} {time : Bytes}
    (he : s.enabled (.announce i u time)) :
    (s.next (.announce i u time)).Inv out (as ++ [.announce i u time]) := by
  obtain ⟨hw, hnone, -⟩ := he
  have hsaid : said (as ++ [.announce i u time]) =
      said as ++ [(.inl i, announcement u time)] :=
    said_snoc _ _
  refine ⟨?_, ?_, ?_, ?_, ?_⟩
  · intro k v hk
    rcases eq_or_ne k i with rfl | hne
    · obtain rfl : u = v := by simpa [next] using hk
      exact hw
    · exact h.at_call k v (by simpa [next, hne] using hk)
  · intro k v hk
    rw [hsaid, callsOf_snoc]
    rcases eq_or_ne k i with rfl | hne
    · obtain rfl : u = v := by simpa [next] using hk
      exact ⟨time, by simp⟩
    · have hk' : s.announced k = some v := by simpa [next, hne] using hk
      simpa [hne.symm] using h.last k v hk'
  · intro k hk
    have hne : k ≠ i := by
      rintro rfl
      cases hw.symm.trans hk
    exact (h.returned k hk).give (by simpa using hne) _
  · rw [announcements_snoc, calls_snoc]
    have hsum := sum_update_add Dispatch.held s.announced i (some u)
    rw [hnone, Dispatch.held_none, add_zero] at hsum
    show Multiset.map Prod.fst (announcements as + {(u, time)}) = calls (poolActs as) + 0 +
      ∑ k, Dispatch.held (Function.update s.announced i (some u) k)
    rw [hsum, Multiset.map_add, h.balance, Multiset.map_singleton, add_zero, add_assoc]
    rfl
  · rw [hsaid]
    exact reachable_print h.log _ _

theorem Inv.print (h : s.Inv out as) {j : Fin n ⊕ κ} {args : Message}
    (he : s.enabled (.print j args)) :
    (s.next (.print j args)).Inv out (as ++ [.print j args]) := by
  obtain ⟨hmay, -⟩ := he
  have hsaid : said (as ++ [.print j args]) = said as ++ [(j, args)] := said_snoc _ _
  refine ⟨h.at_call, ?_, ?_, ?_, ?_⟩
  · intro i u hi
    -- whoever prints is in a work function, and this worker has yet to call one
    have hne : j ≠ .inl i := by
      rintro rfl
      cases (h.at_call i u hi).symm.trans hmay
    rw [hsaid, callsOf_snoc, if_neg hne, List.append_nil]
    exact h.last i u hi
  · intro i hi
    have hne : .inl i ≠ j := by
      rintro rfl
      cases hmay.symm.trans hi
    exact (h.returned i hi).give hne _
  · exact h.balance_silent rfl rfl
  · rw [hsaid]
    exact reachable_print h.log _ _

theorem Inv.log_step (h : s.Inv out as) {a : Sections.Act (Fin n ⊕ κ)} (he : s.enabled (.log a)) :
    (s.next (.log a)).Inv out (as ++ [.log a]) := by
  have hsaid : said (as ++ [.log a]) = said as := (said_snoc _ _).trans (List.append_nil _)
  refine ⟨h.at_call, ?_, fun i hi => (h.returned i hi).next he, ?_, ?_⟩
  · rw [hsaid]
    exact h.last
  · exact h.balance_silent rfl rfl
  · rw [hsaid]
    exact h.log.next he

theorem Inv.next (h : s.Inv out as) {a : LogAct Work n m κ} (he : s.enabled a) :
    (s.next a).Inv out (as ++ [a]) := by
  cases a with
  | pool a => exact h.pool he
  | announce i u time => exact h.announce he
  | print j args => exact h.print he
  | log a => exact h.log_step he

end LoggedPool

variable {s t : LoggedPool Work n m κ} {as : List (LogAct Work n m κ)}

theorem logged_inv (hs : (loggedPool Work n m κ out).init s)
    (h : (loggedPool Work n m κ out).Exec s as t) : t.Inv out as := by
  induction h with
  | nil =>
    obtain ⟨⟨-, -, -, hw, -, -⟩, hann, hlog⟩ := hs
    refine ⟨by simp [hann], by simp [hann], by simp [hw], ?_, ⟨s.log, [], hlog, .nil⟩⟩
    simp [hann, announcements, calls, poolActs]
  | snoc _ he ih => exact ih.next he

/-- Seen without the log, the pool runs as before. -/
def withoutLog (Work : Type) [DecidableEq Work] (n m : Nat) (κ : Type) [DecidableEq κ]
    (out : Bytes) : Machine.Simulation (loggedPool Work n m κ out) (threadPool Work n m) where
  abs := LoggedPool.pool
  label := LogAct.poolAct
  init _ hs := hs.1
  silent s a _ hl := by
    cases a with
    | pool a => cases hl
    | announce | print | log => rfl
  visible s a b he hl := by
    cases a with
    | pool a =>
      obtain rfl := Option.some.inj hl
      exact ⟨he.1, rfl⟩
    | announce | print | log => cases hl

/-! ## The log of a run -/

/-- When all workers have returned, nothing waits in the queue, in a hand, or between its line
and its call. -/
theorem all_announced (hn : 0 < n) (hs : (loggedPool Work n m κ out).init s)
    (h : (loggedPool Work n m κ out).Exec s as t)
    (hreturned : ∀ i, t.pool.workers i = .returned) :
    (announcements as).map Prod.fst = pushes (poolActs as) := by
  have hinv := logged_inv hs h
  have hpool : (threadPool Work n m).Exec s.pool (poolActs as) t.pool :=
    (withoutLog Work n m κ out).exec h
  have hempty : t.pool.tasks = 0 := drained_inv hn (hpool.reachable hs.1) hreturned
  have hhands : ∑ i, (t.pool.workers i).held = 0 :=
    Finset.sum_eq_zero fun i _ => by rw [hreturned i]; rfl
  have hnone : ∑ i, Dispatch.held (t.announced i) = 0 := by
    refine Finset.sum_eq_zero fun i _ => ?_
    cases hi : t.announced i with
    | none => rfl
    | some u => cases (hinv.at_call i u hi).symm.trans (hreturned i)
  rw [hinv.balance, hnone, pushes_eq hs.1 hpool, hempty, hhands, add_zero, zero_add, zero_add]

/-- In every state the log is whole lines, those of each thread as it has printed them, and a
part of a line of the thread that holds `log_mtx`. When a worker calls a task, its last line is
the one of this task. When all workers have returned, their lines are one for each task that
was enqueued, and what the work functions have printed. -/
theorem tasks_logged (hn : 0 < n) (hs : (loggedPool Work n m κ out).init s)
    (h : (loggedPool Work n m κ out).Exec s as t) :
    ∃ order part, t.log.shared = out ++ (order.flatMap fun c => line c.2) ++ part ∧
      (∀ j, callsOf j order <+: callsOf j (said as)) ∧
      (t.log.owner = none → part = []) ∧
      (∀ j, t.log.owner = some j → ∃ args pieces, pieces <+: args ++ [endl] ∧
        part = pieces.flatten ∧ callsOf j order ++ [args] <+: callsOf j (said as)) ∧
      (∀ i u, (loggedPool Work n m κ out).enabled t (.pool (.call i u)) →
        ∃ time, (callsOf (.inl i) order).getLast? = some (announcement u time)) ∧
      ((∀ i, t.pool.workers i = .returned) →
        (↑((order.filter fun c => c.1.isLeft).map Prod.snd) : Multiset Message) =
          (announcements as).map (fun c => announcement c.1 c.2) + workPrints as ∧
        (announcements as).map Prod.fst = pushes (poolActs as)) := by
  have hinv := logged_inv hs h
  obtain ⟨order, part, hlines⟩ := printing_lines hinv.log
  refine ⟨order, part, hlines.shared, hlines.callsOf_prefix, hlines.free,
    fun j hj => hlines.next_line hj, ?_, ?_⟩
  · rintro i u ⟨-, hidle, hfirst⟩
    rw [hlines.callsOf_idle (hidle i rfl)]
    exact hinv.last i u (LoggedPool.announced_of_lineFirst hfirst)
  · intro hreturned
    constructor
    · have hperm : (order.filter fun c => c.1.isLeft).Perm
          ((said as).filter fun c => c.1.isLeft) := by
        refine perm_of_callsOf ?_
        rintro (i | k) hp
        · exact hlines.callsOf_idle (hinv.returned i (hreturned i))
        · cases hp
      rw [← said_workers, Multiset.coe_eq_coe]
      exact hperm.map _
    · exact all_announced hn hs h hreturned

/-- A pool of one worker, with nobody else that prints. -/
def loggedStart : LoggedPool Nat 1 1 Empty where
  pool := .start Nat 1 1
  announced _ := none
  log := ⟨[], fun _ => (), fun _ => [], none, []⟩

def loggedTask : Task Nat := ⟨1, 0, 3000, 2, 1⟩

/-- The accesses of the one worker inside `Log::print`, from the lock to the unlock. -/
def insidePrint (accesses : Nat) : List (LogAct Nat 1 1 Empty) :=
  .log (.lock (.inl only)) :: List.replicate accesses (.log (.access (.inl only))) ++
    [.log (.unlock (.inl only))]

/-- The task is enqueued, announced and called; its work function prints; the pool is
destroyed. -/
def loggedRun : List (LogAct Nat 1 1 Empty) :=
  ([.enqueue (.inr only) loggedTask, .enqueueLock (.inr only) loggedTask,
    .push (.inr only) loggedTask, .enqueueUnlock (.inr only), .notifyOne (.inr only) none,
    .lock only, .test only, .check only, .take only loggedTask, .unlock only loggedTask,
    .clock only loggedTask, .destroy, .storeStop].map .pool) ++
  .announce only loggedTask (Bytes.ascii "2024-06-01 12:00:00") :: insidePrint 9 ++
  .pool (.call only loggedTask) :: .print (.inl only) [Bytes.ascii "done\n"] ::
    insidePrint 2 ++
  [.finish only, .notifyAll, .lock only, .test only, .check only, .join only].map .pool

theorem loggedRun_runs : ((loggedPool Nat 1 1 Empty []).run loggedStart loggedRun).isSome := by
  decide

theorem tasks_logged_loggedRun : ∃ (order : List ((Fin 1 ⊕ Empty) × Message)) (part : Bytes),
    (((loggedPool Nat 1 1 Empty []).run loggedStart loggedRun).get loggedRun_runs).log.shared =
      [] ++ (order.flatMap fun c => line c.2) ++ part ∧
    (↑((order.filter fun c => c.1.isLeft).map Prod.snd) : Multiset Message) =
      {announcement loggedTask (Bytes.ascii "2024-06-01 12:00:00"), [Bytes.ascii "done\n"]} := by
  obtain ⟨order, part, hshared, -, -, -, -, hall⟩ := tasks_logged (by decide)
    ⟨ThreadPool.start_init, fun _ => rfl, rfl⟩ (Machine.exec_run_get loggedRun_runs)
  exact ⟨order, part, hshared, (hall (by decide)).1⟩

end SisProg.Scheduler
