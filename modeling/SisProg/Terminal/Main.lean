import SisProg.Terminal.ProcessTerm

/-!
# The terminal is restored

`main` of `terminal/p2.c` saves the settings of the terminal, registers `tty_atexit` and
only then puts the terminal into raw mode. Whether the loop returns or a call fails, the
program ends through `exit`, which runs the handler.

* `program_restores`: a program that has ended leaves the settings as it found them, unless
  the call that should reset them failed.
* `loopSimulation`: its reads are a run of `process_term` in raw mode.
* `program_answers`: what it writes and how it ends, if no read times out.
* `program_ends`: the same whatever the reads return.
-/

namespace SisProg.Terminal

open Bytes (ascii)

/-- The system calls of the program and their results; `write` is not one of them. -/
inductive Call
  | isatty (yes : Bool)
  | tcgetattr (ok : Bool)
  | atexit (ok : Bool)
  | tcsetattr (ok : Bool)
  | read (r : ReadResult)
deriving DecidableEq

/-- The function whose call comes next. An error is the message of `fatal`. -/
inductive Stage
  | isatty
  | tcgetattr
  | atexit
  | setTty
  | processTerm
  | ttyReset (result : Except Bytes Unit)
  | exited (result : Except Bytes Unit)

/-- The settings of the terminal, the variables of the program, and whether `tty_atexit` is
registered. -/
structure Program where
  tty : Termios
  origTermios : Termios
  handler : Bool
  loop : TermLoop
  stage : Stage

namespace Program

/-- `exit`, which runs the handler if there is one. -/
def exit (p : Program) (result : Except Bytes Unit) : Program :=
  { p with stage := if p.handler then .ttyReset result else .exited result }

def fatal (p : Program) (msg : Bytes) : Program := p.exit (.error msg)

/-- Back in `main` after `process_term`, in `exit`, or before the next read. -/
def afterRead (p : Program) : Program :=
  match p.loop.control with
  | .looping => p
  | .returned => p.exit (.ok ())
  | .fatal msg => p.fatal msg

def call (p : Program) (a : Call) : Program :=
  match p.stage, a with
  | .isatty, .isatty yes =>
    if yes then { p with stage := .tcgetattr } else p.fatal (ascii "not a tty")
  | .tcgetattr, .tcgetattr ok =>
    if ok then { p with origTermios := p.tty, stage := .atexit }
    else p.fatal (ascii "cannot get tty settings")
  | .atexit, .atexit ok =>
    if ok then { p with handler := true, stage := .setTty }
    else p.fatal (ascii "atexit: cannot regiseter tty reset")
  | .setTty, .tcsetattr ok =>
    match setTty p.origTermios ok with
    | .ok raw => { p with tty := raw, stage := .processTerm }
    | .error msg => p.fatal msg
  | .processTerm, .read r => { p with loop := p.loop.iteration r }.afterRead
  | .ttyReset result, .tcsetattr ok =>
    { p with tty := if ok then p.origTermios else p.tty, stage := .exited result }
  | _, _ => p

/-- The call is the next one, and its result is possible. -/
def Next (p : Program) (a : Call) : Prop :=
  match p.stage, a with
  | .isatty, .isatty _ => True
  | .tcgetattr, .tcgetattr _ => True
  | .atexit, .atexit _ => True
  | .setTty, .tcsetattr _ => True
  | .processTerm, .read r => (Terminal.processTerm p.tty).enabled p.loop r
  | .ttyReset _, .tcsetattr _ => True
  | _, _ => False

end Program

/-- `main`, on a terminal with the settings `tty`; the memory of `c_in` holds `c`. -/
def program (tty : Termios) (c : UInt8) : Machine Program Call where
  init p := p.tty = tty ∧ p.handler = false ∧ p.loop = .start c ∧ p.stage = .isatty
  enabled := Program.Next
  next := Program.call

/-! ## One call -/

/-- The stages before the loop. -/
def Stage.InSetup : Stage → Prop
  | .isatty | .tcgetattr | .atexit | .setTty => True
  | _ => False

/-- The read that a call is. -/
def Call.readResult : Call → Option ReadResult
  | .read r => some r
  | _ => none

theorem readResult_eq_some {a : Call} {r : ReadResult} :
    a.readResult = some r ↔ a = .read r := by
  cases a <;> simp [Call.readResult]

/-- What a call does. -/
inductive Effect (p : Program) : Call → Program → Prop
  | fails {a : Call} (setup : p.stage.InSetup) (noRead : a.readResult = none) (msg : Bytes) :
      Effect p a (p.fatal msg)
  | isatty (stage : p.stage = .isatty) :
      Effect p (.isatty true) { p with stage := .tcgetattr }
  | tcgetattr (stage : p.stage = .tcgetattr) :
      Effect p (.tcgetattr true) { p with origTermios := p.tty, stage := .atexit }
  | atexit (stage : p.stage = .atexit) :
      Effect p (.atexit true) { p with handler := true, stage := .setTty }
  | setTty (stage : p.stage = .setTty) :
      Effect p (.tcsetattr true) { p with tty := p.origTermios.raw, stage := .processTerm }
  | read {r : ReadResult} (stage : p.stage = .processTerm)
      (enabled : (processTerm p.tty).enabled p.loop r) :
      Effect p (.read r) { p with loop := p.loop.iteration r }.afterRead
  | reset {result : Except Bytes Unit} (stage : p.stage = .ttyReset result) (ok : Bool) :
      Effect p (.tcsetattr ok)
        { p with tty := if ok then p.origTermios else p.tty, stage := .exited result }

theorem effect_call {p : Program} {a : Call} (ha : p.Next a) : Effect p a (p.call a) := by
  obtain ⟨tty, orig, handler, loop, stage⟩ := p
  cases stage with
  | isatty =>
    cases a with
    | isatty yes =>
      cases yes with
      | true => exact .isatty rfl
      | false => exact Effect.fails (show Stage.InSetup .isatty from trivial) rfl _
    | _ => exact ha.elim
  | tcgetattr =>
    cases a with
    | tcgetattr ok =>
      cases ok with
      | true => exact .tcgetattr rfl
      | false => exact Effect.fails (show Stage.InSetup .tcgetattr from trivial) rfl _
    | _ => exact ha.elim
  | atexit =>
    cases a with
    | atexit ok =>
      cases ok with
      | true => exact .atexit rfl
      | false => exact Effect.fails (show Stage.InSetup .atexit from trivial) rfl _
    | _ => exact ha.elim
  | setTty =>
    cases a with
    | tcsetattr ok =>
      cases ok with
      | true => exact .setTty rfl
      | false => exact Effect.fails (show Stage.InSetup .setTty from trivial) rfl _
    | _ => exact ha.elim
  | processTerm =>
    cases a with
    | read r => exact .read rfl ha
    | _ => exact ha.elim
  | ttyReset result =>
    cases a with
    | tcsetattr ok => exact .reset rfl ok
    | _ => exact ha.elim
  | exited result => exact ha.elim

/-! ## The settings -/

/-- What is known of the settings, after the calls `as`: the original ones are those of the
terminal, or saved with the handler registered. -/
def Kept (tty : Termios) (as : List Call) (p : Program) : Prop :=
  match p.stage with
  | .isatty => p.tty = tty ∧ p.handler = false
  | .tcgetattr => p.tty = tty ∧ p.handler = false
  | .atexit => p.tty = tty ∧ p.origTermios = tty ∧ p.handler = false
  | .setTty => p.tty = tty ∧ p.origTermios = tty ∧ p.handler = true
  | .processTerm => p.tty = tty.raw ∧ p.origTermios = tty ∧ p.handler = true
  | .ttyReset _ => p.origTermios = tty ∧ p.handler = true
  | .exited _ => p.tty = tty ∨ as.getLast? = some (.tcsetattr false)

theorem kept_exit {tty : Termios} {p : Program} (as : List Call) (result : Except Bytes Unit)
    (h : p.handler = true ∧ p.origTermios = tty ∨ p.handler = false ∧ p.tty = tty) :
    Kept tty as (p.exit result) := by
  rcases h with ⟨hhandler, horig⟩ | ⟨hhandler, htty⟩
  · rw [Program.exit, if_pos hhandler]
    exact ⟨horig, hhandler⟩
  · rw [Program.exit, hhandler]
    exact .inl htty

theorem kept_afterRead {tty : Termios} {p : Program} (as : List Call)
    (hstage : p.stage = .processTerm) (htty : p.tty = tty.raw) (horig : p.origTermios = tty)
    (hhandler : p.handler = true) : Kept tty as p.afterRead := by
  unfold Program.afterRead
  cases p.loop.control with
  | looping =>
    simp only [Kept, hstage]
    exact ⟨htty, horig, hhandler⟩
  | returned => exact kept_exit as _ (.inl ⟨hhandler, horig⟩)
  | fatal msg => exact kept_exit as _ (.inl ⟨hhandler, horig⟩)

/-- A handler that is registered will restore what was saved. -/
theorem kept_setup {tty : Termios} {as : List Call} {p : Program} (h : Kept tty as p)
    (hsetup : p.stage.InSetup) :
    p.handler = true ∧ p.origTermios = tty ∨ p.handler = false ∧ p.tty = tty := by
  obtain ⟨tty', orig, handler, loop, stage⟩ := p
  cases stage with
  | isatty => exact .inr ⟨h.2, h.1⟩
  | tcgetattr => exact .inr ⟨h.2, h.1⟩
  | atexit => exact .inr ⟨h.2.2, h.1⟩
  | setTty => exact .inl ⟨h.2.2, h.2.1⟩
  | _ => exact hsetup.elim

/-- Every call keeps it. -/
theorem Effect.kept {tty : Termios} {as : List Call} {p p' : Program} {a : Call}
    (ha : Effect p a p') (h : Kept tty as p) : Kept tty (as ++ [a]) p' := by
  have hkept := h
  unfold Kept at h
  cases ha with
  | fails hsetup _ msg => exact kept_exit _ _ (kept_setup hkept hsetup)
  | isatty hstage =>
    rw [hstage] at h
    exact h
  | tcgetattr hstage =>
    rw [hstage] at h
    exact ⟨h.1, h⟩
  | atexit hstage =>
    rw [hstage] at h
    exact ⟨h.1, h.2.1, rfl⟩
  | setTty hstage =>
    rw [hstage] at h
    exact ⟨congrArg Termios.raw h.2.1, h.2⟩
  | read hstage _ =>
    rw [hstage] at h
    exact kept_afterRead _ hstage h.1 h.2.1 h.2.2
  | reset hstage ok =>
    rw [hstage] at h
    cases ok with
    | true => exact .inl h.1
    | false => exact .inr List.getLast?_concat

theorem kept_of_exec {tty : Termios} {c : UInt8} {as : List Call} {p₀ p : Program}
    (h₀ : (program tty c).init p₀) (h : (program tty c).Exec p₀ as p) : Kept tty as p := by
  induction h with
  | nil =>
    obtain ⟨htty, hhandler, -, hstage⟩ := h₀
    simp only [Kept, hstage]
    exact ⟨htty, hhandler⟩
  | snoc _ he ih => exact (effect_call he).kept ih

/-- Whatever ended the program, the settings are back, unless they could not be reset. -/
theorem program_restores {tty : Termios} {c : UInt8} {as : List Call} {p₀ p : Program}
    {result : Except Bytes Unit} (h₀ : (program tty c).init p₀)
    (h : (program tty c).Exec p₀ as p) (hexit : p.stage = .exited result) :
    p.tty = tty ∨ as.getLast? = some (.tcsetattr false) := by
  have hkept := kept_of_exec h₀ h
  simpa only [Kept, hexit] using hkept

/-! ## The loop -/

@[simp] theorem afterRead_loop (p : Program) : p.afterRead.loop = p.loop := by
  unfold Program.afterRead
  split <;> rfl

/-- Only a read changes the loop. -/
theorem Effect.loop_eq {p p' : Program} {a : Call} (ha : Effect p a p')
    (hread : a.readResult = none) : p'.loop = p.loop := by
  cases ha with
  | read => cases hread
  | _ => rfl

theorem Effect.loop_read {p p' : Program} {r : ReadResult} (ha : Effect p (.read r) p') :
    p.loop.control = .looping ∧ p'.loop = p.loop.iteration r := by
  cases ha with
  | fails _ hread _ => cases hread
  | read _ he => exact ⟨he.1, afterRead_loop _⟩

/-- The reads of the program are a run of `process_term` in raw mode. -/
def loopSimulation (tty : Termios) (c : UInt8) :
    Machine.Simulation (program tty c) (processTerm tty.raw) where
  abs := Program.loop
  label := Call.readResult
  init p hp := ⟨c, hp.2.2.1⟩
  silent _ _ ha := (effect_call ha).loop_eq
  visible p a r hp ha := by
    obtain rfl := readResult_eq_some.mp ha
    obtain ⟨hlooping, hloop⟩ := (effect_call hp).loop_read
    exact ⟨⟨hlooping, returns_raw tty r⟩, hloop⟩

theorem loop_exec {tty : Termios} {c : UInt8} {as : List Call} {p₀ p : Program}
    (h₀ : (program tty c).init p₀) (h : (program tty c).Exec p₀ as p) :
    (processTerm tty.raw).Exec (TermLoop.start c) (as.filterMap Call.readResult) p.loop := by
  have hrun := (loopSimulation tty c).exec h
  rw [show (loopSimulation tty c).abs p₀ = TermLoop.start c from h₀.2.2.1] at hrun
  exact hrun

/-! ## How the program ends -/

/-- The program ends successfully when the loop has returned, and only then. -/
def Ends (p : Program) : Prop :=
  match p.stage with
  | .ttyReset result => result = .ok () ↔ p.loop.control = .returned
  | .exited result => result = .ok () ↔ p.loop.control = .returned
  | _ => p.loop.control = .looping

theorem ends_exit {p : Program} {result : Except Bytes Unit}
    (h : result = .ok () ↔ p.loop.control = .returned) : Ends (p.exit result) := by
  cases hhandler : p.handler with
  | true => simpa [Ends, Program.exit, hhandler] using h
  | false => simpa [Ends, Program.exit, hhandler] using h

/-- A call that fails outside the loop. -/
theorem ends_fatal {p : Program} (h : p.loop.control = .looping) (msg : Bytes) :
    Ends (p.fatal msg) :=
  ends_exit (by simp [h])

theorem ends_afterRead {p : Program} (hstage : p.stage = .processTerm) : Ends p.afterRead := by
  unfold Program.afterRead
  cases hcontrol : p.loop.control with
  | looping => simpa [Ends, hstage] using hcontrol
  | returned => exact ends_exit (by simp [hcontrol])
  | fatal msg => exact ends_exit (by simp [hcontrol])

/-- Before the loop begins it has not ended. -/
theorem looping_of_setup {p : Program} (h : Ends p) (hsetup : p.stage.InSetup) :
    p.loop.control = .looping := by
  obtain ⟨tty, orig, handler, loop, stage⟩ := p
  cases stage with
  | ttyReset => exact hsetup.elim
  | exited => exact hsetup.elim
  | _ => exact h

theorem Effect.ends {p p' : Program} {a : Call} (ha : Effect p a p') (h : Ends p) :
    Ends p' := by
  have hends := h
  unfold Ends at h
  cases ha with
  | fails hsetup _ msg => exact ends_fatal (looping_of_setup hends hsetup) msg
  | read hstage _ => exact ends_afterRead hstage
  | _ hstage =>
    rw [hstage] at h
    exact h

theorem ends_of_exec {tty : Termios} {c : UInt8} {as : List Call} {p₀ p : Program}
    (h₀ : (program tty c).init p₀) (h : (program tty c).Exec p₀ as p) : Ends p := by
  induction h with
  | nil =>
    obtain ⟨-, -, hloop, hstage⟩ := h₀
    simp [Ends, hloop, hstage, TermLoop.start]
  | snoc _ he ih => exact (effect_call he).ends ih

/-- If no read times out, a program that has ended has written the outputs of the keys before
the first `'q'`, and has succeeded if and only if there was one. -/
theorem program_answers {tty : Termios} {c : UInt8} {as : List Call} {p₀ p : Program}
    {result : Except Bytes Unit} (h₀ : (program tty c).init p₀)
    (h : (program tty c).Exec p₀ as p) (hexit : p.stage = .exited result)
    (hreads : Call.read .empty ∉ as) :
    p.loop.writes = (keys (as.filterMap Call.readResult)).map output ∧
      (result = .ok () ↔ .read (.byte quit) ∈ as) := by
  have hends : result = .ok () ↔ p.loop.control = .returned := by
    simpa only [Ends, hexit] using ends_of_exec h₀ h
  have hmem : ∀ r, r ∈ as.filterMap Call.readResult ↔ Call.read r ∈ as := by
    simp [readResult_eq_some]
  have hempty : .empty ∉ as.filterMap Call.readResult := fun hmem' => hreads ((hmem _).mp hmem')
  have hanswered := answered_of_exec (loop_exec h₀ h) fun hmem' =>
    hempty (List.takeWhile_subset _ hmem')
  obtain ⟨hwrites, hreturned⟩ := hanswered.reacts
  exact ⟨hwrites, hends.trans (hreturned.trans (hmem _))⟩

/-! ## Whatever the reads return -/

/-- What `c_in` holds in each round of the loop: on a timeout what it held before. -/
def cIns (c : UInt8) : List ReadResult → Bytes
  | [] => []
  | .error :: _ => []
  | .empty :: rs => c :: cIns c rs
  | .byte b :: rs => b :: cIns b rs

/-- The loop has gone on from `s` with the bytes `cs` in `c_in`. -/
def Switched (s t : TermLoop) (cs : Bytes) : Prop :=
  t.writes = s.writes ++ (cs.takeWhile (· ≠ quit)).map output ∧
    (t.control = .returned ↔ quit ∈ cs)

theorem exec_of_ended {tty : Termios} {s t : TermLoop} {rs : List ReadResult}
    (h : (processTerm tty).Exec s rs t) (hended : s.control ≠ .looping) : rs = [] ∧ t = s := by
  cases rs with
  | nil => exact ⟨rfl, h.of_nil⟩
  | cons r rs => exact absurd h.of_cons.1.1 hended

theorem switch_goesOn {s : TermLoop} (h : s.control = .looping) (hq : s.cIn ≠ quit) :
    s.switch.control = .looping ∧ s.switch.cIn = s.cIn := by
  rw [TermLoop.switch, if_neg hq]
  exact ⟨h, rfl⟩

/-- A round that runs the `switch`. -/
theorem switched_round {tty : Termios} {s t : TermLoop} {rs : List ReadResult}
    (h : (processTerm tty).Exec s.switch rs t)
    (ih : s.cIn ≠ quit → Switched s.switch t (cIns s.cIn rs)) :
    Switched s t (s.cIn :: cIns s.cIn rs) := by
  unfold Switched at ih ⊢
  by_cases hq : s.cIn = quit
  · have hswitch : s.switch = { s with control := .returned } := if_pos hq
    rw [hswitch] at h
    obtain ⟨-, rfl⟩ := exec_of_ended h (by simp)
    simp [hq]
  · have hswitch : s.switch = { s with writes := s.writes ++ [output s.cIn] } := if_neg hq
    obtain ⟨hwrites, hreturned⟩ := ih hq
    rw [hswitch] at hwrites
    refine ⟨?_, ?_⟩
    · rw [hwrites, List.takeWhile_cons_of_pos (by simpa using hq), List.map_cons,
        List.append_assoc]
      rfl
    · rw [hreturned, List.mem_cons, or_iff_right (Ne.symm hq)]

theorem switched_of_exec {tty : Termios} {s t : TermLoop} {rs : List ReadResult}
    (h : (processTerm tty).Exec s rs t) (hlooping : s.control = .looping) :
    Switched s t (cIns s.cIn rs) := by
  induction rs generalizing s with
  | nil =>
    obtain rfl := h.of_nil
    simp [Switched, cIns, hlooping]
  | cons r rs ih =>
    obtain ⟨-, hrest⟩ := h.of_cons
    cases r with
    | error =>
      obtain ⟨-, rfl⟩ := exec_of_ended hrest (by simp [TermLoop.iteration])
      simp [Switched, cIns, TermLoop.iteration]
    | empty =>
      refine switched_round hrest fun hq => ?_
      obtain ⟨hcontrol, hcIn⟩ := switch_goesOn hlooping hq
      have hswitched : Switched s.switch t (cIns s.switch.cIn rs) := ih hrest hcontrol
      rwa [hcIn] at hswitched
    | byte b =>
      refine switched_round (s := { s with cIn := b }) hrest fun hq => ?_
      obtain ⟨hcontrol, hcIn⟩ := switch_goesOn (s := { s with cIn := b }) hlooping hq
      have hswitched := ih hrest hcontrol
      rw [next_processTerm, TermLoop.iteration, hcIn] at hswitched
      exact hswitched

/-- Whatever the calls return and whatever the memory of `c_in` held: a program that has ended
has left the settings as they were, unless they could not be reset; it has written the outputs
of what `c_in` held in each round before it held `'q'`; and it has succeeded if and only if
`c_in` came to hold `'q'`. -/
theorem program_ends {tty : Termios} {c : UInt8} {as : List Call} {p₀ p : Program}
    {result : Except Bytes Unit} (h₀ : (program tty c).init p₀)
    (h : (program tty c).Exec p₀ as p) (hexit : p.stage = .exited result) :
    (p.tty = tty ∨ as.getLast? = some (.tcsetattr false)) ∧
      p.loop.writes = ((cIns c (as.filterMap Call.readResult)).takeWhile (· ≠ quit)).map output ∧
      (result = .ok () ↔ quit ∈ cIns c (as.filterMap Call.readResult)) := by
  have hends : result = .ok () ↔ p.loop.control = .returned := by
    simpa only [Ends, hexit] using ends_of_exec h₀ h
  obtain ⟨hwrites, hreturned⟩ := switched_of_exec (loop_exec h₀ h) rfl
  exact ⟨program_restores h₀ h hexit, hwrites, hends.trans hreturned⟩

/-- A key, a timeout, and `'q'`, on a terminal with a line discipline. -/
def keyAndTimeout : List Call :=
  [.isatty true, .tcgetattr true, .atexit true, .tcsetattr true, .read (.byte 122), .read .empty,
    .read (.byte 113), .tcsetattr true]

def cooked : Termios := ⟨true, false, true, true, 1, 0⟩

def beforeCalls : Program := ⟨cooked, cooked, false, .start 0, .isatty⟩

theorem keyAndTimeout_exec : (program cooked 0).Exec beforeCalls keyAndTimeout
    (keyAndTimeout.foldl Program.call beforeCalls) :=
  .cons trivial (.cons trivial (.cons trivial (.cons trivial (.cons ⟨rfl, by decide⟩
    (.cons ⟨rfl, by decide⟩ (.cons ⟨rfl, by decide⟩ (.single trivial)))))))

theorem beforeCalls_init : (program cooked 0).init beforeCalls := ⟨rfl, rfl, rfl, rfl⟩

theorem program_ends_keyAndTimeout :
    (keyAndTimeout.foldl Program.call beforeCalls).loop.writes = [ascii "Z", ascii "Z"] :=
  (program_ends beforeCalls_init keyAndTimeout_exec rfl).2.1.trans (by decide)

end SisProg.Terminal
