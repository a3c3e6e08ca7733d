import SisProg.Lib.Fallible
import SisProg.Lib.FileSystem
import SisProg.Mojbash.Main
import SisProg.Mojbash.Redirection

/-!
# The child that executes a command

`main` forks a child for a built-in command, and the child calls `execute`. It parses the
redirections, opens the input file and then the output file, binds them to its standard
input and output with `dup2`, and calls the handler of the command. A handler is recorded
here with what it gets.

`main` has checked that standard input is a terminal and has written the prompt to
standard output, so both are open in the child. The other descriptors are what they are.
-/

namespace SisProg.Mojbash

open Bytes (ascii)

/-- What a descriptor is open on: something from before, or a file that was opened. -/
inductive OpenFile
  | inherited (fd : Nat)
  | file (ino : Nat) (flags : Flags)
deriving DecidableEq

/-- A call of a handler. -/
structure Handled where
  command : Bytes
  args : List Bytes
  stdin : Option OpenFile
  stdout : Option OpenFile
deriving DecidableEq

/-- The child, the calls of `open` it has made, the handlers it has called, and what it
has printed to standard error. -/
structure Child where
  files : FileSystem
  fds : List (Option OpenFile)
  opened : List (Bytes × Flags)
  handled : List Handled
  stderr : List Bytes

/-- The answers of the kernel: why it refuses to open the input file or the output file,
if it does, the time, and the texts of its errors. -/
structure Kernel where
  refusal : Direction → Option Errno
  now : Nat
  strerror : Errno → Bytes

inductive Stop
  | exitFailure
  | undefined
deriving DecidableEq

abbrev Program := ExceptT Stop (StateM Child)

def stdinFileno : Nat := 0

def stdoutFileno : Nat := 1

def Direction.fileno : Direction → Nat
  | .input => stdinFileno
  | .output => stdoutFileno

/-- `O_RDONLY`, or `O_WRONLY | O_CREAT | O_TRUNC`. -/
def Direction.flags : Direction → Flags
  | .input => {}
  | .output => { wronly := true, creat := true, trunc := true }

/-! ## Calls -/

namespace Child

def fd (c : Child) (fd : Nat) : Option OpenFile := c.fds[fd]?.join

/-- The lowest descriptor that is not open is opened. -/
def install (c : Child) (file : OpenFile) : Nat × Child :=
  let fd := c.fds.findIdx Option.isNone
  (fd, { c with fds := (c.fds ++ [none]).set fd (some file) })

end Child

/-- What becomes of opening the file of one direction. -/
def Kernel.answer (k : Kernel) (files : FileSystem) (d : Direction) (path : Bytes) :
    Except Errno Nat × FileSystem :=
  files.openFile path d.flags (k.refusal d) k.now

/-- `open`, for the file of one direction; `-1` and `errno` are an error. -/
def openFile (k : Kernel) (d : Direction) (path : Bytes) : Program (Except Errno Nat) := fun c =>
  let c := { c with opened := c.opened ++ [(path, d.flags)] }
  match k.answer c.files d path with
  | (.error e, _) => (.ok (.error e), c)
  | (.ok ino, files) =>
    let (fd, c) := { c with files }.install (.file ino d.flags)
    (.ok (.ok fd), c)

/-- `dup2(oldfd, newfd) >= 0`. It fails if `oldfd` is not open, as `-1` is not. -/
def dup2 (oldfd : Except Errno Nat) (newfd : Nat) : Program Bool := fun c =>
  match oldfd.toOption.bind c.fd with
  | none => (.ok false, c)
  | some file => (.ok true, { c with fds := c.fds.set newfd (some file) })

def close (fd : Except Errno Nat) : Program Unit :=
  match fd with
  | .error _ => pure ()
  | .ok fd => modify fun c => { c with fds := c.fds.set fd none }

def eprint (message : Bytes) : Program Unit :=
  modify fun c => { c with stderr := c.stderr ++ [message] }

/-- `perror` and `exit(EXIT_FAILURE)`. -/
def fatal {α : Type} (k : Kernel) (errno : Errno) (msg : String) : Program α := do
  eprint (ascii msg ++ ascii ": " ++ k.strerror errno ++ ascii "\n")
  throw .exitFailure

/-- `EBADF`. -/
def ebadf : Errno := .other 9

/-! ## `execute` -/

def noSuchFile (name : Bytes) : Bytes :=
  ascii "mojbash: no such file or directory: " ++ name ++ ascii "\n"

/-- The part for `inputRedirect`. The function returns early if the result is `false`. -/
def redirectInput (k : Kernel) (r : Redirection) : Program Bool :=
  if r.inputRedirect then do
    let fdIn ← openFile k .input r.inputFile.name
    if fdIn = .error .enoent then
      eprint (noSuchFile r.inputFile.name)
      return false
    else if ← dup2 fdIn stdinFileno then
      close fdIn
      return true
    else fatal k ebadf "Failed to redirect input"
  else return true

/-- The part for `outputRedirect`. -/
def redirectOutput (k : Kernel) (r : Redirection) : Program Unit :=
  if r.outputRedirect then do
    let fdOut ← openFile k .output r.outputFile.name
    if let .error e := fdOut then fatal k e "Failed to open output file"
    else if ← dup2 fdOut stdoutFileno then close fdOut
    else fatal k ebadf "Failet to redirect output"
  else return ()

/-- The names of `commands`. -/
def commands : List Bytes := [cmdEcho, cmdCat, cmdTouch, cmdLs]

/-- The strings before the `NULL`. -/
def strings (args : List (Option Bytes)) : List Bytes :=
  (args.takeWhile Option.isSome).reduceOption

/-- `commands[i].func(args)`. -/
def callHandler (command : Bytes) (args : List (Option Bytes)) : Program Unit :=
  modify fun c => { c with
    handled := c.handled ++
      [⟨command, strings args, c.fd stdinFileno, c.fd stdoutFileno⟩] }

def execute (k : Kernel) (programe : Bytes) (args : List (Option Bytes)) (numArgs : Nat) :
    Program Unit :=
  match commands.find? (· = programe) with
  | none => pure ()
  | some command =>
    match parseRedirection args numArgs .zero .zero with
    | none => throw .undefined
    | some r => do
      if ← redirectInput k r then
        redirectOutput k r
        callHandler command r.args

/-! ## One redirection -/

/-- Standard input and output are open. -/
def Child.Std (c : Child) (file : Direction → OpenFile) : Prop :=
  ∃ rest, c.fds = some (file .input) :: some (file .output) :: rest

theorem fd_of_std {c : Child} {file : Direction → OpenFile} (h : c.Std file) (d : Direction) :
    c.fd d.fileno = some (file d) := by
  obtain ⟨rest, hfds⟩ := h
  unfold Child.fd
  rw [hfds]
  cases d <;> rfl

/-- What standard input or output is open on after the part for `d`: what it was open on
before, or the file at the path that was named. -/
def BoundTo (files : FileSystem) (d : Direction) (before after : OpenFile) :
    Option Bytes → Prop
  | none => after = before
  | some path => ∃ ino, files.lookup path = some ino ∧ after = .file ino d.flags

/-- The part for the direction `d` is passed, with or without a path. -/
structure Passed (k : Kernel) (c t : Child) (file file' : Direction → OpenFile) (d : Direction)
    (path : Option Bytes) : Prop where
  std : t.Std file'
  bound : BoundTo t.files d (file d) (file' d) path
  other : ∀ e, e ≠ d → file' e = file e
  answered : ∀ p ∈ path, ∃ ino, k.answer c.files d p = (.ok ino, t.files)
  absent : path = none → t.files = c.files
  opened : t.opened = c.opened ++ (path.map fun p => (p, d.flags)).toList
  handled : t.handled = c.handled

/-- The file of the direction `d` could not be opened. -/
structure Failed (k : Kernel) (c t : Child) (d : Direction) (path : Bytes) : Prop where
  answered : ∃ e, (k.answer c.files d path).1 = .error e
  files : t.files = c.files
  opened : t.opened = c.opened ++ [(path, d.flags)]
  handled : t.handled = c.handled

/-- What has been recorded for a direction. -/
def Redirection.recorded (r : Redirection) (d : Direction) : Option Bytes :=
  if r.flag d then some (r.file d).name else none

/-- The standard descriptors keep what they are open on. -/
theorem install_std {c : Child} {f g : OpenFile} {rest : List (Option OpenFile)}
    (h : c.fds = some f :: some g :: rest) (file : OpenFile) :
    ∃ j rest', c.install file = (j + 2, { c with fds := some f :: some g :: rest' }) ∧
      rest'[j]? = some (some file) := by
  refine ⟨rest.findIdx Option.isNone,
    (rest ++ [none]).set (rest.findIdx Option.isNone) (some file), ?_, ?_⟩
  · unfold Child.install
    rw [h, List.findIdx_cons, List.findIdx_cons]
    rfl
  · refine List.getElem?_set_self ?_
    rw [List.length_append]
    exact Nat.lt_succ_of_le List.findIdx_le_length

theorem openFile_fails {k : Kernel} {d : Direction} {path : Bytes} {c : Child} {e : Errno}
    (h : (k.answer c.files d path).1 = .error e) :
    openFile k d path c =
      (.ok (.error e), { c with opened := c.opened ++ [(path, d.flags)] }) := by
  obtain ⟨t, ht⟩ : ∃ t, k.answer c.files d path = (.error e, t) := ⟨_, Prod.ext h rfl⟩
  unfold openFile
  dsimp only
  rw [ht]

/-- `open`, `dup2` and `close`, one after the other. -/
theorem openFile_bound {k : Kernel} {d : Direction} {path : Bytes} {c : Child}
    {file : Direction → OpenFile} (hstd : c.Std file) {ino : Nat} {files : FileSystem}
    (h : k.answer c.files d path = (.ok ino, files)) :
    ∃ fd t u v, openFile k d path c = (.ok (.ok fd), t) ∧ dup2 (.ok fd) d.fileno t = (.ok true, u) ∧
      close (.ok fd) u = (.ok (), v) ∧
      Passed k c v file (Function.update file d (.file ino d.flags)) d (some path) := by
  obtain ⟨rest, hfds⟩ := hstd
  let c' : Child := { c with opened := c.opened ++ [(path, d.flags)], files := files }
  obtain ⟨j, rest', hinstall, hj⟩ := @install_std c' _ _ _ hfds (.file ino d.flags)
  let t : Child := { c' with fds := some (file .input) :: some (file .output) :: rest' }
  let u : Child := { t with fds := t.fds.set d.fileno (some (.file ino d.flags)) }
  let v : Child := { u with fds := u.fds.set (j + 2) none }
  have hfd : t.fd (j + 2) = some (.file ino d.flags) := congrArg Option.join hj
  have hv : v.Std (Function.update file d (.file ino d.flags)) := by
    refine ⟨rest'.set j none, ?_⟩
    cases d <;> rfl
  refine ⟨j + 2, t, u, v, ?_, ?_, rfl, hv, ⟨ino, (FileSystem.openFile_ok h).1, ?_⟩, ?_, ?_, ?_,
    rfl, rfl⟩
  · unfold openFile
    dsimp only
    rw [h]
    dsimp only
    rw [hinstall]
  · show (match t.fd (j + 2) with
      | none => _
      | some file => _) = _
    rw [hfd]
  · exact Function.update_self ..
  · intro e he
    exact Function.update_of_ne he ..
  · intro p hp
    obtain rfl : path = p := by simpa using hp
    exact ⟨ino, h⟩
  · intro hnone
    cases hnone

theorem passed_none (k : Kernel) {c : Child} {file : Direction → OpenFile} (hstd : c.Std file)
    (d : Direction) : Passed k c c file file d none :=
  ⟨hstd, rfl, fun _ _ => rfl, by simp, fun _ => rfl, by simp, rfl⟩

/-- What the part for the input file does: it goes on, or it stops. -/
theorem redirectInput_cases (k : Kernel) (r : Redirection) {c : Child}
    {file : Direction → OpenFile} (hstd : c.Std file) :
    (∃ t file', redirectInput k r c = (.ok true, t) ∧
      Passed k c t file file' .input (r.recorded .input)) ∨
    (∃ path, r.recorded .input = some path ∧ ∃ s t, redirectInput k r c = (s, t) ∧ s ≠ .ok true ∧
      Failed k c t .input path) := by
  unfold redirectInput Redirection.recorded
  show (∃ t file', _ ∧ Passed k c t file file' .input (if r.inputRedirect then _ else _)) ∨
    (∃ path, (if r.inputRedirect then _ else _) = _ ∧ _)
  cases r.inputRedirect with
  | false => exact .inl ⟨c, file, rfl, passed_none k hstd .input⟩
  | true =>
    rw [if_pos rfl, if_pos rfl]
    cases hopen : k.answer c.files .input r.inputFile.name with
    | mk result files =>
      cases result with
      | ok ino =>
        obtain ⟨fd, t, u, v, hfd, hdup, hclose, hpassed⟩ := openFile_bound hstd hopen
        have hstdin : dup2 (.ok fd) stdinFileno t = (.ok true, u) := hdup
        refine .inl ⟨v, _, ?_, hpassed⟩
        rw [Fallible.bind_ok hfd, if_neg (by simp), Fallible.bind_ok hstdin, if_pos rfl,
          Fallible.bind_ok hclose]
        rfl
      | error e =>
        have hfst := congrArg Prod.fst hopen
        refine .inr ⟨_, rfl, ?_⟩
        rw [Fallible.bind_ok (openFile_fails hfst)]
        split
        next => exact ⟨_, _, rfl, by simp, ⟨e, hfst⟩, rfl, rfl, rfl⟩
        next => exact ⟨_, _, rfl, by simp, ⟨e, hfst⟩, rfl, rfl, rfl⟩

theorem redirectOutput_cases (k : Kernel) (r : Redirection) {c : Child}
    {file : Direction → OpenFile} (hstd : c.Std file) :
    (∃ t file', redirectOutput k r c = (.ok (), t) ∧
      Passed k c t file file' .output (r.recorded .output)) ∨
    (∃ path, r.recorded .output = some path ∧ ∃ s t, redirectOutput k r c = (.error s, t) ∧
      Failed k c t .output path) := by
  unfold redirectOutput Redirection.recorded
  show (∃ t file', _ ∧ Passed k c t file file' .output (if r.outputRedirect then _ else _)) ∨
    (∃ path, (if r.outputRedirect then _ else _) = _ ∧ _)
  cases r.outputRedirect with
  | false => exact .inl ⟨c, file, rfl, passed_none k hstd .output⟩
  | true =>
    rw [if_pos rfl, if_pos rfl]
    cases hopen : k.answer c.files .output r.outputFile.name with
    | mk result files =>
      cases result with
      | ok ino =>
        obtain ⟨fd, t, u, v, hfd, hdup, hclose, hpassed⟩ := openFile_bound hstd hopen
        have hstdout : dup2 (.ok fd) stdoutFileno t = (.ok true, u) := hdup
        refine .inl ⟨v, _, ?_, hpassed⟩
        rw [Fallible.bind_ok hfd]
        dsimp only
        rw [Fallible.bind_ok hstdout, if_pos rfl, hclose]
      | error e =>
        have hfst := congrArg Prod.fst hopen
        refine .inr ⟨_, rfl, ?_⟩
        rw [Fallible.bind_ok (openFile_fails hfst)]
        exact ⟨_, _, rfl, ⟨e, hfst⟩, rfl, rfl, rfl⟩

/-! ## The whole command -/

/-- The name that `parse_redirection` records. -/
def recorded (d : Direction) (args : List Bytes) : Option Bytes :=
  (lastOperand d args).map (·.take (filesize - 1))

theorem recorded_of_parsed {args : List Bytes} {r : Redirection} (h : Parsed args r)
    (d : Direction) : r.recorded d = recorded d args := by
  have hflag := h.flag d
  unfold Redirection.recorded recorded
  cases hop : lastOperand d args with
  | none =>
    have hnil : operands d args = [] := List.getLast?_eq_none_iff.mp hop
    rw [hnil] at hflag
    rw [if_neg (by simp [hflag])]
    rfl
  | some operand =>
    have hne : operands d args ≠ [] := by
      intro hnil
      rw [lastOperand, hnil] at hop
      cases hop
    rw [if_pos (hflag.mpr hne), h.name d operand hop]
    rfl

theorem strings_map_some (args : List Bytes) (behind : List (Option Bytes)) :
    strings (args.map some ++ none :: behind) = args := by
  unfold strings
  rw [List.takeWhile_append_of_pos (by simp)]
  simp [List.reduceOption]

theorem find?_commands {programe : Bytes} (h : isValid programe = true) :
    commands.find? (· = programe) = some programe := by
  simp only [isValid, Bool.or_eq_true, beq_iff_eq] at h
  rcases h with ((rfl | rfl) | rfl) | rfl <;> decide

/-- The child after `execute`, which got the arguments with a `NULL` at the end. -/
def runChild (k : Kernel) (cmd : Bytes) (args : List Bytes) (behind : List (Option Bytes))
    (c : Child) : Child :=
  (execute k cmd (args.map some ++ none :: behind) args.length c).2

/-- The three ways through `execute` for a built-in command: the input file cannot be
opened, or the output file, or the handler runs. -/
theorem execute_cases (k : Kernel) {cmd : Bytes} (hcmd : isValid cmd = true) {args : List Bytes}
    (hnul : ∀ a ∈ args, 0 ∉ a) (behind : List (Option Bytes)) {c : Child}
    {file : Direction → OpenFile} (hstd : c.Std file) :
    (∃ path, recorded .input args = some path ∧
      Failed k c (runChild k cmd args behind c) .input path) ∨
    (∃ u file' path, Passed k c u file file' .input (recorded .input args) ∧
      recorded .output args = some path ∧
      Failed k u (runChild k cmd args behind c) .output path) ∨
    (∃ u v file' file'', Passed k c u file file' .input (recorded .input args) ∧
      Passed k u v file' file'' .output (recorded .output args) ∧
      runChild k cmd args behind c = { v with
        handled := v.handled ++
          [⟨cmd, stripped args, some (file'' .input), some (file'' .output)⟩] }) := by
  obtain ⟨r, hr, -, hparsed⟩ := parseRedirection_parsed hnul none behind .zero .zero
  obtain ⟨left, hleft⟩ := hparsed.kept
  have hrun : runChild k cmd args behind c = ((do
      if ← redirectInput k r then
        redirectOutput k r
        callHandler cmd r.args) c : Except Stop Unit × Child).2 := by
    unfold runChild execute
    rw [find?_commands hcmd]
    dsimp only
    rw [hr]
  rw [← recorded_of_parsed hparsed, ← recorded_of_parsed hparsed, hrun]
  rcases redirectInput_cases k r hstd with
    ⟨u, file', hinput, hpassed⟩ | ⟨path, hpath, s, t, hinput, hs, hfailed⟩
  · rw [Fallible.bind_ok hinput, if_pos rfl]
    rcases redirectOutput_cases k r hpassed.std with
      ⟨v, file'', houtput, hpassed'⟩ | ⟨path, hpath, s, t, houtput, hfailed⟩
    · refine .inr (.inr ⟨u, v, file', file'', hpassed, hpassed', ?_⟩)
      have hcall : (callHandler cmd r.args v).2 = { v with
          handled := v.handled ++ [⟨cmd, strings r.args, v.fd Direction.input.fileno,
            v.fd Direction.output.fileno⟩] } := rfl
      rw [Fallible.bind_ok houtput, hcall, hleft, strings_map_some, fd_of_std hpassed'.std .input,
        fd_of_std hpassed'.std .output]
    · refine .inr (.inl ⟨u, file', path, hpassed, hpath, ?_⟩)
      rw [Fallible.bind_error houtput]
      exact hfailed
  · refine .inl ⟨path, hpath, ?_⟩
    cases s with
    | error s =>
      rw [Fallible.bind_error hinput]
      exact hfailed
    | ok go =>
      cases go with
      | true => exact absurd rfl hs
      | false =>
        rw [Fallible.bind_ok hinput]
        exact hfailed

/-- The child before `execute`. -/
def Child.start (files : FileSystem) (file : Direction → OpenFile)
    (rest : List (Option OpenFile)) : Child :=
  ⟨files, some (file .input) :: some (file .output) :: rest, [], [], []⟩

theorem start_std (files : FileSystem) (file : Direction → OpenFile)
    (rest : List (Option OpenFile)) : (Child.start files file rest).Std file :=
  ⟨rest, rfl⟩

/-- The input file is only read. -/
theorem files_of_passed_input {k : Kernel} {c t : Child} {file file' : Direction → OpenFile}
    {path : Option Bytes} (h : Passed k c t file file' .input path) : t.files = c.files := by
  cases path with
  | none => exact h.absent rfl
  | some p =>
    obtain ⟨ino, hino⟩ := h.answered p rfl
    have hsame : (k.answer c.files .input p).2 = c.files := FileSystem.openFile_rdonly
    rw [hino] at hsame
    exact hsame

/-! ## Redirections that cannot be honoured -/

/-- Each file that a redirection names can be opened. -/
def Honoured (k : Kernel) (files : FileSystem) (args : List Bytes) : Prop :=
  ∀ d, ∀ path ∈ recorded d args, ∃ ino, (k.answer files d path).1 = .ok ino

theorem not_honoured {k : Kernel} {files : FileSystem} {args : List Bytes} {d : Direction}
    {path : Bytes} (hpath : recorded d args = some path)
    (h : ∃ e, (k.answer files d path).1 = .error e) : ¬ Honoured k files args := by
  intro hall
  obtain ⟨ino, hok⟩ := hall d path hpath
  obtain ⟨e, he⟩ := h
  rw [hok] at he
  cases he

/-- A binding stays when another file is opened. -/
theorem boundTo_mono {files files' : FileSystem} {d : Direction} {before after : OpenFile}
    {path : Option Bytes} (h : BoundTo files d before after path)
    (hle : ∀ q i, files.lookup q = some i → files'.lookup q = some i) :
    BoundTo files' d before after path := by
  cases path with
  | none => exact h
  | some p =>
    obtain ⟨ino, hino, hafter⟩ := h
    exact ⟨ino, hle p ino hino, hafter⟩

theorem lookup_of_passed {k : Kernel} {c t : Child} {file file' : Direction → OpenFile}
    {d : Direction} {path : Option Bytes} (h : Passed k c t file file' d path) (q : Bytes)
    (i : Nat) (hq : c.files.lookup q = some i) : t.files.lookup q = some i := by
  cases path with
  | none =>
    rw [h.absent rfl]
    exact hq
  | some p =>
    obtain ⟨ino, hino⟩ := h.answered p rfl
    exact (FileSystem.openFile_ok hino).2 q i hq

/-- A handler runs only if both files have been opened. -/
theorem honoured_of_passed {k : Kernel} {files : FileSystem} {args : List Bytes} {c u v : Child}
    {file file' file'' : Direction → OpenFile} (hc : c.files = files)
    (hinput : Passed k c u file file' .input (recorded .input args))
    (houtput : Passed k u v file' file'' .output (recorded .output args)) :
    Honoured k files args := by
  intro d path hpath
  cases d with
  | input =>
    obtain ⟨ino, hino⟩ := hinput.answered path hpath
    rw [hc] at hino
    exact ⟨ino, congrArg Prod.fst hino⟩
  | output =>
    obtain ⟨ino, hino⟩ := houtput.answered path hpath
    rw [files_of_passed_input hinput, hc] at hino
    exact ⟨ino, congrArg Prod.fst hino⟩

theorem runChild_of_not_honoured {k : Kernel} {cmd : Bytes} (hcmd : isValid cmd = true)
    {args : List Bytes} (hnul : ∀ a ∈ args, 0 ∉ a) (behind : List (Option Bytes))
    {files : FileSystem} (file : Direction → OpenFile) (rest : List (Option OpenFile))
    (h : ¬ Honoured k files args) :
    (runChild k cmd args behind (.start files file rest)).handled = [] ∧
      (runChild k cmd args behind (.start files file rest)).files = files := by
  rcases execute_cases k hcmd hnul behind (start_std files file rest) with
    ⟨path, hpath, hfailed⟩ | ⟨u, file', path, hinput, hpath, hfailed⟩ |
    ⟨u, v, file', file'', hinput, houtput, -⟩
  · exact ⟨hfailed.handled, hfailed.files⟩
  · refine ⟨?_, hfailed.files.trans (files_of_passed_input hinput)⟩
    rw [hfailed.handled, hinput.handled]
    rfl
  · exact absurd (honoured_of_passed rfl hinput houtput) h

theorem runChild_of_honoured {k : Kernel} {cmd : Bytes} (hcmd : isValid cmd = true)
    {args : List Bytes} (hnul : ∀ a ∈ args, 0 ∉ a) (behind : List (Option Bytes))
    {files : FileSystem} (file : Direction → OpenFile) (rest : List (Option OpenFile))
    (h : Honoured k files args) :
    ∃ after : Direction → OpenFile,
      (runChild k cmd args behind (.start files file rest)).handled =
        [⟨cmd, stripped args, some (after .input), some (after .output)⟩] ∧
      BoundTo files .input (file .input) (after .input) (recorded .input args) ∧
      ∀ d, BoundTo (runChild k cmd args behind (.start files file rest)).files d (file d) (after d)
        (recorded d args) := by
  rcases execute_cases k hcmd hnul behind (start_std files file rest) with
    ⟨path, hpath, hfailed⟩ | ⟨u, file', path, hinput, hpath, hfailed⟩ |
    ⟨u, v, file', file'', hinput, houtput, hrun⟩
  · exact absurd h (not_honoured hpath hfailed.answered)
  · have hfiles : u.files = files := files_of_passed_input hinput
    refine absurd h (not_honoured hpath ?_)
    rw [← hfiles]
    exact hfailed.answered
  · have hfiles : u.files = files := files_of_passed_input hinput
    have hfirst := hinput.bound
    rw [← houtput.other .input (by simp)] at hfirst
    refine ⟨file'', ?_, ?_, ?_⟩
    · rw [hrun, houtput.handled, hinput.handled]
      rfl
    · rwa [hfiles] at hfirst
    · intro d
      rw [hrun]
      cases d with
      | input =>
        show BoundTo v.files _ _ _ _
        exact boundTo_mono hfirst (lookup_of_passed houtput)
      | output =>
        have hbound := houtput.bound
        rwa [hinput.other .output (by simp)] at hbound

/-- If a file that a redirection names cannot be opened, no handler runs and no file
changes. Otherwise the handler runs once, with the arguments that are left, and standard
input and output are the files that were named. -/
theorem execute_atomic (k : Kernel) {cmd : Bytes} (hcmd : isValid cmd = true) {args : List Bytes}
    (hnul : ∀ a ∈ args, 0 ∉ a) (behind : List (Option Bytes)) (files : FileSystem)
    (file : Direction → OpenFile) (rest : List (Option OpenFile)) :
    (¬ Honoured k files args →
      (runChild k cmd args behind (.start files file rest)).handled = [] ∧
      (runChild k cmd args behind (.start files file rest)).files = files) ∧
    (Honoured k files args → ∃ after : Direction → OpenFile,
      (runChild k cmd args behind (.start files file rest)).handled =
        [⟨cmd, stripped args, some (after .input), some (after .output)⟩] ∧
      ∀ d, BoundTo (runChild k cmd args behind (.start files file rest)).files d (file d) (after d)
        (recorded d args)) := by
  refine ⟨runChild_of_not_honoured hcmd hnul behind file rest, ?_⟩
  intro hon
  obtain ⟨after, hhandled, -, hbound⟩ := runChild_of_honoured hcmd hnul behind file rest hon
  exact ⟨after, hhandled, hbound⟩

/-- The kernel refuses nothing. -/
def permissive : Kernel := ⟨fun _ => none, 0, fun _ => []⟩

/-- Standard input and output as they were. -/
def terminal : Direction → OpenFile
  | .input => .inherited 0
  | .output => .inherited 1

/-- `> out < in`. -/
def copyArgs : List Bytes := [ascii ">", ascii "out", ascii "<", ascii "in"]

/-- The file `in`. -/
def inFile : FileSystem := .ofList [(ascii "in", ⟨ascii "text", 0, 0⟩)]

theorem copyArgs_honoured : Honoured permissive inFile copyArgs := by
  intro d path hpath
  cases d with
  | input =>
    have hrec : recorded .input copyArgs = some (ascii "in") := by decide
    obtain rfl : ascii "in" = path := Option.some.inj (hrec.symm.trans hpath)
    exact ⟨0, by decide⟩
  | output =>
    have hrec : recorded .output copyArgs = some (ascii "out") := by decide
    obtain rfl : ascii "out" = path := Option.some.inj (hrec.symm.trans hpath)
    exact ⟨1, by decide⟩

theorem execute_atomic_copy :
    (∃ after : Direction → OpenFile,
      (runChild permissive cmdCat copyArgs [] (.start inFile terminal [])).handled =
        [⟨cmdCat, stripped copyArgs, some (after .input), some (after .output)⟩]) ∧
    (runChild permissive cmdCat copyArgs [] (.start (.ofList []) terminal [])).handled = [] := by
  have hcmd : isValid cmdCat = true := by decide
  have hnul : ∀ a ∈ copyArgs, 0 ∉ a := by decide
  constructor
  · have hon := copyArgs_honoured
    obtain ⟨after, hafter, -⟩ := (execute_atomic permissive hcmd hnul [] inFile terminal []).2 hon
    exact ⟨after, hafter⟩
  · refine ((execute_atomic permissive hcmd hnul [] (.ofList []) terminal []).1 ?_).1
    intro hon
    obtain ⟨ino, hino⟩ := hon .input (ascii "in") (by decide)
    cases hino

/-! ## The names of the files -/

/-- Every file that was opened is the last one named for its direction. -/
def OpensNamed (args : List Bytes) (opened : List (Bytes × Flags)) : Prop :=
  ∀ d path, (path, d.flags) ∈ opened → lastOperand d args = some path

theorem flags_injective {d e : Direction} (h : d.flags = e.flags) : d = e := by
  cases d <;> cases e <;> first | rfl | cases h

/-- The name in the buffer is the operand if it is short enough. -/
theorem recorded_eq_iff {d : Direction} {args : List Bytes} {path : Bytes}
    (h : recorded d args = some path) :
    lastOperand d args = some path ↔ ∀ operand ∈ lastOperand d args, operand.length < filesize := by
  obtain ⟨operand, hop, rfl⟩ := Option.map_eq_some_iff.mp h
  rw [hop]
  simp only [Option.some.injEq, Option.mem_def, forall_eq']
  constructor
  · intro heq
    rw [heq, List.length_take]
    exact (min_le_left _ _).trans_lt (by decide)
  · intro hlt
    exact (List.take_of_length_le (Nat.le_sub_one_of_lt hlt)).symm

theorem recorded_isSome {d : Direction} {args : List Bytes} {operand : Bytes}
    (h : lastOperand d args = some operand) :
    recorded d args = some (operand.take (filesize - 1)) := by
  rw [recorded, h]
  rfl

/-- The arguments of a command line have no NULs. -/
theorem nul_notMem_of_call {buff cmd : Bytes} {args : List Bytes}
    (h : reaction (tokensOf buff) = .call cmd args) :
    isValid cmd = true ∧ ∀ a ∈ args, 0 ∉ a := by
  have hnul : ∀ w ∈ tokensOf buff, 0 ∉ w := by
    intro w hw h0
    have hmem : 0 ∈ (words isDelim buff.cstr).flatten := List.mem_flatten.mpr ⟨w, hw, h0⟩
    rw [(words_spec buff.cstr).2] at hmem
    simpa using List.mem_takeWhile_imp (List.mem_of_mem_filter hmem)
  generalize tokensOf buff = ws at h hnul
  cases ws with
  | nil => cases h
  | cons w ws =>
    rw [reaction] at h
    split at h
    · split at h <;> cases h
    · split at h
      next hvalid =>
        obtain ⟨rfl, rfl⟩ := Reaction.call.inj h
        exact ⟨hvalid, fun a ha => hnul a (List.mem_cons_of_mem w ha)⟩
      next => cases h

/-- If both files are opened, both names have to fit. -/
theorem opensNamed_iff_of_opened {args : List Bytes} {opened : List (Bytes × Flags)}
    (h : ∀ d path, (path, d.flags) ∈ opened ↔ recorded d args = some path) :
    OpensNamed args opened ↔ ∀ d, ∀ operand ∈ lastOperand d args, operand.length < filesize := by
  constructor
  · intro hnamed d operand hop
    have hrec := recorded_isSome hop
    exact (recorded_eq_iff hrec).mp (hnamed d _ ((h d _).mpr hrec)) operand hop
  · intro hfits d path hpath
    exact (recorded_eq_iff ((h d path).mp hpath)).mpr (hfits d)

theorem mem_opened_iff {args : List Bytes} {d : Direction} {path : Bytes} :
    (path, d.flags) ∈ ((recorded .input args).map fun p => (p, Direction.input.flags)).toList ++
      ((recorded .output args).map fun p => (p, Direction.output.flags)).toList ↔
    recorded d args = some path := by
  simp only [List.mem_append, Option.mem_toList, Option.map_eq_some_iff, Prod.mk.injEq]
  cases d with
  | input =>
    constructor
    · rintro (⟨p, hp, rfl, -⟩ | ⟨p, hp, rfl, hflags⟩)
      · exact hp
      · cases hflags
    · exact fun hp => .inl ⟨path, hp, rfl, rfl⟩
  | output =>
    constructor
    · rintro (⟨p, hp, rfl, hflags⟩ | ⟨p, hp, rfl, -⟩)
      · cases hflags
      · exact hp
    · exact fun hp => .inr ⟨path, hp, rfl, rfl⟩

/-- The name of the input file fits its buffer; that of the output file fits its own, or
the input file cannot be opened. -/
def NamesFit (k : Kernel) (files : FileSystem) (args : List Bytes) : Prop :=
  (∀ operand ∈ lastOperand .input args, operand.length < filesize) ∧
  (∀ operand ∈ lastOperand .output args, operand.length < filesize ∨
    ∃ name ∈ lastOperand .input args, ∃ e, (k.answer files .input name).1 = .error e)

/-- If the input file cannot be opened, only its name matters. -/
theorem opensNamed_of_failed {k : Kernel} {files : FileSystem} {args : List Bytes} {path : Bytes}
    (hpath : recorded .input args = some path)
    (h : ∃ e, (k.answer files .input path).1 = .error e) :
    OpensNamed args [(path, Direction.input.flags)] ↔ NamesFit k files args := by
  have hone : OpensNamed args [(path, Direction.input.flags)] ↔
      lastOperand .input args = some path := by
    constructor
    · intro hnamed
      exact hnamed .input path List.mem_cons_self
    · intro hop d p hp
      obtain ⟨rfl, hflags⟩ := Prod.mk.inj (List.mem_singleton.mp hp)
      rw [flags_injective hflags]
      exact hop
  rw [hone, recorded_eq_iff hpath]
  refine ⟨fun hfits => ⟨hfits, fun _ _ => .inr ⟨path, ?_, h⟩⟩, fun hfit => hfit.1⟩
  exact (recorded_eq_iff hpath).mpr hfits

/-- If it can, both names matter. -/
theorem opensNamed_of_passed {k : Kernel} {c u : Child} {file file' : Direction → OpenFile}
    {args : List Bytes} (h : Passed k c u file file' .input (recorded .input args))
    (hc : c.opened = []) :
    OpensNamed args (u.opened ++
      ((recorded .output args).map fun p => (p, Direction.output.flags)).toList) ↔
    NamesFit k c.files args := by
  rw [h.opened, hc, List.nil_append, opensNamed_iff_of_opened fun d path => mem_opened_iff]
  constructor
  · intro hfits
    exact ⟨hfits .input, fun operand hop => .inl (hfits .output operand hop)⟩
  · rintro ⟨hinput, houtput⟩ d
    cases d with
    | input => exact hinput
    | output =>
      intro operand hop
      refine (houtput operand hop).resolve_right ?_
      rintro ⟨name, hname, e, he⟩
      have hrec := recorded_isSome hname
      rw [List.take_of_length_le (Nat.le_sub_one_of_lt (hinput name hname))] at hrec
      obtain ⟨ino, hino⟩ := h.answered name hrec
      rw [hino] at he
      cases he

/-- What is opened is what was named exactly if the names fit. -/
theorem opens_named_iff (k : Kernel) {buff cmd : Bytes} {args : List Bytes}
    (h : reaction (tokensOf buff) = .call cmd args) (behind : List (Option Bytes))
    (files : FileSystem) (file : Direction → OpenFile) (rest : List (Option OpenFile)) :
    OpensNamed args (runChild k cmd args behind (.start files file rest)).opened ↔
      NamesFit k files args := by
  obtain ⟨hcmd, hnul⟩ := nul_notMem_of_call h
  rcases execute_cases k hcmd hnul behind (start_std files file rest) with
    ⟨path, hpath, hfailed⟩ | ⟨u, file', path, hinput, hpath, hfailed⟩ |
    ⟨u, v, file', file'', hinput, houtput, hrun⟩
  · rw [hfailed.opened]
    exact opensNamed_of_failed hpath hfailed.answered
  · have hboth := opensNamed_of_passed hinput rfl
    rw [hpath] at hboth
    rw [hfailed.opened]
    exact hboth
  · rw [hrun]
    show OpensNamed args v.opened ↔ _
    rw [houtput.opened]
    exact opensNamed_of_passed hinput rfl

/-- `mojecho > out`. -/
theorem opens_named_short :
    OpensNamed [ascii ">", ascii "out"]
      (runChild permissive cmdEcho [ascii ">", ascii "out"] []
        (.start (.ofList []) terminal [])).opened := by
  have hcall : reaction (tokensOf (ascii "mojecho > out\n")) =
      .call cmdEcho [ascii ">", ascii "out"] := by decide
  refine (opens_named_iff permissive hcall [] (.ofList []) terminal []).mpr ⟨?_, ?_⟩
  · intro operand hop
    cases hop
  · intro operand hop
    obtain rfl : ascii "out" = operand := Option.some.inj hop
    exact .inl (by decide)

/-- The bytes `a`. -/
def aaa (n : Nat) : Bytes := List.replicate n 97

/-- The line `mojecho > aa…a`, with a name of 64 bytes. -/
def longName : Bytes := ascii "mojecho > " ++ aaa 64 ++ [newline]

/-- The file at the first 63 bytes of the name is emptied instead. -/
theorem otherFile_truncated :
    ((Shell.start longName).loopBody fun _ => true).calls =
      [(cmdEcho, [ascii ">", aaa 64])] ∧
    (runChild permissive cmdEcho [ascii ">", aaa 64] []
      (.start (.ofList [(aaa 63, ⟨ascii "text", 0, 0⟩)]) terminal [])).opened =
      [(aaa 63, Direction.output.flags)] ∧
    ((runChild permissive cmdEcho [ascii ">", aaa 64] []
      (.start (.ofList [(aaa 63, ⟨ascii "text", 0, 0⟩)]) terminal [])).files.file 0).content = [] ∧
    ¬ OpensNamed [ascii ">", aaa 64]
      (runChild permissive cmdEcho [ascii ">", aaa 64] []
        (.start (.ofList [(aaa 63, ⟨ascii "text", 0, 0⟩)]) terminal [])).opened := by
  have hopened : (runChild permissive cmdEcho [ascii ">", aaa 64] []
      (.start (.ofList [(aaa 63, ⟨ascii "text", 0, 0⟩)]) terminal [])).opened =
      [(aaa 63, Direction.output.flags)] := by decide
  refine ⟨by decide, hopened, by decide, ?_⟩
  rw [hopened]
  intro hnamed
  have hname := hnamed .output (aaa 63) List.mem_cons_self
  revert hname
  decide

end SisProg.Mojbash
