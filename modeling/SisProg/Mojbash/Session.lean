import SisProg.Lib.Evolution
import SisProg.Lib.Hoare
import SisProg.Mojbash.LiveCat
import SisProg.Mojbash.Mojls
import SisProg.Mojbash.Mojtouch

/-!
# Sessions

A line that names a built-in command takes the world from one state to another: the child
opens the files of the redirections, and the handler runs. What the kernel answers is a part
of the call, or up to it where it is asked again and again. A handler that does not return,
or whose behaviour is undefined, leads nowhere. A session is the commands of its lines, one
after the other.

* `runs_cases`: a redirection cannot be honoured and nothing is changed, or the handler runs.
* `session_frame`: a session changes the files at the paths of its output redirections, and
  creates files there and at the operands of `mojtouch`. Nothing else happens to a file.
-/

namespace SisProg.Mojbash

open Bytes (ascii)

/-! ## Calls -/

/-- A line, and what the kernel has ready for the child that executes it: the answers to the
redirections, what is behind the arguments in memory, and the other descriptors. -/
structure Call where
  line : Bytes
  cmd : Bytes
  args : List Bytes
  typed : reaction (tokensOf line) = .call cmd args
  kernel : Kernel
  behind : List (Option Bytes)
  rest : List (Option OpenFile)

/-- The child after `execute`, but for what the handler does. -/
def Call.child (c : Call) (w : World) : Child :=
  runChild c.kernel c.cmd c.args c.behind (.start w.files terminal c.rest)

/-- The world when the handler is called. -/
def World.opened (w : World) (child : Child) : World :=
  { w with files := child.files, stderr := w.stderr ++ child.stderr }

/-- Standard input of a handler. -/
def Source.ofOpenFile : OpenFile → Source
  | .inherited _ => .terminal
  | .file ino _ => .file ino 0

/-- What `mojls` prints. -/
def Listing.text (l : Listing) : Bytes := l.rows.flatMap Row.line

/-- What the handlers do. In a run of `mojcat` only the steps with `ok` occur. The writes of
`mojecho` and `mojls` are complete, and `mojls` lists directories that can be opened. -/
inductive Handles (ok : CatAct → Prop) (k : Kernel) : Handled → World → World → Prop
  | echo {args : List Bytes} {stdin : Option OpenFile} {out : OpenFile} {w : World} :
      Handles ok k ⟨cmdEcho, args, stdin, some out⟩ w
        (mojecho k.now args (w, .ofOpenFile out)).1
  | cat {args : List Bytes} {inp out : OpenFile} {w : World} {as : List CatAct} {t : Cat}
      (run : (cat k.now k.strerror).Exec
        (.start w (.ofOpenFile out) (.ofOpenFile inp) args) as t)
      (allowed : ∀ a ∈ as, ok a) (returned : t.pc = .returned) :
      Handles ok k ⟨cmdCat, args, some inp, some out⟩ w t.out.1
  | touch {operands : List (Bytes × Answers)} {stdin stdout : Option OpenFile} {w : World} :
      Handles ok k ⟨cmdTouch, operands.map Prod.fst, stdin, stdout⟩ w
        { w with
          files := (mojtouch k.strerror operands ⟨w.files, w.stderr⟩).files
          stderr := (mojtouch k.strerror operands ⟨w.files, w.stderr⟩).stderr }
  | ls {args : List Bytes} {stdin : Option OpenFile} {out : OpenFile} {w : World} {h : Host}
      {listings : List Listing} (lists : mojls h args = some listings) :
      Handles ok k ⟨cmdLs, args, stdin, some out⟩ w
        (write k.now (listings.flatMap Listing.text) (w, .ofOpenFile out)).1

/-- The command of a line: the handler runs, or a file could not be opened. -/
def runs (ok : CatAct → Prop) (c : Call) : Command World := fun w w' =>
  match (c.child w).handled with
  | [] => w' = w.opened (c.child w)
  | h :: _ => Handles ok c.kernel h (w.opened (c.child w)) w'

def session (ok : CatAct → Prop) (calls : List Call) : Command World :=
  Command.each (runs ok) calls

/-! ## What is changed -/

/-- The files at the paths with `written` may have been changed, files may have been created
at those with `created`, and something may have been shown. -/
structure World.Evolves (written created : Bytes → Prop) (w w' : World) : Prop where
  files : w.files.Evolves written created w'.files
  terminal : w.terminal <+: w'.terminal
  stderr : w.stderr <+: w'.stderr

variable {written created : Bytes → Prop}

theorem World.Evolves.refl (w : World) : w.Evolves written created w :=
  ⟨.refl _, List.prefix_rfl, List.prefix_rfl⟩

theorem World.Evolves.trans {w v u : World} (h : w.Evolves written created v)
    (h' : v.Evolves written created u) : w.Evolves written created u :=
  ⟨h.files.trans h'.files, h.terminal.trans h'.terminal, h.stderr.trans h'.stderr⟩

/-- A file that standard output goes to is at a path with `written`. -/
def Stdout.Named (written : Bytes → Prop) (fs : FileSystem) (stdout : Stdout) : Prop :=
  ∀ ino, stdout.ino = some ino → ∃ path, written path ∧ fs.lookup path = some ino

theorem evolves_write {w : World} {stdout : Stdout} (h : stdout.Named written w.files) (now : Nat)
    (buf : Bytes) : w.Evolves written created (write now buf (w, stdout)).1 := by
  cases stdout with
  | terminal => exact ⟨.refl _, List.prefix_append _ _, List.prefix_rfl⟩
  | file ino offset =>
    obtain ⟨path, hwritten, hpath⟩ := h ino rfl
    exact ⟨FileSystem.evolves_writeAt hpath hwritten, List.prefix_rfl, List.prefix_rfl⟩

theorem evolves_step {now : Nat} {strerror : Errno → Bytes} {s t : Cat} {a : CatAct}
    (h : s.out.2.Named written s.files) (hstep : Cat.Step now strerror a s t) :
    s.out.1.Evolves written created t.out.1 ∧ t.out.2.Named written t.files := by
  cases hstep with
  | opened | leave | read | eof | readError => exact ⟨.refl _, h⟩
  | refused | missing | readErrorOf | writeError =>
    exact ⟨⟨.refl _, List.prefix_rfl, List.prefix_append _ _⟩, h⟩
  | @write out fnames fname src buf =>
    refine ⟨evolves_write h now buf, fun ino hino => ?_⟩
    have hino : (write now buf out).2.ino = some ino := hino
    rw [ino_write] at hino
    obtain ⟨path, hwritten, hpath⟩ := h ino hino
    refine ⟨path, hwritten, ?_⟩
    obtain ⟨w, stdout⟩ := out
    cases stdout <;> exact hpath

theorem evolves_run {now : Nat} {strerror : Errno → Bytes} {s t : Cat} {as : List CatAct}
    (h : s.out.2.Named written s.files) (hrun : (cat now strerror).Exec s as t) :
    s.out.1.Evolves written created t.out.1 := by
  suffices s.out.1.Evolves written created t.out.1 ∧ t.out.2.Named written t.files from this.1
  refine hrun.induct (P := fun t => s.out.1.Evolves written created t.out.1 ∧
    t.out.2.Named written t.files) ⟨.refl _, h⟩ ?_
  rintro t a ⟨hevolves, hnamed⟩ he
  obtain ⟨hstep, hnext⟩ := @evolves_step written created now strerror _ _ _ hnamed (step_cat he)
  exact ⟨hevolves.trans hstep, hnext⟩

/-! ## mojtouch -/

theorem touch_stderr {strerror : Errno → Bytes} (s : Touching) (operand : Bytes × Answers) :
    s.stderr <+: (touch strerror s operand).stderr := by
  obtain ⟨path, a⟩ := operand
  have hupdate : s.stderr <+: (updateTimes strerror path a s).stderr := by
    unfold updateTimes
    cases s.files.openFile path { wronly := true } a.write a.now with
    | mk result files =>
      cases result with
      | error e => exact List.prefix_append _ _
      | ok ino =>
        cases a.utimes with
        | some e => exact List.prefix_append _ _
        | none => exact List.prefix_rfl
  unfold touch
  dsimp only
  cases s.files.openFile path { creat := true, excl := true } a.create a.now with
  | mk result files =>
    cases result with
    | ok ino => exact List.prefix_rfl
    | error e =>
      cases e with
      | eexist => exact hupdate
      | enoent | eisdir | other => exact List.prefix_append _ _

theorem mojtouch_stderr {strerror : Errno → Bytes} (operands : List (Bytes × Answers))
    (s : Touching) : s.stderr <+: (mojtouch strerror operands s).stderr := by
  induction operands generalizing s with
  | nil => exact List.prefix_rfl
  | cons operand operands ih => exact (touch_stderr s operand).trans (ih _)

theorem evolves_touched {operands : List (Bytes × Answers)} {fs t : FileSystem}
    (h : Touched operands fs t) (hcreated : ∀ a ∈ operands, created a.1) :
    fs.Evolves written created t where
  entry := h.entry
  next := h.next
  found := h.found
  new q i hnone hsome := by
    obtain ⟨hle, -, a, ha, hentry⟩ := h.new q i hnone hsome
    exact ⟨hle, a.1, hcreated a ha, hentry⟩
  kept i hi _ := h.kept i hi

/-! ## A line -/

/-- The paths whose files a call changes. -/
def Call.writes (c : Call) (path : Bytes) : Prop := recorded .output c.args = some path

/-- The paths at which it creates a file. -/
def Call.creates (c : Call) (path : Bytes) : Prop :=
  c.writes path ∨ c.cmd = cmdTouch ∧ path ∈ stripped c.args

theorem evolves_handles {ok : CatAct → Prop} {k : Kernel} {h : Handled} {w w' : World}
    (hout : ∀ out ∈ h.stdout, (Stdout.ofOpenFile out).Named written w.files)
    (htouch : h.command = cmdTouch → ∀ path ∈ h.args, created path)
    (hh : Handles ok k h w w') : w.Evolves written created w' := by
  cases hh with
  | echo =>
    rw [mojecho_eq]
    exact evolves_write (hout _ rfl) _ _
  | cat run => exact evolves_run (hout _ rfl) run
  | @touch operands stdin stdout =>
    refine ⟨evolves_touched (touched_mojtouch operands ⟨w.files, w.stderr⟩) ?_, List.prefix_rfl,
      mojtouch_stderr operands ⟨w.files, w.stderr⟩⟩
    exact fun a ha => htouch rfl a.1 (List.mem_map_of_mem ha)
  | ls => exact evolves_write (hout _ rfl) _ _

/-- What the child has made of the files when it calls the handler. -/
structure Prepared (c : Call) (w : World) (after : Direction → OpenFile) : Prop where
  evolves : w.files.Evolves c.writes c.creates (c.child w).files
  bound : ∀ d, BoundTo (c.child w).files d (terminal d) (after d) (recorded d c.args)
  empty : ∀ ino flags, after .output = .file ino flags → ((c.child w).files.file ino).content = []

/-- A file that is opened for output is empty. -/
theorem content_of_openFile {fs t : FileSystem} {path : Bytes} {ino now : Nat}
    {refusal : Option Errno}
    (h : fs.openFile path Direction.output.flags refusal now = (.ok ino, t)) :
    (t.file ino).content = [] := by
  obtain ⟨-, ⟨-, -, rfl⟩ | ⟨-, -, rfl, rfl⟩⟩ := FileSystem.openFile_ok_cases h
  · rw [if_pos (show Direction.output.flags.trunc = true from rfl), FileSystem.file_update_self]
  · rw [FileSystem.file_create_next]

theorem prepared_of_passed {c : Call} {w : World} {u v : Child}
    {file' file'' : Direction → OpenFile}
    (hinput : Passed c.kernel (.start w.files terminal c.rest) u terminal file' .input
      (recorded .input c.args))
    (houtput : Passed c.kernel u v file' file'' .output (recorded .output c.args))
    (hfiles : (c.child w).files = v.files) : Prepared c w file'' := by
  have hu : u.files = w.files := files_of_passed_input hinput
  have hbound := houtput.bound
  rw [hinput.other .output (by simp)] at hbound
  constructor
  · rw [hfiles, ← hu]
    cases hpath : recorded .output c.args with
    | none =>
      rw [houtput.absent hpath]
      exact .refl _
    | some path =>
      obtain ⟨ino, hino⟩ := houtput.answered path hpath
      exact FileSystem.evolves_openFile hino (fun _ => hpath) fun _ => .inl hpath
  · rw [hfiles]
    intro d
    cases d with
    | input =>
      rw [houtput.other .input (by simp)]
      exact boundTo_mono hinput.bound (lookup_of_passed houtput)
    | output => exact hbound
  · rw [hfiles]
    intro ino flags hafter
    cases hpath : recorded .output c.args with
    | none =>
      rw [hpath] at hbound
      cases hafter.symm.trans hbound
    | some path =>
      obtain ⟨ino', hino'⟩ := houtput.answered path hpath
      rw [hpath] at hbound
      obtain ⟨j, hj, hafter'⟩ := hbound
      obtain rfl : ino = j := (OpenFile.file.inj (hafter.symm.trans hafter')).1
      obtain rfl : ino' = ino := Option.some.inj ((FileSystem.openFile_ok hino').1.symm.trans hj)
      exact content_of_openFile hino'

/-- A line is executed: a redirection cannot be honoured and nothing is changed, or the
handler runs. -/
theorem runs_cases {ok : CatAct → Prop} {c : Call} {w w' : World} (h : runs ok c w w') :
    (¬ Honoured c.kernel w.files c.args ∧ w'.files = w.files ∧ w'.terminal = w.terminal ∧
      w.stderr <+: w'.stderr) ∨
    ∃ after : Direction → OpenFile, Prepared c w after ∧
      Handles ok c.kernel ⟨c.cmd, stripped c.args, some (after .input), some (after .output)⟩
        (w.opened (c.child w)) w' := by
  obtain ⟨hcmd, hnul⟩ := nul_notMem_of_call c.typed
  unfold runs at h
  rcases execute_cases c.kernel hcmd hnul c.behind (start_std w.files terminal c.rest) with
    ⟨path, hpath, hfailed⟩ | ⟨u, file', path, hinput, hpath, hfailed⟩ |
    ⟨u, v, file', file'', hinput, houtput, hrun⟩
  · have hhandled : (c.child w).handled = [] := hfailed.handled
    rw [hhandled] at h
    subst h
    exact .inl ⟨not_honoured hpath hfailed.answered, hfailed.files, rfl, List.prefix_append _ _⟩
  · have hu : u.files = w.files := files_of_passed_input hinput
    have hhandled : (c.child w).handled = [] := hfailed.handled.trans hinput.handled
    have hanswered := hfailed.answered
    rw [hu] at hanswered
    rw [hhandled] at h
    subst h
    exact .inl ⟨not_honoured hpath hanswered, hfailed.files.trans hu, rfl,
      List.prefix_append _ _⟩
  · have hv : v.handled = [] := houtput.handled.trans hinput.handled
    have hchild : (c.child w).handled =
        [⟨c.cmd, stripped c.args, some (file'' .input), some (file'' .output)⟩] := by
      rw [show c.child w = _ from hrun, hv]
      rfl
    have hfiles : (c.child w).files = v.files := by
      rw [show c.child w = _ from hrun]
    rw [hchild] at h
    exact .inr ⟨file'', prepared_of_passed hinput houtput hfiles, h⟩

theorem named_of_prepared {c : Call} {w : World} {after : Direction → OpenFile}
    (h : Prepared c w after) :
    (Stdout.ofOpenFile (after .output)).Named c.writes (c.child w).files := by
  have hbound := h.bound .output
  cases hpath : recorded .output c.args with
  | none =>
    rw [hpath] at hbound
    rw [show after .output = .inherited 1 from hbound]
    exact nofun
  | some path =>
    rw [hpath] at hbound
    obtain ⟨ino, hino, hafter⟩ := hbound
    rw [hafter]
    rintro i ⟨⟩
    exact ⟨path, hpath, hino⟩

theorem evolves_runs {ok : CatAct → Prop} {c : Call} {w w' : World} (h : runs ok c w w') :
    w.Evolves c.writes c.creates w' := by
  rcases runs_cases h with ⟨-, hfiles, hterminal, hstderr⟩ | ⟨after, hprepared, hh⟩
  · refine ⟨?_, ?_, hstderr⟩
    · rw [hfiles]
      exact .refl _
    · rw [hterminal]
  · have hopened : w.Evolves c.writes c.creates (w.opened (c.child w)) :=
      ⟨hprepared.evolves, List.prefix_rfl, List.prefix_append _ _⟩
    refine hopened.trans (evolves_handles ?_ ?_ hh)
    · rintro out ⟨⟩
      exact named_of_prepared hprepared
    · exact fun hcmd path hpath => .inr ⟨hcmd, hpath⟩

theorem evolves_session {ok : CatAct → Prop} {calls : List Call} :
    Command.Within (session ok calls)
      (World.Evolves (fun p => ∃ c ∈ calls, c.writes p) fun p => ∃ c ∈ calls, c.creates p) := by
  refine Command.Within.each World.Evolves.refl (fun _ _ _ => World.Evolves.trans) ?_
  intro c hc w w' h
  have hevolves := evolves_runs h
  exact ⟨hevolves.files.mono (fun p hp => ⟨c, hc, hp⟩) fun p hp => ⟨c, hc, hp⟩,
    hevolves.terminal, hevolves.stderr⟩

/-- `mojecho hi > f`. -/
def echoCall : Call where
  line := ascii "mojecho hi > f\n"
  cmd := cmdEcho
  args := [ascii "hi", ascii ">", ascii "f"]
  typed := by decide
  kernel := permissive
  behind := []
  rest := []

/-- The file `in`, and no file `f`. -/
def inWorld : World := ⟨inFile, [], []⟩

/-- The file `f` has been written. -/
def echoedFile : World :=
  (mojecho 0 [ascii "hi"] (inWorld.opened (echoCall.child inWorld), .file 1 0)).1

theorem runs_echoCall (ok : CatAct → Prop) : runs ok echoCall inWorld echoedFile := by
  have hhandled : (echoCall.child inWorld).handled =
      [⟨cmdEcho, [ascii "hi"], some (.inherited 0), some (.file 1 Direction.output.flags)⟩] := by
    decide
  unfold runs
  rw [hhandled]
  exact .echo

end SisProg.Mojbash
