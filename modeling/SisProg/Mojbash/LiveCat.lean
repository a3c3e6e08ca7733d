import SisProg.Lib.Machine
import SisProg.Mojbash.Mojcat
import SisProg.Mojbash.Mojecho

/-!
# mojcat, call by call

`mojcat` reads its operands while it writes, and standard output may be one of the files
that it reads. So here every call of `open`, `read` and `write` is a step, which sees the
files as they are then. A `read` from the terminal returns what was typed.

* `copied_of_run`: a run that reads the files as they were at the start writes and reports
  what the operands are, one after the other.
* `live_refines`: so it is where the output is not among the files that are read, and the run
  does what `mojcat` does with the files as they were at the start.
-/

namespace SisProg.Mojbash

open Bytes (ascii)

/-- What a descriptor is open on: the terminal, or a file, at an offset. -/
inductive Source
  | terminal
  | file (ino offset : Nat)
deriving DecidableEq

/-- Where `mojcat` is: about to test `*fnames`, about to read or to write for the operand
`fname` or for standard input, or back. -/
inductive CatPc
  | operands
  | read (fname : Option Bytes) (src : Source)
  | write (fname : Option Bytes) (src : Source) (buf : Bytes)
  | returned
deriving DecidableEq

/-- The world with standard output, the operands from `*fnames` on, and the place. -/
structure Cat where
  out : World × Stdout
  fnames : List Bytes
  pc : CatPc

inductive CatAct
  | openFile (refusal : Option Errno)
  | read (buf : Bytes)
  | eof
  | readError (e : Errno)
  | write
  | writeError (e : Errno)
  | leave
deriving DecidableEq

namespace Source

/-- `read` can return `buf`. -/
def Gives (files : FileSystem) (buf : Bytes) : Source → Prop
  | .terminal => True
  | .file ino offset => buf <+: (files.file ino).content.drop offset

/-- `read` can return `0`. -/
def Ended (files : FileSystem) : Source → Prop
  | .terminal => True
  | .file ino offset => (files.file ino).content.drop offset = []

/-- The offset after `buf` has been read. -/
def advance (buf : Bytes) : Source → Source
  | .terminal => .terminal
  | .file ino offset => .file ino (offset + buf.length)

instance (files : FileSystem) (buf : Bytes) (src : Source) : Decidable (src.Gives files buf) := by
  cases src <;> unfold Gives <;> infer_instance

instance (files : FileSystem) (src : Source) : Decidable (src.Ended files) := by
  cases src <;> unfold Ended <;> infer_instance

end Source

namespace Cat

def files (s : Cat) : FileSystem := s.out.1.files

/-- `print_error`. -/
def printError (s : Cat) (arg msg : Bytes) : Cat :=
  { s with out := ({ s.out.1 with stderr := s.out.1.stderr ++ [errorLine arg msg] }, s.out.2) }

def enabled (s : Cat) : CatAct → Prop
  | .openFile _ => s.pc = .operands ∧ s.fnames ≠ []
  | .leave => s.pc = .operands ∧ s.fnames = []
  | .read buf => match s.pc with
    | .read _ src => buf ≠ [] ∧ buf.length ≤ buffsize ∧ src.Gives s.files buf
    | _ => False
  | .eof => match s.pc with
    | .read _ src => src.Ended s.files
    | _ => False
  | .readError _ => match s.pc with
    | .read _ _ => True
    | _ => False
  | .write | .writeError _ => match s.pc with
    | .write _ _ _ => True
    | _ => False

variable (now : Nat) (strerror : Errno → Bytes)

def next (s : Cat) (a : CatAct) : Cat :=
  match a, s.pc with
  | .openFile refusal, .operands =>
    match s.fnames with
    | [] => s
    | fname :: fnames =>
      match (s.files.openFile fname {} refusal now).1 with
      | .ok ino => { s with fnames, pc := .read (some fname) (.file ino 0) }
      | .error e => { s with fnames }.printError fname (openMessage strerror e)
  | .leave, .operands => { s with pc := .returned }
  | .read buf, .read fname src => { s with pc := .write fname (src.advance buf) buf }
  | .eof, .read _ _ => { s with pc := .operands }
  | .readError _, .read none _ => { s with pc := .operands }
  | .readError e, .read (some fname) _ =>
    { s with pc := .operands }.printError fname (strerror e)
  | .write, .write fname src buf =>
    { s with out := Mojbash.write now buf s.out, pc := .read fname src }
  | .writeError e, .write _ _ _ =>
    { s with pc := .operands }.printError (ascii "write") (strerror e)
  | _, _ => s

/-- `mojcat` is called. Without operands it reads standard input. -/
def start (w : World) (stdout : Stdout) (stdin : Source) (fnames : List Bytes) : Cat :=
  ⟨(w, stdout), fnames, if fnames = [] then .read none stdin else .operands⟩

end Cat

/-- The runs of `mojcat`; `now` is the time. -/
def cat (now : Nat) (strerror : Errno → Bytes) : Machine Cat CatAct where
  init s := ∃ w stdout stdin fnames, s = .start w stdout stdin fnames
  enabled := Cat.enabled
  next := Cat.next now strerror

/-- The call is not a `write` that fails. -/
def CatAct.Complete : CatAct → Prop
  | .writeError _ => False
  | _ => True

/-- The runs in which the writes are complete. -/
def completeCat (now : Nat) (strerror : Errno → Bytes) : Machine Cat CatAct :=
  (cat now strerror).restrict fun _ a => a.Complete

instance (s : Cat) (a : CatAct) : Decidable (s.enabled a) := by
  obtain ⟨out, fnames, pc⟩ := s
  cases a <;> cases pc <;> unfold Cat.enabled <;> infer_instance

instance (now : Nat) (strerror : Errno → Bytes) (s : Cat) (a : CatAct) :
    Decidable ((cat now strerror).enabled s a) :=
  inferInstanceAs (Decidable (s.enabled a))

/-! ## What a step does -/

/-- The steps of `mojcat`, with what they see. -/
inductive Cat.Step (now : Nat) (strerror : Errno → Bytes) : CatAct → Cat → Cat → Prop
  | opened {out : World × Stdout} {fname : Bytes} {fnames : List Bytes} {ino : Nat}
      (found : out.1.files.lookup fname = some ino) :
      Step now strerror (.openFile none) ⟨out, fname :: fnames, .operands⟩
        ⟨out, fnames, .read (some fname) (.file ino 0)⟩
  | refused {out : World × Stdout} {fname : Bytes} {fnames : List Bytes} {e : Errno} :
      Step now strerror (.openFile (some e)) ⟨out, fname :: fnames, .operands⟩
        (Cat.printError ⟨out, fnames, .operands⟩ fname (openMessage strerror e))
  | missing {out : World × Stdout} {fname : Bytes} {fnames : List Bytes}
      (missing : out.1.files.lookup fname = none) :
      Step now strerror (.openFile none) ⟨out, fname :: fnames, .operands⟩
        (Cat.printError ⟨out, fnames, .operands⟩ fname (openMessage strerror .enoent))
  | leave {out : World × Stdout} :
      Step now strerror .leave ⟨out, [], .operands⟩ ⟨out, [], .returned⟩
  | read {out : World × Stdout} {fnames : List Bytes} {fname : Option Bytes} {src : Source}
      {buf : Bytes} (nonempty : buf ≠ []) (fits : buf.length ≤ buffsize)
      (gives : src.Gives out.1.files buf) :
      Step now strerror (.read buf) ⟨out, fnames, .read fname src⟩
        ⟨out, fnames, .write fname (src.advance buf) buf⟩
  | eof {out : World × Stdout} {fnames : List Bytes} {fname : Option Bytes} {src : Source}
      (ended : src.Ended out.1.files) :
      Step now strerror .eof ⟨out, fnames, .read fname src⟩ ⟨out, fnames, .operands⟩
  | readError {out : World × Stdout} {fnames : List Bytes} {src : Source} {e : Errno} :
      Step now strerror (.readError e) ⟨out, fnames, .read none src⟩ ⟨out, fnames, .operands⟩
  | readErrorOf {out : World × Stdout} {fnames : List Bytes} {fname : Bytes} {src : Source}
      {e : Errno} :
      Step now strerror (.readError e) ⟨out, fnames, .read (some fname) src⟩
        (Cat.printError ⟨out, fnames, .operands⟩ fname (strerror e))
  | write {out : World × Stdout} {fnames : List Bytes} {fname : Option Bytes} {src : Source}
      {buf : Bytes} :
      Step now strerror .write ⟨out, fnames, .write fname src buf⟩
        ⟨Mojbash.write now buf out, fnames, .read fname src⟩
  | writeError {out : World × Stdout} {fnames : List Bytes} {fname : Option Bytes} {src : Source}
      {buf : Bytes} {e : Errno} :
      Step now strerror (.writeError e) ⟨out, fnames, .write fname src buf⟩
        (Cat.printError ⟨out, fnames, .operands⟩ (ascii "write") (strerror e))

variable {now : Nat} {strerror : Errno → Bytes}

theorem step_openFile (out : World × Stdout) (fname : Bytes) (fnames : List Bytes)
    (refusal : Option Errno) :
    Cat.Step now strerror (.openFile refusal) ⟨out, fname :: fnames, .operands⟩
      (Cat.next now strerror ⟨out, fname :: fnames, .operands⟩ (.openFile refusal)) := by
  have hnext : Cat.next now strerror ⟨out, fname :: fnames, .operands⟩ (.openFile refusal) =
      match (out.1.files.openFile fname {} refusal now).1 with
      | .ok ino => ⟨out, fnames, .read (some fname) (.file ino 0)⟩
      | .error e => Cat.printError ⟨out, fnames, .operands⟩ fname (openMessage strerror e) := rfl
  rw [hnext]
  cases refusal with
  | none =>
    cases hfound : out.1.files.lookup fname with
    | none =>
      simp only [FileSystem.openFile, hfound]
      exact .missing hfound
    | some ino =>
      simp only [FileSystem.openFile, hfound]
      exact .opened hfound
  | some e =>
    have herror : (out.1.files.openFile fname {} (some e) now).1 = .error e := by
      cases hfound : out.1.files.lookup fname <;> simp [FileSystem.openFile, hfound]
    rw [herror]
    exact .refused

theorem step_cat {s : Cat} {a : CatAct} (h : s.enabled a) :
    Cat.Step now strerror a s (s.next now strerror a) := by
  obtain ⟨out, fnames, pc⟩ := s
  cases a with
  | openFile refusal =>
    obtain ⟨rfl, hne⟩ := (h : pc = .operands ∧ fnames ≠ [])
    obtain ⟨fname, fnames, rfl⟩ := List.exists_cons_of_ne_nil hne
    exact step_openFile out fname fnames refusal
  | leave =>
    obtain ⟨rfl, rfl⟩ := (h : pc = .operands ∧ fnames = [])
    exact .leave
  | read buf =>
    cases pc with
    | read fname src => exact .read h.1 h.2.1 h.2.2
    | operands | write | returned => cases h
  | eof =>
    cases pc with
    | read fname src => exact .eof h
    | operands | write | returned => cases h
  | readError e =>
    cases pc with
    | read fname src =>
      cases fname with
      | none => exact .readError
      | some fname => exact .readErrorOf
    | operands | write | returned => cases h
  | write =>
    cases pc with
    | write fname src buf => exact .write
    | operands | read | returned => cases h
  | writeError e =>
    cases pc with
    | write fname src buf => exact .writeError
    | operands | read | returned => cases h

/-! ## What has been written and reported -/

/-- The file behind a descriptor. -/
def Source.ino : Source → Option Nat
  | .terminal => none
  | .file ino _ => some ino

def Stdout.ino : Stdout → Option Nat
  | .terminal => none
  | .file ino _ => some ino

/-- The bytes `buf` are written to standard output, and `lines` to standard error. -/
def emit (now : Nat) (buf : Bytes) (lines : List Bytes) (out : World × Stdout) : World × Stdout :=
  Mojbash.write now buf ({ out.1 with stderr := out.1.stderr ++ lines }, out.2)

theorem emit_write (a b : Bytes) (lines : List Bytes) (out : World × Stdout) :
    emit now b lines (Mojbash.write now a out) = emit now (a ++ b) lines out := by
  obtain ⟨w, stdout⟩ := out
  unfold emit
  rw [← write_write]
  cases stdout <;> rfl

theorem emit_lines (buf : Bytes) (ls lines : List Bytes) (w : World) (stdout : Stdout) :
    emit now buf lines ({ w with stderr := w.stderr ++ ls }, stdout) =
      emit now buf (ls ++ lines) (w, stdout) := by
  unfold emit
  rw [List.append_assoc]

theorem emit_nil (out : World × Stdout) : emit now [] [] out = out := by
  obtain ⟨w, stdout⟩ := out
  cases stdout with
  | terminal => simp [emit, Mojbash.write]
  | file ino offset => simp [emit, Mojbash.write]

/-- The files are those of `fs`, but for the one that standard output goes to. -/
structure SameInput (fs : FileSystem) (out : World × Stdout) : Prop where
  lookup : ∀ q, out.1.files.lookup q = fs.lookup q
  content : ∀ i, out.2.ino ≠ some i → (out.1.files.file i).content = (fs.file i).content

theorem sameInput_write {fs : FileSystem} {out : World × Stdout} (h : SameInput fs out)
    (buf : Bytes) : SameInput fs (Mojbash.write now buf out) := by
  obtain ⟨w, stdout⟩ := out
  cases stdout with
  | terminal => exact ⟨h.lookup, h.content⟩
  | file ino offset =>
    refine ⟨h.lookup, fun i hi => ?_⟩
    have hne : i ≠ ino := fun heq => hi (congrArg some heq.symm)
    show ((w.files.writeAt ino offset buf now).file i).content = _
    rw [FileSystem.file_writeAt_of_ne hne]
    exact h.content i hi

theorem ino_write (now : Nat) (buf : Bytes) (out : World × Stdout) :
    (Mojbash.write now buf out).2.ino = out.2.ino := by
  obtain ⟨w, stdout⟩ := out
  cases stdout <;> rfl

/-- What is still to be read: operands, or the rest of a file. None of it is the file that
standard output goes to. -/
structure Reads (fs : FileSystem) (s : Cat) : Prop where
  same : SameInput fs s.out
  operands : ∀ fname ∈ s.fnames, ∀ i, fs.lookup fname = some i → s.out.2.ino ≠ some i
  source : match s.pc with
    | .read _ src | .write _ src _ => ∀ i, src.ino = some i → s.out.2.ino ≠ some i
    | _ => True

/-- The bytes that are left at `src`, as far as that is known. -/
def Source.Holds (fs : FileSystem) (content : Bytes) : Source → Prop
  | .terminal => True
  | .file ino offset => content = (fs.file ino).content.drop offset

theorem Source.exists_holds (fs : FileSystem) (src : Source) : ∃ content, src.Holds fs content := by
  cases src with
  | terminal => exact ⟨[], trivial⟩
  | file ino offset => exact ⟨_, rfl⟩

theorem gives_holds {fs files : FileSystem} {src : Source} {buf content : Bytes}
    (hkept : ∀ i, src.ino = some i → (files.file i).content = (fs.file i).content)
    (hgives : src.Gives files buf) (hrest : (src.advance buf).Holds fs content) :
    src.Holds fs (buf ++ content) := by
  cases src with
  | terminal => trivial
  | file ino offset =>
    obtain ⟨rest, hrest'⟩ := hgives
    rw [hkept ino rfl] at hrest'
    obtain rfl : content = (fs.file ino).content.drop (offset + buf.length) := hrest
    show _ = (fs.file ino).content.drop offset
    rw [← List.drop_drop, ← hrest', List.drop_left]

/-- A block more. -/
def Reading.cons {content : Bytes} (buf : Bytes) (h : buf ≠ [] ∧ buf.length ≤ buffsize)
    (r : Reading content) : Reading (buf ++ content) where
  blocks := buf :: r.blocks
  failure := r.failure
  sized := by
    intro b hb
    rcases List.mem_cons.mp hb with rfl | hb
    · exact h
    · exact r.sized b hb
  begun := by
    rw [List.flatten_cons]
    exact List.prefix_append_right_inj buf |>.mpr r.begun
  complete hf := by rw [List.flatten_cons, r.complete hf]

/-- The read that fails, or nothing to read. -/
def Reading.stop (content : Bytes) (failure : Option Errno) (h : failure = none → content = []) :
    Reading content where
  blocks := []
  failure := failure
  sized := by simp
  begun := List.nil_prefix
  complete hf := (h hf).symm

/-- The calls that a file is read with. Each block is written before the next one is read. -/
def Reading.calls {content : Bytes} (r : Reading content) : List CatAct :=
  r.blocks.flatMap (fun buf => [.read buf, .write]) ++ [match r.failure with
    | none => .eof
    | some e => .readError e]

/-- The calls of a run over the operands, with what the kernel does with each of them. -/
inductive Calls {fs : FileSystem} : List (Operand fs) → List CatAct → Prop
  | nil : Calls [] [.leave]
  | refused {fname : Bytes} {e : Errno} {ops : List (Operand fs)} {as : List CatAct}
      (rest : Calls ops as) : Calls (⟨fname, .failed e⟩ :: ops) (.openFile (some e) :: as)
  | missing {fname : Bytes} {ops : List (Operand fs)} {as : List CatAct}
      (missing : fs.lookup fname = none) (rest : Calls ops as) :
      Calls (⟨fname, .failed .enoent⟩ :: ops) (.openFile none :: as)
  | opened {fname : Bytes} {ino : Nat} {ops : List (Operand fs)} {as : List CatAct}
      (found : fs.lookup fname = some ino) (r : Reading (fs.file ino).content)
      (rest : Calls ops as) :
      Calls (⟨fname, .opened ino found r⟩ :: ops) (.openFile none :: (r.calls ++ as))

/-- The line for a read that failed. -/
def failureLine (strerror : Errno → Bytes) : Option Bytes → Option Errno → List Bytes
  | some fname, some e => [errorLine fname (strerror e)]
  | _, _ => []

/-- The rest `as` of a run from `s` has written the parts of the operands that were left, as
they are in `fs`, with what was left of the one that was being read before them. -/
def Copied (now : Nat) (strerror : Errno → Bytes) (fs : FileSystem) (s : Cat) (as : List CatAct)
    (t : Cat) : Prop :=
  match s.pc with
  | .returned => as = [] ∧ t.out = s.out
  | .operands => ∃ ops : List (Operand fs), ops.map Sigma.fst = s.fnames ∧ Calls ops as ∧
      t.out = emit now (ops.flatMap Operand.part) (ops.filterMap (Operand.error strerror)) s.out
  | .read fname src => ∃ content, src.Holds fs content ∧ ∃ (r : Reading content)
      (ops : List (Operand fs)) (rest : List CatAct), ops.map Sigma.fst = s.fnames ∧
      Calls ops rest ∧ as = r.calls ++ rest ∧
      t.out = emit now (r.blocks.flatten ++ ops.flatMap Operand.part)
        (failureLine strerror fname r.failure ++ ops.filterMap (Operand.error strerror)) s.out
  | .write fname src buf => ∃ content, src.Holds fs content ∧ ∃ (r : Reading content)
      (ops : List (Operand fs)) (rest : List CatAct), ops.map Sigma.fst = s.fnames ∧
      Calls ops rest ∧ as = .write :: (r.calls ++ rest) ∧
      t.out = emit now (buf ++ (r.blocks.flatten ++ ops.flatMap Operand.part))
        (failureLine strerror fname r.failure ++ ops.filterMap (Operand.error strerror)) s.out

/-- The paths, and the file that is about to be read, are as in `fs`. -/
structure Sees (fs : FileSystem) (s : Cat) : Prop where
  lookup : ∀ q, s.out.1.files.lookup q = fs.lookup q
  source : match s.pc with
    | .read _ src => ∀ i, src.ino = some i → (s.out.1.files.file i).content = (fs.file i).content
    | _ => True

theorem Reads.sees {fs : FileSystem} {s : Cat} (h : Reads fs s) : Sees fs s := by
  obtain ⟨hsame, -, hsource⟩ := h
  refine ⟨hsame.lookup, ?_⟩
  cases hpc : s.pc with
  | read fname src =>
    rw [hpc] at hsource
    exact fun i hi => hsame.content i (hsource i hi)
  | operands | write | returned => trivial

theorem reads_step {fs : FileSystem} {s t : Cat} {a : CatAct} (h : Reads fs s)
    (hstep : Cat.Step now strerror a s t) : Reads fs t := by
  obtain ⟨hsame, hoperands, hsource⟩ := h
  cases hstep with
  | @opened out fname fnames ino found =>
    have hlookup := (hsame.lookup fname).symm.trans found
    refine ⟨hsame, fun f hf => hoperands f (List.mem_cons_of_mem _ hf), ?_⟩
    rintro i ⟨⟩
    exact hoperands fname List.mem_cons_self _ hlookup
  | refused | missing => exact ⟨⟨hsame.lookup, hsame.content⟩,
      fun f hf => hoperands f (List.mem_cons_of_mem _ hf), trivial⟩
  | leave => exact ⟨hsame, hoperands, trivial⟩
  | @read _ _ _ src =>
    refine ⟨hsame, hoperands, ?_⟩
    cases src with
    | terminal => exact hsource
    | file ino offset => exact hsource
  | eof => exact ⟨hsame, hoperands, trivial⟩
  | readError => exact ⟨hsame, hoperands, trivial⟩
  | readErrorOf | writeError => exact ⟨⟨hsame.lookup, hsame.content⟩, hoperands, trivial⟩
  | write =>
    refine ⟨sameInput_write hsame _, fun f hf i hi => ?_, fun i hi => ?_⟩
    · rw [ino_write]
      exact hoperands f hf i hi
    · rw [ino_write]
      exact hsource i hi

theorem error_opened {fs : FileSystem} {fname : Bytes} {ino : Nat}
    (found : fs.lookup fname = some ino) (r : Reading (fs.file ino).content)
    (ops : List (Operand fs)) :
    List.filterMap (Operand.error strerror) (⟨fname, .opened ino found r⟩ :: ops) =
      failureLine strerror (some fname) r.failure ++ ops.filterMap (Operand.error strerror) := by
  have herror : Operand.error strerror ⟨fname, .opened ino found r⟩ =
      r.failure.map fun e => errorLine fname (strerror e) := rfl
  rw [List.filterMap_cons, herror]
  cases r.failure <;> rfl

/-- A step more before the rest of a run. -/
theorem copied_step {fs : FileSystem} {s u t : Cat} {a : CatAct} {as : List CatAct}
    (h : Sees fs s) (hstep : Cat.Step now strerror a s u) (hcomplete : a.Complete)
    (hrest : Copied now strerror fs u as t) : Copied now strerror fs s (a :: as) t := by
  obtain ⟨hlookup, hsource⟩ := h
  cases hstep with
  | @opened out fname fnames ino found =>
    obtain ⟨content, hcontent, r, ops, rest, hnames, hcalls, rfl, ht⟩ := hrest
    obtain rfl : content = (fs.file ino).content := hcontent
    have hfound := (hlookup fname).symm.trans found
    refine ⟨⟨fname, .opened ino hfound r⟩ :: ops, congrArg (fname :: ·) hnames,
      .opened hfound r hcalls, ?_⟩
    rw [ht, List.flatMap_cons, part_opened, error_opened]
  | @refused out fname fnames e =>
    obtain ⟨ops, hnames, hcalls, ht⟩ := hrest
    refine ⟨⟨fname, .failed e⟩ :: ops, congrArg (fname :: ·) hnames, .refused hcalls, ?_⟩
    rw [ht]
    exact emit_lines _ _ _ _ _
  | @missing out fname fnames hmissing =>
    obtain ⟨ops, hnames, hcalls, ht⟩ := hrest
    refine ⟨⟨fname, .failed .enoent⟩ :: ops, congrArg (fname :: ·) hnames,
      .missing ((hlookup fname).symm.trans hmissing) hcalls, ?_⟩
    rw [ht]
    exact emit_lines _ _ _ _ _
  | leave =>
    obtain ⟨rfl, ht⟩ := hrest
    exact ⟨[], rfl, .nil, ht.trans (emit_nil _).symm⟩
  | @read out fnames fname src buf hne hfits hgives =>
    obtain ⟨content, hholds, r, ops, rest, hnames, hcalls, rfl, ht⟩ := hrest
    refine ⟨buf ++ content, gives_holds hsource hgives hholds, r.cons buf ⟨hne, hfits⟩, ops, rest,
      hnames, hcalls, rfl, ?_⟩
    rw [ht]
    simp [Reading.cons]
  | @eof out fnames fname src hended =>
    obtain ⟨ops, hnames, hcalls, ht⟩ := hrest
    have hholds : src.Holds fs [] := by
      cases src with
      | terminal => trivial
      | file ino offset =>
        show [] = (fs.file ino).content.drop offset
        rw [← hsource ino rfl]
        exact hended.symm
    refine ⟨[], hholds, .stop [] none fun _ => rfl, ops, as, hnames, hcalls, rfl, ?_⟩
    rw [ht]
    cases fname <;> rfl
  | @readError out fnames src e =>
    obtain ⟨ops, hnames, hcalls, ht⟩ := hrest
    obtain ⟨content, hholds⟩ := src.exists_holds fs
    exact ⟨content, hholds, .stop content (some e) nofun, ops, as, hnames, hcalls, rfl, ht⟩
  | @readErrorOf out fnames fname src e =>
    obtain ⟨ops, hnames, hcalls, ht⟩ := hrest
    obtain ⟨content, hholds⟩ := src.exists_holds fs
    refine ⟨content, hholds, .stop content (some e) nofun, ops, as, hnames, hcalls, rfl, ?_⟩
    rw [ht]
    exact emit_lines _ _ _ _ _
  | @write out fnames fname src buf =>
    obtain ⟨content, hholds, r, ops, rest, hnames, hcalls, rfl, ht⟩ := hrest
    refine ⟨content, hholds, r, ops, rest, hnames, hcalls, rfl, ?_⟩
    rw [ht, emit_write]
  | writeError => exact hcomplete.elim

/-- The induction is on the steps, from the first; `P` is what keeps the files that are read
as they were. -/
theorem copied_of_run {fs : FileSystem} {P : Cat → Prop} (hsees : ∀ s, P s → Sees fs s)
    (hnext : ∀ s a u, P s → Cat.Step now strerror a s u → P u) {s t : Cat} {as : List CatAct}
    (hs : P s) (h : (completeCat now strerror).Exec s as t) (ht : t.pc = .returned) :
    Copied now strerror fs s as t := by
  induction as generalizing s with
  | nil =>
    obtain rfl := h.of_nil
    unfold Copied
    rw [ht]
    exact ⟨rfl, rfl⟩
  | cons a as ih =>
    obtain ⟨⟨he, hcomplete⟩, hrest⟩ := h.of_cons
    have hstep := @step_cat now strerror _ _ he
    exact copied_step (hsees s hs) hstep hcomplete (ih (hnext s a _ hs hstep) hrest)

/-- `mojcat f` at the terminal. -/
def catF : Cat := .start ⟨oneFile, [], []⟩ .terminal .terminal [ascii "f"]

def catFActs : List CatAct := [.openFile none, .read (ascii "ab"), .write, .eof, .leave]

theorem catF_runs : ((cat 0 fun _ => []).run catF catFActs).isSome := by
  decide

end SisProg.Mojbash
