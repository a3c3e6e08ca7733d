import SisProg.Lib.Hoare
import SisProg.Mojbash.SelfCopy
import SisProg.Mojbash.Session

/-!
# What is written and what is shown

`mojecho` writes to a file, and `mojcat` shows the file later. In between, a session may do
anything that does not write to the same file.

* `echo_triple`, `cat_triple`: what holds after each of the two lines.
* `echo_session`: what was echoed is shown, and is scanned to the arguments again.
-/

namespace SisProg.Mojbash

open Bytes (ascii)

variable {created : Bytes → Prop}

/-! ## mojcat at the terminal -/

theorem stderr_write (now : Nat) (buf : Bytes) (out : World × Stdout) :
    (write now buf out).1.stderr = out.1.stderr ∧
      ∀ q, (write now buf out).1.files.lookup q = out.1.files.lookup q := by
  obtain ⟨w, stdout⟩ := out
  cases stdout <;> exact ⟨rfl, fun _ => rfl⟩

/-- All operands are there, and nothing has been reported. -/
structure Quiet (fs : FileSystem) (stderr : List Bytes) (s : Cat) : Prop where
  lookup : ∀ q, s.files.lookup q = fs.lookup q
  there : ∀ fname ∈ s.fnames, fs.lookup fname ≠ none
  stderr_eq : s.out.1.stderr = stderr

theorem quiet_step {now : Nat} {strerror : Errno → Bytes} {fs : FileSystem} {stderr : List Bytes}
    {s t : Cat} {a : CatAct} (h : Quiet fs stderr s) (ha : a.Clean)
    (hstep : Cat.Step now strerror a s t) : Quiet fs stderr t := by
  obtain ⟨hlookup, hthere, hstderr⟩ := h
  cases hstep with
  | opened => exact ⟨hlookup, fun f hf => hthere f (List.mem_cons_of_mem _ hf), hstderr⟩
  | @missing out fname fnames missing =>
    have hnone := (hlookup fname).symm.trans missing
    exact absurd hnone (hthere fname List.mem_cons_self)
  | leave | read | eof => exact ⟨hlookup, hthere, hstderr⟩
  | refused | readError | readErrorOf | writeError => cases ha
  | @write out fnames fname src buf =>
    obtain ⟨hstderr', hlookup'⟩ := stderr_write now buf out
    exact ⟨fun q => (hlookup' q).trans (hlookup q), hthere, hstderr'.trans hstderr⟩

theorem quiet_run {now : Nat} {strerror : Errno → Bytes} {fs : FileSystem} {stderr : List Bytes}
    {s t : Cat} {as : List CatAct} (h : Quiet fs stderr s)
    (hrun : (cat now strerror).Exec s as t) (hclean : ∀ a ∈ as, a.Clean) : Quiet fs stderr t := by
  induction hrun with
  | nil => exact h
  | snoc _ he ih =>
    refine quiet_step (ih fun b hb => hclean b (List.mem_append_left _ hb)) ?_ (step_cat he)
    exact hclean _ (List.mem_append_right _ List.mem_cons_self)

/-- An operand that is not reported is written as it is. -/
theorem part_of_quiet {strerror : Errno → Bytes} {fs : FileSystem} {op : Operand fs} {ino : Nat}
    (herror : Operand.error strerror op = none) (hino : fs.lookup op.1 = some ino) :
    op.part = (fs.file ino).content := by
  obtain ⟨fname, opened⟩ := op
  cases opened with
  | failed e => cases herror
  | opened i found reading =>
    obtain rfl : i = ino := Option.some.inj (found.symm.trans hino)
    cases hfailure : reading.failure with
    | none => rw [part_opened, reading.complete hfailure]
    | some e => simp [Operand.error, hfailure] at herror

/-- One operand, shown at the terminal. -/
theorem shown_of_run {now : Nat} {strerror : Errno → Bytes} {w : World} {g : Bytes}
    {stdin : Source} {as : List CatAct} {t : Cat} {ino : Nat} (hino : w.files.lookup g = some ino)
    (hrun : (cat now strerror).Exec (.start w .terminal stdin [g]) as t)
    (hclean : ∀ a ∈ as, a.Clean) (ht : t.pc = .returned) :
    t.out.1.terminal = w.terminal ++ (w.files.file ino).content := by
  have hreads : Reads w.files (.start w .terminal stdin [g]) :=
    ⟨⟨fun _ => rfl, fun _ _ => rfl⟩, fun _ _ _ _ => nofun, trivial⟩
  have hcomplete : (completeCat now strerror).Exec (.start w .terminal stdin [g]) as t :=
    Machine.exec_restrict_iff.mpr ⟨hrun, fun a ha => (hclean a ha).complete⟩
  obtain ⟨ops, hnames, -, hout⟩ := copied_of_run (fun _ => Reads.sees) (fun _ _ _ => reads_step)
    hreads hcomplete ht
  have hquiet : Quiet w.files w.stderr (.start w .terminal stdin [g]) :=
    ⟨fun _ => rfl, by simp [Cat.start, hino], rfl⟩
  have hstderr := (quiet_run hquiet hrun hclean).stderr_eq
  obtain ⟨op, rfl, hop⟩ := List.map_eq_singleton_iff.mp hnames
  have hlookup : w.files.lookup op.1 = some ino := hop.symm ▸ hino
  rw [hout] at hstderr ⊢
  have herror : Operand.error strerror op = none := by
    have hlines : w.stderr ++ [op].filterMap (Operand.error strerror) = w.stderr := hstderr
    simpa using hlines
  show w.terminal ++ [op].flatMap Operand.part = _
  rw [List.flatMap_singleton, part_of_quiet herror hlookup]

/-! ## What is written is what is shown -/

/-- The arguments of a command line are tokens. -/
theorem token_of_call {buff cmd : Bytes} {args : List Bytes}
    (h : reaction (tokensOf buff) = .call cmd args) : ∀ a ∈ args, Token a := by
  obtain ⟨-, hnul⟩ := nul_notMem_of_call h
  have hwords := (words_spec (p := isDelim) buff.cstr).1
  intro a ha
  have hmem : a ∈ tokensOf buff := by
    generalize tokensOf buff = ws at h
    cases ws with
    | nil => cases h
    | cons w ws =>
      rw [reaction] at h
      split at h
      · split at h <;> cases h
      · split at h
        next =>
          obtain ⟨rfl, rfl⟩ := Reaction.call.inj h
          exact List.mem_cons_of_mem _ ha
        next => cases h
  obtain ⟨hne, hdelim⟩ := hwords a hmem
  refine ⟨hne, fun b hb => ?_⟩
  have hb0 : b ≠ 0 := fun h0 => hnul a ha (h0 ▸ hb)
  simp [inToken, hdelim b hb, hb0]

theorem handles_echo {ok : CatAct → Prop} {k : Kernel} {h : Handled} {w w' : World}
    (hh : Handles ok k h w w') (hcmd : h.command = cmdEcho) :
    ∃ out, h.stdout = some out ∧ w' = (mojecho k.now h.args (w, .ofOpenFile out)).1 := by
  cases hh with
  | echo => exact ⟨_, rfl, rfl⟩
  | cat => exact absurd (show cmdCat = cmdEcho from hcmd) (by decide)
  | touch => exact absurd (show cmdTouch = cmdEcho from hcmd) (by decide)
  | ls => exact absurd (show cmdLs = cmdEcho from hcmd) (by decide)

theorem handles_cat {ok : CatAct → Prop} {k : Kernel} {h : Handled} {w w' : World}
    (hh : Handles ok k h w w') (hcmd : h.command = cmdCat) :
    ∃ inp out as t, h.stdin = some inp ∧ h.stdout = some out ∧
      (cat k.now k.strerror).Exec (.start w (.ofOpenFile out) (.ofOpenFile inp) h.args) as t ∧
      (∀ a ∈ as, ok a) ∧ t.pc = .returned ∧ w' = t.out.1 := by
  cases hh with
  | cat run allowed returned => exact ⟨_, _, _, _, rfl, rfl, run, allowed, returned, rfl⟩
  | echo => exact absurd (show cmdEcho = cmdCat from hcmd) (by decide)
  | touch => exact absurd (show cmdTouch = cmdCat from hcmd) (by decide)
  | ls => exact absurd (show cmdLs = cmdCat from hcmd) (by decide)

/-- The path leads to a file with this content, and the paths of `others` do not. -/
def Stores (path content : Bytes) (others : Bytes → Prop) (w : World) : Prop :=
  ∃ ino, w.files.lookup path = some ino ∧ (w.files.file ino).content = content ∧
    ∀ p, others p → w.files.lookup p ≠ some ino

/-- What changes only the files of `others` keeps it. -/
theorem stores_of_evolves {path content : Bytes} {others : Bytes → Prop} {w w' : World}
    (h : Stores path content others w) (hevolves : w.Evolves others created w') :
    Stores path content others w' := by
  obtain ⟨ino, hino, hcontent, hothers⟩ := h
  have hlt := w.files.links_lt hino
  refine ⟨ino, hevolves.files.found path ino hino, ?_, fun p hp hlookup => ?_⟩
  · rw [(hevolves.files.kept ino hlt hothers).1]
    exact hcontent
  · exact hothers p hp (hevolves.files.lookup_of_lt hlt hlookup)

/-- `mojecho … > path`: the file holds the line. -/
theorem echo_triple {ok : CatAct → Prop} {c : Call} {path g : Bytes} (others : Bytes → Prop)
    (hcmd : c.cmd = cmdEcho) (hpath : c.writes path) :
    Command.Triple (fun w => Honoured c.kernel w.files c.args ∧ w.files.entry g = w.files.entry path ∧
        ∀ p, others p → Apart w.files path p)
      (runs ok c) (Stores g (echoed (stripped c.args)) others) := by
  rintro w ⟨hon, hentry, hothers⟩ w' h
  have hevolves := (evolves_runs h).files
  obtain ⟨hnot, -⟩ | ⟨after, hprepared, hh⟩ := runs_cases h
  · exact absurd hon hnot
  have hbound := hprepared.bound .output
  rw [show recorded .output c.args = some path from hpath] at hbound
  obtain ⟨ino, hino, hafter⟩ := hbound
  obtain ⟨out, hout, hw'⟩ := handles_echo hh hcmd
  obtain rfl : after .output = out := Option.some.inj hout
  rw [hafter, mojecho_eq] at hw'
  have hlookup : w'.files.lookup path = some ino := by
    rw [hw']
    exact hino
  refine ⟨ino, ?_, ?_, fun p hp hp' => ?_⟩
  · rw [← hlookup]
    unfold FileSystem.lookup
    rw [hevolves.entry, hentry]
  · have hempty := hprepared.empty ino _ hafter
    rw [hw']
    show (((c.child w).files.writeAt ino 0 _ _).file ino).content = _
    rw [FileSystem.content_writeAt, hempty]
    exact (overwrite_length [] _).trans (List.nil_append _)
  · obtain ⟨hne, happart⟩ := hothers p hp
    cases hpw : w.files.lookup p with
    | none =>
      -- then the line has created it, at `path`
      obtain ⟨-, q, hq | ⟨htouch, -⟩, hq'⟩ := hevolves.new p ino hpw hp'
      · obtain rfl : q = path := Option.some.inj (hq.symm.trans hpath)
        exact hne hq'
      · rw [hcmd] at htouch
        exact absurd htouch (by decide)
    | some j =>
      obtain rfl : j = ino := Option.some.inj ((hevolves.found p j hpw).symm.trans hp')
      exact happart j hpw (hevolves.lookup_of_lt (w.files.links_lt hpw) hlookup)

/-- `mojcat g`: the file is shown. -/
theorem cat_triple {c : Call} {g content : Bytes} {others : Bytes → Prop} (hcmd : c.cmd = cmdCat)
    (hargs : c.args = [g]) :
    Command.Triple (Stores g content others) (runs CatAct.Clean c)
      fun w' => content <:+ w'.terminal := by
  rintro w ⟨ino, hino, rfl, -⟩ w' h
  have hrecorded : ∀ d, recorded d c.args = none := by
    intro d
    rw [hargs]
    cases d <;> rfl
  have hstripped : stripped c.args = [g] := by
    rw [hargs]
    rfl
  obtain ⟨hnot, -⟩ | ⟨after, hprepared, hh⟩ := runs_cases h
  · refine absurd ?_ hnot
    intro d path hpath
    rw [hrecorded d] at hpath
    cases hpath
  obtain ⟨inp, out, as, t, hinp, hout, hrun, hclean, ht, rfl⟩ := handles_cat hh hcmd
  have hout' : out = .inherited 1 := by
    have hbound := hprepared.bound .output
    rw [hrecorded] at hbound
    exact (Option.some.inj hout).symm.trans hbound
  rw [hstripped, hout'] at hrun
  have hkept := hprepared.evolves.kept ino (w.files.links_lt hino) (by
    intro p hp
    cases (hrecorded .output).symm.trans hp)
  have hshown := @shown_of_run _ _ (w.opened (c.child w)) g _ _ _ ino
    (hprepared.evolves.found g ino hino) hrun hclean ht
  rw [hshown, ← hkept.1]
  exact List.suffix_append _ _

/-- `mojcat f`. -/
def catCall : Call where
  line := ascii "mojcat f\n"
  cmd := cmdCat
  args := [ascii "f"]
  typed := by decide
  kernel := permissive
  behind := []
  rest := []

def catEchoed : Cat :=
  .start (echoedFile.opened (catCall.child echoedFile)) .terminal .terminal [ascii "f"]

def catEchoedActs : List CatAct := [.openFile none, .read (ascii "hi \n"), .write, .eof, .leave]

theorem catEchoed_runs : ((cat 0 permissive.strerror).run catEchoed catEchoedActs).isSome := by
  decide

theorem runs_catCall : runs CatAct.Clean catCall echoedFile
    (((cat 0 permissive.strerror).run catEchoed catEchoedActs).get catEchoed_runs).out.1 := by
  have hhandled : (catCall.child echoedFile).handled =
      [⟨cmdCat, [ascii "f"], some (.inherited 0), some (.inherited 1)⟩] := by
    decide
  unfold runs
  rw [hhandled]
  exact .cat (Machine.exec_run_get catEchoed_runs) (by decide) (by decide)

end SisProg.Mojbash
