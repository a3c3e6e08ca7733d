import SisProg.Lib.Termination
import SisProg.Mojbash.LiveCat

/-!
# mojcat with its own output among the operands

The output file of `mojcat a b > b` is empty when `mojcat` starts. When it gets to `b`, what
it has written is there, and each block that it reads is written behind it: the end of the
file is never reached. If nothing has been written before, the file is still empty, and
`mojcat` goes on with the next operand. A file that is not empty and is written at its end is
read without end as soon as a byte of it is read.

* `endless_step`: the loop that reads what it writes goes on.
* `finite_step`: where there is none, the files are read as they were at the start.
* `mojcat_returns_iff`: with an output file that is empty, `mojcat` returns exactly if no
  operand before it has a byte; then the number of its calls is bounded, and otherwise it
  never stops.
-/

namespace SisProg.Mojbash

open Bytes (ascii)

/-- The call does not fail for a reason of the kernel's own. -/
def CatAct.Clean : CatAct → Prop
  | .openFile refusal => refusal = none
  | .readError _ | .writeError _ => False
  | _ => True

theorem CatAct.Clean.complete {a : CatAct} (h : a.Clean) : a.Complete := by
  cases a with
  | writeError e => exact h
  | _ => trivial

instance (a : CatAct) : Decidable a.Clean :=
  match a with
  | .openFile none | .read _ | .eof | .write | .leave => .isTrue (by simp [CatAct.Clean])
  | .openFile (some _) | .readError _ | .writeError _ => .isFalse (by simp [CatAct.Clean])

/-- The runs in which no call fails but for a file that is not there. -/
def cleanCat (now : Nat) (strerror : Errno → Bytes) : Machine Cat CatAct :=
  (cat now strerror).restrict fun _ a => a.Clean

instance (now : Nat) (strerror : Errno → Bytes) (s : Cat) (a : CatAct) :
    Decidable ((cleanCat now strerror).enabled s a) :=
  inferInstanceAs (Decidable (s.enabled a ∧ a.Clean))

/-- The operand leads to a file that has a byte. -/
def HasByte (fs : FileSystem) (fname : Bytes) : Prop :=
  ∃ j, fs.lookup fname = some j ∧ (fs.file j).content ≠ []

/-- The file `ino` is among the operands behind one that has a byte. -/
def SelfFed (fs : FileSystem) (ino : Nat) (fnames : List Bytes) : Prop :=
  ∃ before fname behind, fnames = before ++ fname :: behind ∧ fs.lookup fname = some ino ∧
    ∃ g ∈ before, HasByte fs g

namespace Cat

def content (s : Cat) (ino : Nat) : Bytes := (s.files.file ino).content

/-- Something has been written to the file `ino`, or is about to be. -/
def Fed (s : Cat) (ino : Nat) : Prop :=
  s.content ino ≠ [] ∨
  match s.pc with
  | .read _ (.file j offset) => (s.content j).drop offset ≠ []
  | .write _ _ _ => True
  | _ => False

end Cat

/-- What is read is a file. -/
def Cat.FromFile (s : Cat) : Prop :=
  match s.pc with
  | .read _ src | .write _ src _ => ∃ j offset, src = .file j offset
  | _ => True

/-- The output is the file `ino`, and is written at its end. The other files are as in `fs`. -/
structure Appends (fs : FileSystem) (ino : Nat) (s : Cat) : Prop where
  same : SameInput fs s.out
  grown : (fs.file ino).content <+: s.content ino
  stdout : s.out.2 = .file ino (s.content ino).length
  file : s.FromFile
  block : match s.pc with
    | .write _ _ buf => buf ≠ []
    | _ => True

variable {now : Nat} {strerror : Errno → Bytes}

theorem content_write {out : World × Stdout} {ino : Nat}
    (h : out.2 = .file ino (out.1.files.file ino).content.length) (buf : Bytes) :
    ((write now buf out).1.files.file ino).content =
      (out.1.files.file ino).content ++ buf := by
  obtain ⟨w, stdout⟩ := out
  obtain rfl : stdout = .file ino (w.files.file ino).content.length := h
  exact FileSystem.content_writeAt.trans (overwrite_length _ _)

theorem fromFile_step {s t : Cat} {a : CatAct} (h : s.FromFile)
    (hstep : Cat.Step now strerror a s t) : t.FromFile := by
  cases hstep with
  | @opened out fname fnames j => exact ⟨j, 0, rfl⟩
  | read =>
    obtain ⟨j, offset, rfl⟩ := h
    exact ⟨j, _, rfl⟩
  | write => exact h
  | refused | missing | leave | eof | readError | readErrorOf | writeError => trivial

theorem appends_step {fs : FileSystem} {ino : Nat} {s t : Cat} {a : CatAct}
    (h : Appends fs ino s) (hstep : Cat.Step now strerror a s t) : Appends fs ino t := by
  have hfile := fromFile_step h.file hstep
  obtain ⟨hsame, hgrown, hstdout, -, -⟩ := h
  cases hstep with
  | refused | missing | readErrorOf | writeError =>
    exact ⟨⟨hsame.lookup, hsame.content⟩, hgrown, hstdout, hfile, trivial⟩
  | opened | leave | eof | readError => exact ⟨hsame, hgrown, hstdout, hfile, trivial⟩
  | read hne => exact ⟨hsame, hgrown, hstdout, hfile, hne⟩
  | @write out fnames fname src buf =>
    have hcontent := @content_write now out ino hstdout buf
    refine ⟨sameInput_write hsame buf, ?_, ?_, hfile, trivial⟩
    · show _ <+: ((write now buf out).1.files.file ino).content
      rw [hcontent]
      exact hgrown.trans (List.prefix_append _ _)
    · show (write now buf out).2 = .file ino ((write now buf out).1.files.file ino).content.length
      rw [hcontent]
      obtain ⟨w, stdout⟩ := out
      obtain rfl : stdout = .file ino (w.files.file ino).content.length := hstdout
      rw [List.length_append]
      rfl

/-! ## The calls that are left -/

/-- The calls that an operand takes at most. -/
def callsFor (fs : FileSystem) (fname : Bytes) : Nat :=
  match fs.lookup fname with
  | none => 1
  | some j => 2 * (fs.file j).content.length + 2

/-- The calls that are left at most. -/
def callsLeft (fs : FileSystem) (s : Cat) : Nat :=
  s.fnames.foldr (fun fname n => callsFor fs fname + n) 0 +
  match s.pc with
  | .operands => 1
  | .read _ (.file j offset) => 2 * ((fs.file j).content.length - offset) + 2
  | .write _ (.file j offset) _ => 2 * ((fs.file j).content.length - offset) + 3
  | _ => 0

theorem one_le_callsFor (fs : FileSystem) (fname : Bytes) : 1 ≤ callsFor fs fname := by
  unfold callsFor
  split <;> omega

/-- If a file is read as it was at the start, fewer calls are left after each one. -/
theorem callsLeft_lt {fs : FileSystem} {s t : Cat} {a : CatAct} (h : Sees fs s)
    (hfile : s.FromFile) (hstep : Cat.Step now strerror a s t) :
    callsLeft fs t < callsLeft fs s := by
  cases hstep with
  | @opened out fname fnames j found =>
    have hfound := (h.lookup fname).symm.trans found
    simp [callsLeft, callsFor, hfound]
    omega
  | @refused out fname | @missing out fname =>
    have hone := one_le_callsFor fs fname
    simp only [callsLeft, Cat.printError, List.foldr_cons]
    omega
  | leave => simp [callsLeft]
  | @read out fnames fname src buf hne hfits hgives =>
    obtain ⟨j, offset, rfl⟩ := hfile
    have hle := List.IsPrefix.length_le hgives
    have hpos := List.length_pos_iff.mpr hne
    have hcontent : (out.1.files.file j).content = (fs.file j).content := h.source j rfl
    rw [hcontent, List.length_drop] at hle
    simp only [callsLeft, Source.advance]
    omega
  | eof | readError | readErrorOf | write | writeError =>
    obtain ⟨j, offset, rfl⟩ := hfile
    simp only [callsLeft, Cat.printError]
    omega

theorem callsLeft_decreases {fs : FileSystem} {P : Cat → Prop} (hsees : ∀ s, P s → Sees fs s)
    (hfile : ∀ s, P s → s.FromFile)
    (hnext : ∀ s a t, P s → Cat.Step now strerror a s t → P t) :
    (cat now strerror).Decreases P (callsLeft fs) :=
  fun s a hs he =>
    ⟨hnext s a _ hs (step_cat he), callsLeft_lt (hsees s hs) (hfile s hs) (step_cat he)⟩

/-! ## A loop without end -/

/-- `mojcat` copies the output file to its own end, or has it ahead behind something that
is written before. -/
inductive Endless (fs : FileSystem) (ino : Nat) (s : Cat) : Prop
  | reading (fname : Option Bytes) (offset : Nat) (pc : s.pc = .read fname (.file ino offset))
      (lt : offset < (s.content ino).length)
  | writing (fname : Option Bytes) (offset : Nat) (buf : Bytes)
      (pc : s.pc = .write fname (.file ino offset) buf) (le : offset ≤ (s.content ino).length)
  | ahead (pc : s.pc ≠ .returned) (before : List Bytes) (fname : Bytes) (behind : List Bytes)
      (split : s.fnames = before ++ fname :: behind) (found : fs.lookup fname = some ino)
      (fed : s.Fed ino ∨ ∃ g ∈ before, HasByte fs g)

theorem endless_ne_returned {fs : FileSystem} {ino : Nat} {s : Cat} (h : Endless fs ino s) :
    s.pc ≠ .returned := by
  cases h with
  | reading fname offset pc => simp [pc]
  | writing fname offset buf pc => simp [pc]
  | ahead pc => exact pc

theorem content_of_ne {fs : FileSystem} {ino : Nat} {s : Cat} (h : Appends fs ino s) {j : Nat}
    (hj : j ≠ ino) : s.content j = (fs.file j).content := by
  refine h.same.content j ?_
  rw [h.stdout]
  intro heq
  exact hj (Option.some.inj heq).symm

/-- A byte that was there at the start still is. -/
theorem content_ne_nil {fs : FileSystem} {ino : Nat} {s : Cat} (h : Appends fs ino s) {j : Nat}
    (hj : (fs.file j).content ≠ []) : s.content j ≠ [] := by
  by_cases heq : j = ino
  · subst heq
    intro hnil
    exact hj (List.prefix_nil.mp (hnil ▸ h.grown))
  · rwa [content_of_ne h heq]

/-- An operand that has a byte is opened. -/
theorem fed_of_opened {fs : FileSystem} {ino : Nat} {out : World × Stdout} {fname : Bytes}
    {fnames : List Bytes} {j : Nat} (h : Appends fs ino ⟨out, fname :: fnames, .operands⟩)
    (found : fs.lookup fname = some j) (hbyte : HasByte fs fname) :
    Cat.Fed ⟨out, fnames, .read (some fname) (.file j 0)⟩ ino := by
  obtain ⟨j', hj', hne⟩ := hbyte
  obtain rfl : j = j' := Option.some.inj (found.symm.trans hj')
  have hcontent : Cat.content ⟨out, fnames, .read (some fname) (.file j 0)⟩ j ≠ [] :=
    content_ne_nil h hne
  exact .inr hcontent

theorem endless_step {fs : FileSystem} {ino : Nat} {s t : Cat} {a : CatAct}
    (h : Appends fs ino s) (hend : Endless fs ino s) (ha : a.Clean)
    (hstep : Cat.Step now strerror a s t) : Endless fs ino t := by
  cases hstep with
  | @opened out fname fnames j found =>
    have hfound := (h.same.lookup fname).symm.trans found
    cases hend with
    | reading _ _ pc => cases pc
    | writing _ _ _ pc => cases pc
    | ahead pc before f behind split hf fed =>
      cases before with
      | nil =>
        obtain ⟨rfl, rfl⟩ := List.cons.inj split
        obtain rfl : j = ino := Option.some.inj (hfound.symm.trans hf)
        refine .reading (some fname) 0 rfl ?_
        rcases fed with (hfed | hfed) | ⟨g, hg, -⟩
        · exact List.length_pos_iff.mpr hfed
        · cases hfed
        · cases hg
      | cons g before =>
        obtain ⟨rfl, rfl⟩ := List.cons.inj split
        refine .ahead nofun before f behind rfl hf ?_
        rcases fed with (hfed | hfed) | ⟨g, hg, hbyte⟩
        · exact .inl (.inl hfed)
        · cases hfed
        · rcases List.mem_cons.mp hg with rfl | hg
          · exact .inl (fed_of_opened h hfound hbyte)
          · exact .inr ⟨g, hg, hbyte⟩
  | refused => cases ha
  | @missing out fname fnames missing =>
    have hnone := (h.same.lookup fname).symm.trans missing
    cases hend with
    | reading _ _ pc => cases pc
    | writing _ _ _ pc => cases pc
    | ahead pc before f behind split hf fed =>
      cases before with
      | nil =>
        obtain ⟨rfl, rfl⟩ := List.cons.inj split
        cases hnone.symm.trans hf
      | cons g before =>
        obtain ⟨rfl, rfl⟩ := List.cons.inj split
        refine .ahead nofun before f behind rfl hf ?_
        rcases fed with (hfed | hfed) | ⟨g, hg, hbyte⟩
        · exact .inl (.inl hfed)
        · cases hfed
        · rcases List.mem_cons.mp hg with rfl | hg
          · obtain ⟨j, hj, -⟩ := hbyte
            cases hnone.symm.trans hj
          · exact .inr ⟨g, hg, hbyte⟩
  | leave =>
    cases hend with
    | reading _ _ pc => cases pc
    | writing _ _ _ pc => cases pc
    | ahead pc before f behind split => cases before <;> cases split
  | @read out fnames fname src buf hne hfits hgives =>
    cases hend with
    | reading f offset pc lt =>
      cases pc
      refine .writing fname _ buf rfl ?_
      have hle := List.IsPrefix.length_le hgives
      rw [List.length_drop] at hle
      exact Nat.add_le_of_le_sub' lt.le hle
    | writing _ _ _ pc => cases pc
    | ahead pc before f behind split hf fed =>
      exact .ahead nofun before f behind split hf (.inl (.inr trivial))
  | @eof out fnames fname src hended =>
    cases hend with
    | reading f offset pc lt =>
      cases pc
      have hle := List.drop_eq_nil_iff.mp hended
      exact absurd lt (Nat.not_lt.mpr hle)
    | writing _ _ _ pc => cases pc
    | ahead pc before f behind split hf fed =>
      refine .ahead nofun before f behind split hf ?_
      obtain ⟨j, offset, rfl⟩ := h.file
      rcases fed with (hfed | hfed) | hbyte
      · exact .inl (.inl hfed)
      · exact absurd hended hfed
      · exact .inr hbyte
  | readError | readErrorOf | writeError => cases ha
  | @write out fnames fname src buf =>
    have hcontent := @content_write now out ino h.stdout buf
    have hbuf : buf ≠ [] := h.block
    cases hend with
    | reading _ _ pc => cases pc
    | writing f offset b pc le =>
      cases pc
      refine .reading fname offset rfl ?_
      show offset < ((write now buf out).1.files.file ino).content.length
      rw [hcontent, List.length_append]
      exact Nat.lt_of_le_of_lt le (Nat.lt_add_of_pos_right (List.length_pos_iff.mpr hbuf))
    | ahead pc before f behind split hf fed =>
      refine .ahead nofun before f behind split hf (.inl (.inl ?_))
      show ((write now buf out).1.files.file ino).content ≠ []
      rw [hcontent]
      exact List.append_ne_nil_of_right_ne_nil _ hbuf

/-! ## An end in sight -/

/-- The operands that lead to the output file come when nothing has been written, and
nothing is read of it. -/
structure Finite (fs : FileSystem) (ino : Nat) (s : Cat) : Prop where
  ahead : ∀ before fname behind, s.fnames = before ++ fname :: behind →
    fs.lookup fname = some ino → ¬ s.Fed ino ∧ ∀ g ∈ before, ¬ HasByte fs g
  own : match s.pc with
    | .read _ (.file j offset) => j = ino →
        s.content ino = (fs.file ino).content ∧ (s.content ino).drop offset = []
    | .write _ (.file j _) _ => j ≠ ino
    | _ => True

/-- In a finite run a file that is read is as it was. -/
theorem Finite.sees {fs : FileSystem} {ino : Nat} {s : Cat} (h : Appends fs ino s)
    (hfin : Finite fs ino s) : Sees fs s := by
  refine ⟨h.same.lookup, ?_⟩
  cases hpc : s.pc with
  | read fname src =>
    intro j hj
    cases src with
    | terminal => cases hj
    | file i offset =>
      obtain rfl : i = j := Option.some.inj hj
      by_cases hi : i = ino
      · subst hi
        have hown := hfin.own
        rw [hpc] at hown
        exact (hown rfl).1
      · exact content_of_ne h hi
  | operands | write | returned => trivial

theorem finite_tail {fs : FileSystem} {ino : Nat} {s t : Cat} {fname : Bytes}
    (hfin : Finite fs ino s) (hs : s.fnames = fname :: t.fnames)
    (hfed : ¬ s.Fed ino → ¬ HasByte fs fname → ¬ t.Fed ino) :
    ∀ before f behind, t.fnames = before ++ f :: behind →
      fs.lookup f = some ino → ¬ t.Fed ino ∧ ∀ g ∈ before, ¬ HasByte fs g := by
  intro before f behind hsplit hf
  obtain ⟨hno, hempty⟩ := hfin.ahead (fname :: before) f behind (by rw [hs, hsplit]; rfl) hf
  refine ⟨hfed hno (hempty fname List.mem_cons_self), ?_⟩
  exact fun g hg => hempty g (List.mem_cons_of_mem fname hg)

/-- Back at the operands nothing more has been written. -/
theorem finite_back {fs : FileSystem} {ino : Nat} {s t : Cat} (hfin : Finite fs ino s)
    (hs : t.fnames = s.fnames) (hcontent : t.content ino = s.content ino)
    (hpc : t.pc = .operands) : Finite fs ino t := by
  refine ⟨fun before f behind hsplit hf => ?_, by rw [hpc]; trivial⟩
  obtain ⟨hno, hempty⟩ := hfin.ahead before f behind (hs ▸ hsplit) hf
  refine ⟨?_, hempty⟩
  rintro (hfed | hfed)
  · exact hno (.inl (hcontent ▸ hfed))
  · rw [hpc] at hfed
    exact hfed

/-- An operand that is not opened. -/
theorem finite_skip {fs : FileSystem} {ino : Nat} {out : World × Stdout} {fname line : Bytes}
    {fnames : List Bytes} (hfin : Finite fs ino ⟨out, fname :: fnames, .operands⟩) :
    Finite fs ino (Cat.printError ⟨out, fnames, .operands⟩ fname line) := by
  refine ⟨finite_tail hfin rfl ?_, trivial⟩
  rintro hno - (hfed | hfed)
  · exact hno (.inl hfed)
  · exact hfed

theorem finite_step {fs : FileSystem} {ino : Nat} {s t : Cat} {a : CatAct}
    (h : Appends fs ino s) (hfin : Finite fs ino s) (hstep : Cat.Step now strerror a s t) :
    Finite fs ino t := by
  cases hstep with
  | @opened out fname fnames j found =>
    have hfound := (h.same.lookup fname).symm.trans found
    refine ⟨finite_tail hfin rfl ?_, ?_⟩
    · rintro hno hempty (hfed | hfed)
      · exact hno (.inl hfed)
      · by_cases hj : j = ino
        · subst hj
          exact hno (.inl hfed)
        · have hcontent : Cat.content ⟨out, fnames, .read (some fname) (.file j 0)⟩ j =
              (fs.file j).content := content_of_ne h hj
          have hfed : Cat.content ⟨out, fnames, .read (some fname) (.file j 0)⟩ j ≠ [] := hfed
          exact hempty ⟨j, hfound, hcontent ▸ hfed⟩
    · rintro rfl
      obtain ⟨hno, -⟩ := hfin.ahead [] fname fnames rfl hfound
      have hnil : (out.1.files.file j).content = [] := by
        by_contra hne
        exact hno (.inl hne)
      have hstart : (fs.file j).content = [] := List.prefix_nil.mp (hnil ▸ h.grown)
      exact ⟨hnil.trans hstart.symm, hnil⟩
  | refused | missing => exact finite_skip hfin
  | leave =>
    refine ⟨fun before f behind hsplit => ?_, trivial⟩
    cases before <;> cases hsplit
  | @read out fnames fname src buf hne hfits hgives =>
    obtain ⟨j, offset, rfl⟩ := h.file
    have hfed : Cat.Fed ⟨out, fnames, .read fname (.file j offset)⟩ ino := by
      refine .inr fun hnil => hne ?_
      exact List.prefix_nil.mp (hnil ▸ hgives)
    refine ⟨fun before f behind hsplit hf => ?_, ?_⟩
    · exact absurd hfed (hfin.ahead before f behind hsplit hf).1
    · rintro rfl
      have hnil : (out.1.files.file j).content.drop offset = [] := (hfin.own rfl).2
      exact hne (List.prefix_nil.mp (hnil ▸ hgives))
  | eof | readError | readErrorOf | writeError => exact finite_back hfin rfl rfl rfl
  | @write out fnames fname src buf =>
    obtain ⟨j, offset, rfl⟩ := h.file
    refine ⟨fun before f behind hsplit hf => ?_, fun hj => absurd hj hfin.own⟩
    exact absurd (.inr trivial) (hfin.ahead before f behind hsplit hf).1

/-! ## Whether it returns -/

theorem clean_step {s : Cat} {a : CatAct} (he : (cleanCat now strerror).enabled s a) :
    Cat.Step now strerror a s ((cleanCat now strerror).next s a) :=
  step_cat he.1

/-- Some call can always be made. -/
theorem clean_goes_on {s : Cat} (hpc : s.pc ≠ .returned) :
    ∃ a, (cleanCat now strerror).enabled s a := by
  obtain ⟨out, fnames, pc⟩ := s
  cases pc with
  | operands =>
    by_cases hne : fnames = []
    · exact ⟨.leave, ⟨rfl, hne⟩, trivial⟩
    · exact ⟨.openFile none, ⟨rfl, hne⟩, rfl⟩
  | read fname src =>
    cases src with
    | terminal => exact ⟨.eof, trivial, trivial⟩
    | file j offset =>
      cases hrest : (out.1.files.file j).content.drop offset with
      | nil => exact ⟨.eof, hrest, trivial⟩
      | cons b rest =>
        refine ⟨.read [b], ⟨List.cons_ne_nil _ _, by simp [buffsize], ?_⟩, trivial⟩
        exact ⟨rest, hrest.symm⟩
  | write fname src buf => exact ⟨.write, trivial, trivial⟩
  | returned => exact absurd rfl hpc

theorem endless_run {fs : FileSystem} {ino : Nat} {s t : Cat} {as : List CatAct}
    (h : Appends fs ino s) (hend : Endless fs ino s)
    (hrun : (cleanCat now strerror).Exec s as t) : Appends fs ino t ∧ Endless fs ino t := by
  refine hrun.induct (P := fun s => Appends fs ino s ∧ Endless fs ino s) ⟨h, hend⟩ ?_
  rintro s a ⟨h, hend⟩ he
  exact ⟨appends_step h (clean_step he), endless_step h hend he.2 (clean_step he)⟩

theorem finite_next {fs : FileSystem} {ino : Nat} (s : Cat) (a : CatAct) (t : Cat)
    (h : Appends fs ino s ∧ Finite fs ino s) (hstep : Cat.Step now strerror a s t) :
    Appends fs ino t ∧ Finite fs ino t :=
  ⟨appends_step h.1 hstep, finite_step h.1 h.2 hstep⟩

theorem finite_decreases (fs : FileSystem) (ino : Nat) :
    (cat now strerror).Decreases (fun s => Appends fs ino s ∧ Finite fs ino s) (callsLeft fs) :=
  callsLeft_decreases (fun _ h => Finite.sees h.1 h.2) (fun _ h => h.1.file) finite_next

/-- With operands, and with an output file that was empty at the start, `mojcat` returns
exactly if no operand before the output file has a byte. It then returns after a bounded
number of calls, whatever the sizes of the blocks. Otherwise it never gets to an end. -/
theorem mojcat_returns_iff {w : World} {ino : Nat} (hempty : (w.files.file ino).content = [])
    {fnames : List Bytes} (hne : fnames ≠ []) (stdin : Source) :
    ((∃ as t, (cleanCat now strerror).Exec (.start w (.file ino 0) stdin fnames) as t ∧
      t.pc = .returned) ↔ ¬ SelfFed w.files ino fnames) ∧
    (¬ SelfFed w.files ino fnames → ∃ n, ∀ as t,
      (cleanCat now strerror).Exec (.start w (.file ino 0) stdin fnames) as t → as.length ≤ n) ∧
    (SelfFed w.files ino fnames → ∀ as t,
      (cleanCat now strerror).Exec (.start w (.file ino 0) stdin fnames) as t →
      ∃ a, (cleanCat now strerror).enabled t a) := by
  let s := Cat.start w (.file ino 0) stdin fnames
  have hpc : s.pc = .operands := if_neg hne
  have hs : Appends w.files ino s := by
    refine ⟨⟨fun _ => rfl, fun _ _ => rfl⟩, List.prefix_rfl, ?_, ?_, ?_⟩
    · show Stdout.file ino 0 = .file ino (w.files.file ino).content.length
      rw [hempty]
      rfl
    · unfold Cat.FromFile
      rw [hpc]
      trivial
    · rw [hpc]
      trivial
  have hendless : SelfFed w.files ino fnames → Endless w.files ino s := by
    rintro ⟨before, fname, behind, hsplit, hfound, hbyte⟩
    refine .ahead ?_ before fname behind hsplit hfound (.inr hbyte)
    rw [hpc]
    exact nofun
  have hfinite : ¬ SelfFed w.files ino fnames → Finite w.files ino s := by
    intro hnot
    refine ⟨fun before fname behind hsplit hfound => ⟨?_, fun g hg hbyte => ?_⟩, ?_⟩
    · rintro (hfed | hfed)
      · exact hfed hempty
      · rw [hpc] at hfed
        exact hfed
    · exact hnot ⟨before, fname, behind, hsplit, hfound, g, hg, hbyte⟩
    · rw [hpc]
      trivial
  have hdecreases : (cleanCat now strerror).Decreases _ _ :=
    (finite_decreases w.files ino).restrict _
  refine ⟨⟨?_, fun hnot => ?_⟩, fun hnot => ?_, fun hfed as t hrun => ?_⟩
  · rintro ⟨as, t, hrun, ht⟩ hfed
    exact endless_ne_returned (endless_run hs (hendless hfed) hrun).2 ht
  · refine hdecreases.exists_final ?_ ⟨hs, hfinite hnot⟩
    exact fun u _ hret => clean_goes_on hret
  · exact ⟨callsLeft w.files s, fun as t hrun =>
      hdecreases.length_le ⟨hs, hfinite hnot⟩ hrun⟩
  · obtain ⟨ht, hend⟩ := endless_run hs (hendless hfed) hrun
    exact clean_goes_on (endless_ne_returned hend)

/-- The files `in` and `out` of `mojcat in out > out`, when `out` has been opened. -/
def inOut : World := ⟨.ofList [(ascii "in", ⟨ascii "text", 0, 0⟩), (ascii "out", ⟨[], 0, 0⟩)], [], []⟩

theorem mojcat_returns_iff_inOut :
    (∃ as t, (cleanCat 0 fun _ => []).Exec (.start inOut (.file 1 0) .terminal [ascii "in"]) as t ∧
      t.pc = .returned) ∧
    ¬ ∃ as t, (cleanCat 0 fun _ => []).Exec
      (.start inOut (.file 1 0) .terminal [ascii "in", ascii "out"]) as t ∧ t.pc = .returned := by
  have hempty : (inOut.files.file 1).content = [] := by decide
  constructor
  · refine (mojcat_returns_iff hempty (by decide) .terminal).1.mpr ?_
    rintro ⟨before, fname, behind, hsplit, -, g, hg, -⟩
    cases before with
    | nil => cases hg
    | cons h before => cases before <;> cases hsplit
  · rw [(mojcat_returns_iff hempty (by decide) .terminal).1, not_not]
    exact ⟨[ascii "in"], ascii "out", [], rfl, by decide, ascii "in", List.mem_cons_self, 0,
      by decide, by decide⟩

end SisProg.Mojbash
