import SisProg.Mojbash.SelfCopy

/-!
# What mojcat is for

`mojcat` writes its operands, or its standard input, to standard output, and reports what
cannot be opened or read. With the files as they are at each call this is so unless it reads
what it has written itself.

* `concatenates_of_sees`: it is so where the files are read as they were at the start.
* `mojcat_concatenates_iff`: an output that is not read is enough. If the output is written at
  the end of its file, all that matters is that no byte of this file is read.
-/

namespace SisProg.Mojbash

open Bytes (ascii)

/-- The run ends, with any sizes of the blocks and whatever cannot be opened or read, as long
as the writes are complete. It has then written, and reported, what its calls say. -/
structure Concatenates (now : Nat) (strerror : Errno → Bytes) (w : World) (stdout : Stdout)
    (stdin : Source) (fnames : List Bytes) : Prop where
  goes_on : ∀ as t, (completeCat now strerror).Exec (.start w stdout stdin fnames) as t →
    t.pc ≠ .returned → ∃ a, (cleanCat now strerror).enabled t a
  ends : fnames ≠ [] ∨ stdin ≠ .terminal → ∃ n, ∀ as t,
    (completeCat now strerror).Exec (.start w stdout stdin fnames) as t → as.length ≤ n
  operands : fnames ≠ [] → ∀ as t,
    (completeCat now strerror).Exec (.start w stdout stdin fnames) as t → t.pc = .returned →
    ∃ ops : List (Operand w.files), ops.map Sigma.fst = fnames ∧ Calls ops as ∧
      t.out = emit now (ops.flatMap Operand.part) (ops.filterMap (Operand.error strerror))
        (w, stdout)
  input : fnames = [] → ∀ as t,
    (completeCat now strerror).Exec (.start w stdout stdin fnames) as t → t.pc = .returned →
    ∃ content, stdin.Holds w.files content ∧ ∃ r : Reading content,
      as = r.calls ++ [.leave] ∧ t.out = emit now r.blocks.flatten [] (w, stdout)

/-- The output is written at the end of its file. -/
def Stdout.AtEnd (files : FileSystem) : Stdout → Prop
  | .terminal => True
  | .file ino offset => offset = (files.file ino).content.length

/-- An operand, or without operands standard input, is the file that the output goes to. -/
def ReadsOutput (fs : FileSystem) (stdout : Stdout) (stdin : Source) (fnames : List Bytes) :
    Prop :=
  ∃ ino, stdout.ino = some ino ∧
    (fnames = [] ∧ stdin.ino = some ino ∨ ∃ fname ∈ fnames, fs.lookup fname = some ino)

/-- There will be a byte in it when it is read: it has one, or an operand before it has. -/
def ReadsOwnByte (fs : FileSystem) (stdout : Stdout) (stdin : Source) (fnames : List Bytes) :
    Prop :=
  ∃ ino, stdout.ino = some ino ∧
    ((fnames = [] ∧ ∃ offset, stdin = .file ino offset ∧
        (fs.file ino).content.drop offset ≠ []) ∨
      ∃ before fname behind, fnames = before ++ fname :: behind ∧ fs.lookup fname = some ino ∧
        ∃ g ∈ before ++ [fname], HasByte fs g)

variable {now : Nat} {strerror : Errno → Bytes} {w : World} {stdout : Stdout} {stdin : Source}
  {fnames : List Bytes}

theorem start_of_ne (h : fnames ≠ []) :
    Cat.start w stdout stdin fnames = ⟨(w, stdout), fnames, .operands⟩ := by
  rw [Cat.start, if_neg h]

theorem start_nil : Cat.start w stdout stdin [] = ⟨(w, stdout), [], .read none stdin⟩ := rfl

/-- What is read is a file, unless it is typed. -/
theorem fromFile_start (h : fnames ≠ [] ∨ stdin ≠ .terminal) :
    (Cat.start w stdout stdin fnames).FromFile := by
  by_cases hne : fnames = []
  · subst hne
    cases stdin with
    | terminal => exact absurd rfl (h.resolve_left fun hnil => hnil rfl)
    | file ino offset => exact ⟨ino, offset, rfl⟩
  · rw [start_of_ne hne]
    trivial

/-- Nothing more is needed than to read the files as they were at the start. -/
theorem concatenates_of_sees {P : Cat → Prop} (hsees : ∀ s, P s → Sees w.files s)
    (hnext : ∀ s a t, P s → Cat.Step now strerror a s t → P t)
    (hs : P (.start w stdout stdin fnames)) :
    Concatenates now strerror w stdout stdin fnames where
  goes_on _ _ _ ht := clean_goes_on ht
  ends hfile := by
    have hdecreases : (cat now strerror).Decreases (fun s => P s ∧ s.FromFile)
        (callsLeft w.files) :=
      callsLeft_decreases (fun s h => hsees s h.1) (fun s h => h.2)
        fun s a t h hstep => ⟨hnext s a t h.1 hstep, fromFile_step h.2 hstep⟩
    exact ⟨_, fun as t h => (hdecreases.restrict _).length_le ⟨hs, fromFile_start hfile⟩ h⟩
  operands hne as t h ht := by
    have hcopied := copied_of_run hsees hnext hs h ht
    rw [start_of_ne hne] at hcopied
    exact hcopied
  input hnil as t h ht := by
    subst hnil
    obtain ⟨content, hholds, r, ops, rest, hnames, hcalls, rfl, hout⟩ :=
      copied_of_run hsees hnext hs h ht
    obtain rfl : ops = [] := List.map_eq_nil_iff.mp hnames
    cases hcalls
    refine ⟨content, hholds, r, rfl, hout.trans ?_⟩
    simp [failureLine, start_nil]

theorem concatenates_of_not_readsOutput (h : ¬ ReadsOutput w.files stdout stdin fnames) :
    Concatenates now strerror w stdout stdin fnames := by
  refine concatenates_of_sees (P := Reads w.files) (fun _ => Reads.sees)
    (fun _ _ _ => reads_step) ⟨⟨fun _ => rfl, fun _ _ => rfl⟩, ?_, ?_⟩
  · exact fun fname hf i hi hino => h ⟨i, hino, .inr ⟨fname, hf, hi⟩⟩
  · by_cases hne : fnames = []
    · subst hne
      exact fun i hi hino => h ⟨i, hino, .inl ⟨rfl, hi⟩⟩
    · rw [start_of_ne hne]
      trivial

/-! ## An output that is written at its end -/

variable {ino : Nat}

theorem appends_start (hfile : fnames ≠ [] ∨ stdin ≠ .terminal) :
    Appends w.files ino (.start w (.file ino (w.files.file ino).content.length) stdin fnames) where
  same := ⟨fun _ => rfl, fun _ _ => rfl⟩
  grown := List.prefix_rfl
  stdout := rfl
  file := fromFile_start hfile
  block := by
    by_cases hne : fnames = []
    · subst hne
      trivial
    · rw [start_of_ne hne]
      trivial

theorem endless_start {offset : Nat} (h : ReadsOwnByte w.files (.file ino offset) stdin fnames) :
    Endless w.files ino (.start w (.file ino offset) stdin fnames) ∧
      (fnames ≠ [] ∨ stdin ≠ .terminal) := by
  obtain ⟨i, hi, ⟨rfl, start, rfl, hbyte⟩ | ⟨before, fname, behind, rfl, hfound, g, hg, hbyte⟩⟩ := h
  · obtain rfl : ino = i := Option.some.inj hi
    refine ⟨.reading none start rfl ?_, .inr nofun⟩
    by_contra hle
    exact hbyte (List.drop_eq_nil_iff.mpr (Nat.not_lt.mp hle))
  · obtain rfl : ino = i := Option.some.inj hi
    have hne : before ++ fname :: behind ≠ [] := by simp
    rw [start_of_ne hne]
    refine ⟨.ahead nofun before fname behind rfl hfound ?_, .inl hne⟩
    rcases List.mem_append.mp hg with hg | hg
    · exact .inr ⟨g, hg, hbyte⟩
    · obtain rfl := List.mem_singleton.mp hg
      obtain ⟨j, hj, hbyte⟩ := hbyte
      obtain rfl := Option.some.inj (hfound.symm.trans hj)
      exact .inl (.inl hbyte)

/-- The copy of its own output has no end. -/
theorem not_concatenates
    (h : ReadsOwnByte w.files (.file ino (w.files.file ino).content.length) stdin fnames) :
    ¬ Concatenates now strerror w (.file ino (w.files.file ino).content.length) stdin fnames := by
  intro hcat
  obtain ⟨hendless, hfile⟩ := endless_start h
  obtain ⟨n, hn⟩ := hcat.ends hfile
  obtain ⟨as, t, hrun, hlength⟩ := @Machine.exists_run_of_length _ _ (cleanCat now strerror)
    (fun s => Appends w.files ino s ∧ Endless w.files ino s) _ (fun s ⟨hs, hend⟩ => by
      obtain ⟨a, he⟩ := clean_goes_on (endless_ne_returned hend)
      exact ⟨a, he, appends_step hs (clean_step he), endless_step hs hend he.2 (clean_step he)⟩)
    ⟨appends_start hfile, hendless⟩ (n + 1)
  obtain ⟨hexec, hclean⟩ := Machine.exec_restrict_iff.mp hrun
  have hle := hn as t (Machine.exec_restrict_iff.mpr ⟨hexec, fun a ha => (hclean a ha).complete⟩)
  omega

theorem finite_start {offset : Nat} (h : ¬ ReadsOwnByte w.files (.file ino offset) stdin fnames) :
    Finite w.files ino (.start w (.file ino offset) stdin fnames) := by
  by_cases hne : fnames = []
  · subst hne
    refine ⟨fun before fname behind hsplit => ?_, ?_⟩
    · cases before <;> cases hsplit
    · cases stdin with
      | terminal => trivial
      | file j start =>
        rintro rfl
        refine ⟨rfl, ?_⟩
        by_contra hbyte
        exact h ⟨j, rfl, .inl ⟨rfl, start, rfl, hbyte⟩⟩
  · rw [start_of_ne hne]
    refine ⟨fun before fname behind hsplit hfound => ⟨?_, fun g hg hbyte => ?_⟩, trivial⟩
    · rintro (hbyte | hfed)
      · exact h ⟨ino, rfl, .inr ⟨before, fname, behind, hsplit, hfound, fname,
          List.mem_append_right _ List.mem_cons_self, ino, hfound, hbyte⟩⟩
      · exact hfed
    · exact h ⟨ino, rfl, .inr ⟨before, fname, behind, hsplit, hfound, g,
        List.mem_append_left _ hg, hbyte⟩⟩

theorem concatenates_of_not_readsOwnByte (hend : stdout.AtEnd w.files)
    (h : ¬ ReadsOwnByte w.files stdout stdin fnames) :
    Concatenates now strerror w stdout stdin fnames := by
  cases stdout with
  | terminal =>
    refine concatenates_of_not_readsOutput ?_
    rintro ⟨ino, hino, -⟩
    cases hino
  | file ino offset =>
    obtain rfl : offset = _ := hend
    by_cases hfile : fnames ≠ [] ∨ stdin ≠ .terminal
    · exact concatenates_of_sees (P := fun s => Appends w.files ino s ∧ Finite w.files ino s)
        (fun _ hs => Finite.sees hs.1 hs.2) finite_next ⟨appends_start hfile, finite_start h⟩
    · obtain ⟨hnil, hterminal⟩ := not_or.mp hfile
      obtain rfl := not_not.mp hnil
      obtain rfl := not_not.mp hterminal
      refine concatenates_of_not_readsOutput ?_
      rintro ⟨i, -, ⟨-, hi⟩ | ⟨fname, hf, -⟩⟩
      · cases hi
      · cases hf

/-- `mojcat` does what it is for if the output file is none of the files that it reads. If the
output is written at the end of its file, it does so exactly if it reads no byte of this file. -/
theorem mojcat_concatenates_iff (now : Nat) (strerror : Errno → Bytes) (w : World)
    (stdout : Stdout) (stdin : Source) (fnames : List Bytes) :
    (¬ ReadsOutput w.files stdout stdin fnames →
      Concatenates now strerror w stdout stdin fnames) ∧
    (stdout.AtEnd w.files → (Concatenates now strerror w stdout stdin fnames ↔
      ¬ ReadsOwnByte w.files stdout stdin fnames)) := by
  refine ⟨concatenates_of_not_readsOutput, fun hend => ⟨fun hcat hbyte => ?_, fun h =>
    concatenates_of_not_readsOwnByte hend h⟩⟩
  cases stdout with
  | terminal =>
    obtain ⟨ino, hino, -⟩ := hbyte
    cases hino
  | file ino offset =>
    obtain rfl : offset = _ := hend
    exact not_concatenates hbyte hcat

/-- `mojcat in in > out`, where `out` has been emptied. -/
theorem mojcat_concatenates_inIn :
    Concatenates 0 (fun _ => []) inOut (.file 1 0) .terminal [ascii "in", ascii "in"] := by
  have hend : Stdout.AtEnd inOut.files (.file 1 0) := by
    show 0 = (inOut.files.file 1).content.length
    decide
  refine ((mojcat_concatenates_iff 0 (fun _ => []) inOut (.file 1 0) .terminal _).2 hend).mpr ?_
  rintro ⟨ino, hino, ⟨hnil, -⟩ | ⟨before, fname, behind, hsplit, hfound, -⟩⟩
  · cases hnil
  · obtain rfl : 1 = ino := Option.some.inj hino
    have hmem : fname ∈ [ascii "in", ascii "in"] := by
      rw [hsplit]
      simp
    obtain rfl : fname = ascii "in" := by simpa using hmem
    exact absurd hfound (by decide)

/-- `mojcat in out > out` never gets to the end of `out`, which is empty when it begins. -/
theorem ownOutput_endless :
    ¬ Concatenates 0 (fun _ => []) inOut (.file 1 0) .terminal [ascii "in", ascii "out"] := by
  refine @not_concatenates 0 (fun _ => []) inOut .terminal _ 1 ?_
  exact ⟨1, rfl, .inr ⟨[ascii "in"], ascii "out", [], rfl, by decide, ascii "in",
    List.mem_cons_self, 0, by decide, by decide⟩⟩

end SisProg.Mojbash
