import SisProg.Lib.FileSystem
import SisProg.Mojbash.Scanner

/-!
# mojtouch

`mojtouch` creates each of its operands with `O_EXCL`. If there is a file already, it opens
it for writing and calls `futimens`. The first of the two times that `futimens` gets is that
of the last access, and the second that of the last modification. `mojtouch` sets the first
and leaves out the second, so the modification time of an existing file stays what it was.

* `touched_mojtouch`: what a run does to the file system.
* `mojtouch_updates_iff`: it does what it should exactly if no modification time is to change.
-/

namespace SisProg.Mojbash

open Bytes (ascii)

/-- How the kernel answers the calls for one operand: why it refuses to create it, to open
it for writing, or to set its times, and what time it is. A kernel that refuses to create
a path with `EEXIST` has a link there that leads to no file. -/
structure Answers where
  create : Option Errno
  write : Option Errno
  utimes : Option Errno
  now : Nat
deriving DecidableEq

/-- The file system, and what has been printed to standard error. -/
structure Touching where
  files : FileSystem
  stderr : List Bytes

def Touching.eprint (s : Touching) (message : Bytes) : Touching :=
  { s with stderr := s.stderr ++ [message] }

/-- `"touch: %s '%s'%s: %s\n"`, for the three texts of the source. -/
def touchError (what path how error : Bytes) : Bytes :=
  ascii "touch: " ++ what ++ ascii " '" ++ path ++ ascii "'" ++ how ++ ascii ": " ++ error ++
    ascii "\n"

variable (strerror : Errno → Bytes)

/-- The part for a file that exists. -/
def updateTimes (path : Bytes) (a : Answers) (s : Touching) : Touching :=
  match s.files.openFile path { wronly := true } a.write a.now with
  | (.error e, _) =>
    s.eprint (touchError (ascii "cannot open") path (ascii " for writing") (strerror e))
  | (.ok ino, files) =>
    match a.utimes with
    | some e => s.eprint (touchError (ascii "cannot update times on") path [] (strerror e))
    -- `times[0].tv_nsec = UTIME_NOW; times[1].tv_nsec = UTIME_OMIT`
    | none => { s with files := files.futimens ino .now .omit a.now }

/-- The loop body. -/
def touch (s : Touching) (operand : Bytes × Answers) : Touching :=
  let (path, a) := operand
  match s.files.openFile path { creat := true, excl := true } a.create a.now with
  | (.ok _, files) => { s with files }
  | (.error .eexist, _) => updateTimes strerror path a s
  | (.error e, _) => s.eprint (touchError (ascii "cannot create") path [] (strerror e))

/-- `mojtouch`: each operand comes with the answers of the kernel. -/
def mojtouch (args : List (Bytes × Answers)) (s : Touching) : Touching :=
  args.foldl (touch strerror) s

/-! ## What it is for -/

/-- The operand `p` is another file than the one at `q`, and another path. -/
def Apart (fs : FileSystem) (p q : Bytes) : Prop :=
  fs.entry q ≠ fs.entry p ∧ ∀ ino, fs.lookup q = some ino → fs.lookup p ≠ some ino

/-- What `mojtouch` should make of the file system `fs`. -/
structure Updates (args : List (Bytes × Answers)) (fs t : FileSystem) : Prop where
  created : ∀ a ∈ args, fs.lookup a.1 = none → a.2.create = none →
    ∃ ino, t.lookup a.1 = some ino ∧ (t.file ino).content = []
  kept : ∀ a ∈ args, ∀ ino, fs.lookup a.1 = some ino → a.2.write = none →
    t.lookup a.1 = some ino ∧ (t.file ino).content = (fs.file ino).content
  modified : ∀ a ∈ args, ∀ ino, fs.lookup a.1 = some ino → a.2.write = none →
    ∃ b ∈ args, fs.lookup b.1 = some ino ∧ b.2.write = none ∧ (t.file ino).mtime = b.2.now
  others : ∀ q, (∀ a ∈ args, Apart fs a.1 q) →
    t.lookup q = fs.lookup q ∧ ∀ ino, fs.lookup q = some ino → t.file ino = fs.file ino

/-! ## What it does -/

variable {strerror}

theorem updateTimes_cases (path : Bytes) (a : Answers) (s : Touching) :
    (∃ ino, s.files.lookup path = some ino ∧
      (updateTimes strerror path a s).files = s.files.futimens ino .now .omit a.now) ∨
    (updateTimes strerror path a s).files = s.files := by
  unfold updateTimes
  cases hopen : s.files.openFile path { wronly := true } a.write a.now with
  | mk result files =>
    cases result with
    | error e => exact .inr rfl
    | ok ino =>
      obtain ⟨-, ⟨hpath, -, rfl⟩ | ⟨-, hcreat, -⟩⟩ := FileSystem.openFile_ok_cases hopen
      · cases a.utimes with
        | some e => exact .inr rfl
        | none => exact .inl ⟨ino, hpath, rfl⟩
      · cases hcreat

/-- What the loop body does: it creates the file, or sets the time of its last access, or
does nothing. -/
theorem touch_cases (s : Touching) (path : Bytes) (a : Answers) :
    (s.files.lookup path = none ∧
      (touch strerror s (path, a)).files = s.files.create path a.now) ∨
    (∃ ino, s.files.lookup path = some ino ∧
      (touch strerror s (path, a)).files = s.files.futimens ino .now .omit a.now) ∨
    ((s.files.lookup path = none → a.create ≠ none) ∧
      (touch strerror s (path, a)).files = s.files) := by
  unfold touch
  dsimp only
  cases hopen : s.files.openFile path { creat := true, excl := true } a.create a.now with
  | mk result files =>
    cases result with
    | ok ino =>
      obtain ⟨-, ⟨-, hexcl, -⟩ | ⟨hpath, -, -, rfl⟩⟩ := FileSystem.openFile_ok_cases hopen
      · cases hexcl
      · exact .inl ⟨hpath, rfl⟩
    | error e =>
      have hrefused : s.files.lookup path = none → a.create ≠ none := by
        intro hpath hnone
        rw [hnone, FileSystem.openFile_creat hpath rfl] at hopen
        cases hopen
      cases e with
      | eexist =>
        rcases @updateTimes_cases strerror path a s with hupdate | hsame
        · exact .inr (.inl hupdate)
        · exact .inr (.inr ⟨hrefused, hsame⟩)
      | enoent | eisdir | other => exact .inr (.inr ⟨hrefused, rfl⟩)

/-- What a run has made of the file system `fs`, for the operands so far. -/
structure Touched (args : List (Bytes × Answers)) (fs t : FileSystem) : Prop where
  entry : t.entry = fs.entry
  next : fs.next ≤ t.next
  found : ∀ q ino, fs.lookup q = some ino → t.lookup q = some ino
  new : ∀ q ino, fs.lookup q = none → t.lookup q = some ino →
    fs.next ≤ ino ∧ (t.file ino).content = [] ∧ ∃ a ∈ args, fs.entry q = fs.entry a.1
  created : ∀ a ∈ args, a.2.create = none → t.lookup a.1 ≠ none
  kept : ∀ ino < fs.next,
    (t.file ino).content = (fs.file ino).content ∧ (t.file ino).mtime = (fs.file ino).mtime
  others : ∀ ino < fs.next, (∀ a ∈ args, fs.lookup a.1 ≠ some ino) → t.file ino = fs.file ino

theorem touched_nil (fs : FileSystem) : Touched [] fs fs := by
  refine ⟨rfl, le_rfl, fun _ _ h => h, ?_, by simp, fun _ _ => ⟨rfl, rfl⟩, fun _ _ _ => rfl⟩
  intro q ino hnone hsome
  rw [hnone] at hsome
  cases hsome

/-- The created file is a new one. -/
theorem touched_create {args : List (Bytes × Answers)} {fs t : FileSystem} (h : Touched args fs t)
    {path : Bytes} {a : Answers} (hpath : t.lookup path = none) :
    Touched (args ++ [(path, a)]) fs (t.create path a.now) := by
  refine ⟨h.entry, h.next.trans (Nat.le_succ _), ?_, ?_, ?_, ?_, ?_⟩
  · intro q ino hq
    exact (FileSystem.lookup_create_of_some hpath (h.found q ino hq)).1
  · intro q ino hnone hsome
    by_cases hentry : t.entry q = t.entry path
    · rw [FileSystem.lookup_create_self hentry] at hsome
      cases hsome
      refine ⟨h.next, by simp, (path, a), by simp, ?_⟩
      rw [← h.entry]
      exact hentry
    · rw [FileSystem.lookup_create_of_ne hentry] at hsome
      obtain ⟨hnew, hempty, b, hb, hbq⟩ := h.new q ino hnone hsome
      refine ⟨hnew, ?_, b, List.mem_append_left _ hb, hbq⟩
      rw [(FileSystem.lookup_create_of_some hpath hsome).2]
      exact hempty
  · intro b hb hcreate
    rcases List.mem_append.mp hb with hb | hb
    · obtain ⟨ino, hino⟩ := Option.ne_none_iff_exists'.mp (h.created b hb hcreate)
      rw [(FileSystem.lookup_create_of_some hpath hino).1]
      simp
    · rw [List.mem_singleton.mp hb, FileSystem.lookup_create_self rfl]
      simp
  · intro ino hino
    rw [FileSystem.file_create_of_ne (hino.trans_le h.next).ne]
    exact h.kept ino hino
  · intro ino hino hothers
    rw [FileSystem.file_create_of_ne (hino.trans_le h.next).ne]
    exact h.others ino hino fun b hb => hothers b (List.mem_append_left _ hb)

/-- The file whose times are set is that of an operand, or one that was created. -/
theorem touched_futimens {args : List (Bytes × Answers)} {fs t : FileSystem} (h : Touched args fs t)
    {path : Bytes} {a : Answers} {ino : Nat} (hpath : t.lookup path = some ino) :
    Touched (args ++ [(path, a)]) fs (t.futimens ino .now .omit a.now) := by
  refine ⟨h.entry, h.next, h.found, ?_, ?_, ?_, ?_⟩
  · intro q i hnone hsome
    obtain ⟨hnew, hempty, b, hb, hbq⟩ := h.new q i hnone hsome
    rw [(FileSystem.file_futimens_omit .now i).1]
    exact ⟨hnew, hempty, b, List.mem_append_left _ hb, hbq⟩
  · intro b hb hcreate
    rcases List.mem_append.mp hb with hb | hb
    · exact h.created b hb hcreate
    · rw [List.mem_singleton.mp hb]
      show t.lookup path ≠ none
      rw [hpath]
      simp
  · intro i hi
    rw [(FileSystem.file_futimens_omit .now i).1, (FileSystem.file_futimens_omit .now i).2]
    exact h.kept i hi
  · intro i hi hothers
    have hne : i ≠ ino := by
      rintro rfl
      cases hlookup : fs.lookup path with
      | none => exact absurd (h.new path i hlookup hpath).1 (Nat.not_le.mpr hi)
      | some j =>
        have hj := (h.found path j hlookup).symm.trans hpath
        exact hothers (path, a) (by simp) (hlookup.trans hj)
    rw [FileSystem.futimens, FileSystem.file_update_of_ne hne]
    exact h.others i hi fun b hb => hothers b (List.mem_append_left _ hb)

theorem touched_same {args : List (Bytes × Answers)} {fs t : FileSystem} (h : Touched args fs t)
    {path : Bytes} {a : Answers} (hrefused : t.lookup path = none → a.create ≠ none) :
    Touched (args ++ [(path, a)]) fs t := by
  refine ⟨h.entry, h.next, h.found, ?_, ?_, h.kept, ?_⟩
  · intro q i hnone hsome
    obtain ⟨hnew, hempty, b, hb, hbq⟩ := h.new q i hnone hsome
    exact ⟨hnew, hempty, b, List.mem_append_left _ hb, hbq⟩
  · intro b hb hcreate
    rcases List.mem_append.mp hb with hb | hb
    · exact h.created b hb hcreate
    · obtain rfl : b = (path, a) := List.mem_singleton.mp hb
      exact fun hnone => hrefused hnone hcreate
  · intro i hi hothers
    exact h.others i hi fun b hb => hothers b (List.mem_append_left _ hb)

/-- The induction is on the operands, from the last. -/
theorem touched_mojtouch (args : List (Bytes × Answers)) (s : Touching) :
    Touched args s.files (mojtouch strerror args s).files := by
  induction args using List.reverseRecOn with
  | nil => exact touched_nil s.files
  | append_singleton args a ih =>
    obtain ⟨path, a⟩ := a
    have hrun : mojtouch strerror (args ++ [(path, a)]) s =
        touch strerror (mojtouch strerror args s) (path, a) := by
      simp [mojtouch]
    rw [hrun]
    rcases @touch_cases strerror (mojtouch strerror args s) path a with
      ⟨hpath, hfiles⟩ | ⟨ino, hpath, hfiles⟩ | ⟨hrefused, hfiles⟩
    · rw [hfiles]
      exact touched_create ih hpath
    · rw [hfiles]
      exact touched_futimens ih hpath
    · rw [hfiles]
      exact touched_same ih hrefused

/-- `mojtouch` does what it should exactly if no operand is a file that exists, can be
opened, and has another modification time than it would get. -/
theorem mojtouch_updates_iff (args : List (Bytes × Answers)) (s : Touching) :
    Updates args s.files (mojtouch strerror args s).files ↔
      ∀ a ∈ args, ∀ ino, s.files.lookup a.1 = some ino → a.2.write = none →
        ∃ b ∈ args, s.files.lookup b.1 = some ino ∧ b.2.write = none ∧
          (s.files.file ino).mtime = b.2.now := by
  have h := @touched_mojtouch strerror args s
  have hlt : ∀ q ino, s.files.lookup q = some ino → ino < s.files.next :=
    fun q ino hq => s.files.links_lt hq
  constructor
  · intro hup a ha ino hino hwrite
    obtain ⟨b, hb, hbino, hbwrite, hmtime⟩ := hup.modified a ha ino hino hwrite
    exact ⟨b, hb, hbino, hbwrite, ((h.kept ino (hlt _ _ hino)).2).symm.trans hmtime⟩
  · intro hmtime
    refine ⟨?_, ?_, ?_, ?_⟩
    · intro a ha hnone hcreate
      obtain ⟨ino, hino⟩ := Option.ne_none_iff_exists'.mp (h.created a ha hcreate)
      exact ⟨ino, hino, (h.new a.1 ino hnone hino).2.1⟩
    · intro a ha ino hino _
      exact ⟨h.found a.1 ino hino, (h.kept ino (hlt _ _ hino)).1⟩
    · intro a ha ino hino hwrite
      obtain ⟨b, hb, hbino, hbwrite, hnow⟩ := hmtime a ha ino hino hwrite
      exact ⟨b, hb, hbino, hbwrite, ((h.kept ino (hlt _ _ hino)).2).trans hnow⟩
    · intro q hq
      cases hlookup : s.files.lookup q with
      | none =>
        refine ⟨?_, by simp⟩
        by_contra hsome
        obtain ⟨ino, hino⟩ := Option.ne_none_iff_exists'.mp hsome
        obtain ⟨-, -, a, ha, hentry⟩ := h.new q ino hlookup hino
        exact (hq a ha).1 hentry
      | some ino =>
        refine ⟨h.found q ino hlookup, ?_⟩
        intro i hi
        obtain rfl : ino = i := Option.some.inj hi
        exact h.others ino (hlt _ _ hlookup) fun a ha => (hq a ha).2 ino hlookup

/-- The file `f`, changed at the time `5`. -/
def oldFile : Touching := ⟨.ofList [(ascii "f", ⟨ascii "text", 5, 5⟩)], []⟩

/-- At the time `9` the file is only marked as read. -/
theorem mtime_kept :
    (((mojtouch (fun _ => []) [(ascii "f", ⟨none, none, none, 9⟩)] oldFile).files.file 0) =
      ⟨ascii "text", 9, 5⟩) ∧
    ¬ Updates [(ascii "f", ⟨none, none, none, 9⟩)] oldFile.files
      (mojtouch (fun _ => []) [(ascii "f", ⟨none, none, none, 9⟩)] oldFile).files := by
  refine ⟨by decide, ?_⟩
  intro hup
  obtain ⟨b, hb, -, -, hmtime⟩ := hup.modified _ List.mem_cons_self 0 (by decide) rfl
  obtain rfl := List.mem_singleton.mp hb
  revert hmtime
  decide

end SisProg.Mojbash
