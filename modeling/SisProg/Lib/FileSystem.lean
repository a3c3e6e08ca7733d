import SisProg.Lib.Bytes

/-!
# Files

A file system as a program sees it through `open`. A path denotes a directory entry,
and an entry leads to a file or to none. Two paths may denote the same entry (`a` and
`./a`), and two entries may lead to the same file (hard links). So what becomes of a
file when another path is opened is a question about both.

The kernel may refuse a call for a reason of its own. `openFile` gets this reason from
outside, and changes nothing when it fails.
-/

namespace SisProg

inductive Errno
  | enoent
  | eexist
  | eisdir
  | other (errno : Nat)
deriving DecidableEq

/-- A file, with the times of its last access and modification. -/
structure File where
  content : Bytes
  atime : Nat
  mtime : Nat
deriving DecidableEq

/-- The numbers from `next` on are not in use. -/
structure FileSystem where
  entry : Bytes → Bytes
  links : Bytes → Option Nat
  file : Nat → File
  next : Nat
  links_lt : ∀ {e : Bytes} {ino : Nat}, links e = some ino → ino < next

/-- The flags of `open`, besides `O_RDONLY`. -/
structure Flags where
  wronly : Bool := false
  creat : Bool := false
  excl : Bool := false
  trunc : Bool := false
deriving DecidableEq

namespace FileSystem

/-- The file that a path leads to. -/
def lookup (fs : FileSystem) (path : Bytes) : Option Nat := fs.links (fs.entry path)

def update (fs : FileSystem) (ino : Nat) (f : File → File) : FileSystem :=
  { fs with file := fun i => if i = ino then f (fs.file i) else fs.file i }

/-- A new, empty file at `path`. -/
def create (fs : FileSystem) (path : Bytes) (now : Nat) : FileSystem where
  entry := fs.entry
  links e := if e = fs.entry path then some fs.next else fs.links e
  file i := if i = fs.next then ⟨[], now, now⟩ else fs.file i
  next := fs.next + 1
  links_lt := by
    intro e ino h
    split at h
    next =>
      cases h
      exact Nat.lt_succ_self _
    next => exact (fs.links_lt h).trans (Nat.lt_succ_self _)

/-- What `futimens` is told to do with a time: `UTIME_OMIT`, `UTIME_NOW`, or a time. -/
inductive Timestamp
  | omit
  | now
  | at (time : Nat)
deriving DecidableEq

def Timestamp.apply (now old : Nat) : Timestamp → Nat
  | .omit => old
  | .now => now
  | .at time => time

/-- `futimens`, with the time of the last access before that of the modification. -/
def futimens (fs : FileSystem) (ino : Nat) (atime mtime : Timestamp) (now : Nat) : FileSystem :=
  fs.update ino fun f => { f with
    atime := atime.apply now f.atime
    mtime := mtime.apply now f.mtime }

/-- A file system with one path for each file. -/
def ofList (files : List (Bytes × File)) : FileSystem where
  entry path := path
  links path := (files.map Prod.fst).idxOf? path
  file ino := (files.map Prod.snd).getD ino ⟨[], 0, 0⟩
  next := files.length
  links_lt := by
    intro e ino h
    simpa using (List.idxOf?_eq_some_iff.mp h).1

/-- `open`. With `refusal` the kernel refuses a call that could succeed. -/
def openFile (fs : FileSystem) (path : Bytes) (flags : Flags) (refusal : Option Errno)
    (now : Nat) : Except Errno Nat × FileSystem :=
  match fs.lookup path, refusal with
  | some ino, none =>
    if flags.creat && flags.excl then (.error .eexist, fs)
    else if flags.trunc then
      (.ok ino, fs.update ino fun f => { f with content := [], mtime := now })
    else (.ok ino, fs)
  | some _, some e => (.error (if flags.creat && flags.excl then .eexist else e), fs)
  | none, none =>
    if flags.creat then (.ok fs.next, fs.create path now) else (.error .enoent, fs)
  | none, some e => (.error e, fs)

variable {fs : FileSystem} {path q : Bytes} {ino i now : Nat} {f : File → File}

/-! ## What changes -/

@[simp] theorem file_update_self : (fs.update ino f).file ino = f (fs.file ino) := if_pos rfl

theorem file_update_of_ne (h : i ≠ ino) : (fs.update ino f).file i = fs.file i := if_neg h

/-- `futimens` does not touch the content, and a time that it is to omit. -/
theorem file_futimens_omit (atime : Timestamp) (i : Nat) :
    ((fs.futimens ino atime .omit now).file i).content = (fs.file i).content ∧
      ((fs.futimens ino atime .omit now).file i).mtime = (fs.file i).mtime := by
  by_cases hi : i = ino
  · rw [hi, futimens, file_update_self]
    exact ⟨rfl, rfl⟩
  · rw [futimens, file_update_of_ne hi]
    exact ⟨rfl, rfl⟩

theorem lookup_create_self (h : fs.entry q = fs.entry path) :
    (fs.create path now).lookup q = some fs.next := if_pos h

theorem lookup_create_of_ne (h : fs.entry q ≠ fs.entry path) :
    (fs.create path now).lookup q = fs.lookup q := if_neg h

@[simp] theorem file_create_next : (fs.create path now).file fs.next = ⟨[], now, now⟩ := if_pos rfl

theorem file_create_of_ne (h : i ≠ fs.next) : (fs.create path now).file i = fs.file i := if_neg h

theorem entry_ne_of_lookup (h : fs.lookup path = none) (hq : fs.lookup q = some ino) :
    fs.entry q ≠ fs.entry path := by
  intro heq
  rw [lookup, heq] at hq
  rw [lookup, hq] at h
  cases h

/-- A path that led to a file still does when another file is created, and the file is
what it was. -/
theorem lookup_create_of_some (h : fs.lookup path = none) (hq : fs.lookup q = some ino) :
    (fs.create path now).lookup q = some ino ∧ (fs.create path now).file ino = fs.file ino := by
  refine ⟨?_, file_create_of_ne (fs.links_lt hq).ne⟩
  rw [lookup_create_of_ne (entry_ne_of_lookup h hq), hq]

/-! ## `open` -/

variable {flags : Flags} {refusal : Option Errno}

/-- A path that leads to no file is created, if the flags and the kernel allow it. -/
theorem openFile_creat (h : fs.lookup path = none) (hcreat : flags.creat = true) :
    fs.openFile path flags none now = (.ok fs.next, fs.create path now) := by
  unfold openFile
  rw [h]
  exact if_pos hcreat

/-- The two ways to open a file: it was there, or it is created. -/
theorem openFile_ok_cases {t : FileSystem}
    (h : fs.openFile path flags refusal now = (.ok ino, t)) :
    refusal = none ∧
    ((fs.lookup path = some ino ∧ (flags.creat && flags.excl) = false ∧
      t = if flags.trunc then fs.update ino fun f => { f with content := [], mtime := now }
        else fs) ∨
    (fs.lookup path = none ∧ flags.creat = true ∧ ino = fs.next ∧ t = fs.create path now)) := by
  unfold openFile at h
  split at h
  next j hpath =>
    split at h
    next => cases h
    next hexcl =>
      refine ⟨rfl, .inl ?_⟩
      split at h
      next htrunc =>
        cases h
        exact ⟨hpath, by simpa using hexcl, by rw [if_pos htrunc]⟩
      next htrunc =>
        cases h
        exact ⟨hpath, by simpa using hexcl, by rw [if_neg htrunc]⟩
  next => cases h
  next hpath =>
    split at h
    next hcreat =>
      cases h
      exact ⟨rfl, .inr ⟨hpath, hcreat, rfl, rfl⟩⟩
    next => cases h
  next => cases h

/-- The path leads to the file that was opened, and the others lead where they led. -/
theorem openFile_ok {t : FileSystem}
    (h : fs.openFile path flags refusal now = (.ok ino, t)) :
    t.lookup path = some ino ∧ ∀ q i, fs.lookup q = some i → t.lookup q = some i := by
  obtain ⟨-, ⟨hpath, -, rfl⟩ | ⟨hpath, -, rfl, rfl⟩⟩ := openFile_ok_cases h
  · cases flags.trunc <;> exact ⟨hpath, fun q i hq => hq⟩
  · exact ⟨lookup_create_self rfl, fun q i hq => (lookup_create_of_some hpath hq).1⟩

/-- To open a file for reading changes nothing. -/
theorem openFile_rdonly : (fs.openFile path {} refusal now).2 = fs := by
  unfold openFile
  split <;> rfl

end FileSystem

end SisProg
