import SisProg.Lib.FileSystem
import SisProg.Mojbash.Scanner

/-!
# mojcat

`mojcat` writes its operands to standard output, one after the other, or standard input
if it has none. It reads a file in blocks, whose sizes are up to the kernel. An operand
that cannot be opened, or a read that fails, is reported, and `mojcat` goes on with the
next operand. A read of standard input that fails is not reported.

* `mojcat_concatenates`: no block is dropped or repeated, wherever a read fails.
-/

namespace SisProg.Mojbash

open Bytes (ascii)

/-- `BUFFSIZE`. -/
def buffsize : Nat := 512

/-- The result of a `read`; `data []` is the end of the file. -/
inductive Read
  | data (buf : Bytes)
  | error (errno : Errno)
deriving DecidableEq

/-- How a file is read: in blocks, to its end or up to a read that fails. -/
structure Reading (content : Bytes) where
  blocks : List Bytes
  failure : Option Errno
  sized : ∀ b ∈ blocks, b ≠ [] ∧ b.length ≤ buffsize
  begun : blocks.flatten <+: content
  complete : failure = none → blocks.flatten = content

/-- The results of the calls of `read`. -/
def Reading.results {content : Bytes} (r : Reading content) : List Read :=
  r.blocks.map .data ++ [match r.failure with
    | none => .data []
    | some e => .error e]

/-- What the kernel does with the operand `fname`. -/
inductive Opened (fs : FileSystem) (fname : Bytes)
  | failed (e : Errno)
  | opened (ino : Nat) (found : fs.lookup fname = some ino)
    (reading : Reading (fs.file ino).content)

/-- An operand, with what the kernel does with it. -/
abbrev Operand (fs : FileSystem) := (fname : Bytes) × Opened fs fname

/-- What has been written to standard output and to standard error, and how many times
`write` was called. -/
structure Output where
  stdout : Bytes
  stderr : List Bytes
  writes : Nat
deriving DecidableEq

/-- The line `"%s: %s: %s\n"` of `print_error`, for `progname`. -/
def errorLine (arg msg : Bytes) : Bytes :=
  ascii "mojcat" ++ ascii ": " ++ arg ++ ascii ": " ++ msg ++ ascii "\n"

def Output.printError (out : Output) (arg msg : Bytes) : Output :=
  { out with stderr := out.stderr ++ [errorLine arg msg] }

variable (writeError : Nat → Option Errno) (strerror : Errno → Bytes)

/-- `while ((nread = read(fd, buffer, BUFFSIZE)) > 0)`. The result is the error of the last
`read`, if it failed. The call `i` of `write` fails with `writeError i`, or is complete. -/
def copyAll : List Read → Output → Option Errno × Output
  | [], out | .data [] :: _, out => (none, out)
  | .error e :: _, out => (some e, out)
  | .data buf :: reads, out =>
    match writeError out.writes with
    | some e =>
      (none, { out with writes := out.writes + 1 }.printError (ascii "write") (strerror e))
    | none => copyAll reads { out with stdout := out.stdout ++ buf, writes := out.writes + 1 }

/-- The message for an operand that cannot be opened. -/
def openMessage (e : Errno) : Bytes :=
  match e with
  | .enoent => ascii "No such file or directory"
  | .eisdir => ascii "Is a directory"
  | e => strerror e

/-- `while (*fnames)`. -/
def catFiles {fs : FileSystem} : List (Operand fs) → Output → Output
  | [], out => out
  | ⟨fname, .failed e⟩ :: fnames, out =>
    catFiles fnames (out.printError fname (openMessage strerror e))
  | ⟨fname, .opened _ _ reading⟩ :: fnames, out =>
    match copyAll writeError strerror reading.results out with
    | (none, out) => catFiles fnames out
    | (some e, out) => catFiles fnames (out.printError fname (strerror e))

def mojcat {fs : FileSystem} (fnames : List (Operand fs)) {stdin : Bytes} (reading : Reading stdin)
    (out : Output) : Output :=
  catFiles writeError strerror fnames
    (if fnames.isEmpty then (copyAll writeError strerror reading.results out).2 else out)

/-! ## What is written -/

/-- What an operand adds to the output: its content, or what was read of it. -/
def Operand.part {fs : FileSystem} : Operand fs → Bytes
  | ⟨_, .failed _⟩ => []
  | ⟨_, .opened ino _ reading⟩ =>
    match reading.failure with
    | none => (fs.file ino).content
    | some _ => reading.blocks.flatten

/-- The error line for an operand. -/
def Operand.error {fs : FileSystem} : Operand fs → Option Bytes
  | ⟨fname, .failed e⟩ => some (errorLine fname (openMessage strerror e))
  | ⟨fname, .opened _ _ reading⟩ => reading.failure.map fun e => errorLine fname (strerror e)

variable {writeError} {strerror}

/-- If no write fails, the blocks are written up to the result that ends the loop. -/
theorem copyAll_blocks (h : ∀ i, writeError i = none) {blocks : List Bytes}
    (hne : ∀ b ∈ blocks, b ≠ []) (last : Read) (out : Output) :
    copyAll writeError strerror (blocks.map .data ++ [last]) out =
      copyAll writeError strerror [last] { out with
        stdout := out.stdout ++ blocks.flatten, writes := out.writes + blocks.length } := by
  induction blocks generalizing out with
  | nil => simp
  | cons b blocks ih =>
    obtain ⟨c, buf, rfl⟩ := List.exists_cons_of_ne_nil (hne b List.mem_cons_self)
    rw [List.map_cons, List.cons_append, copyAll, h]
    · dsimp only
      rw [ih fun b hb => hne b (List.mem_cons_of_mem _ hb), List.flatten_cons, List.append_assoc,
        List.length_cons, Nat.add_right_comm, Nat.add_assoc]
    · exact List.cons_ne_nil c buf

/-- What was read has been written, and a read that failed is returned. -/
theorem copyAll_results (h : ∀ i, writeError i = none) {content : Bytes} (r : Reading content)
    (out : Output) :
    copyAll writeError strerror r.results out =
      (r.failure, { out with
        stdout := out.stdout ++ r.blocks.flatten, writes := out.writes + r.blocks.length }) := by
  unfold Reading.results
  rw [copyAll_blocks h fun b hb => (r.sized b hb).1]
  cases r.failure <;> rfl

theorem part_opened {fs : FileSystem} {fname : Bytes} {ino : Nat}
    (found : fs.lookup fname = some ino) (reading : Reading (fs.file ino).content) :
    Operand.part ⟨fname, .opened ino found reading⟩ = reading.blocks.flatten := by
  show (match reading.failure with
    | none => (fs.file ino).content
    | some _ => reading.blocks.flatten) = _
  cases hf : reading.failure with
  | none => exact (reading.complete hf).symm
  | some e => rfl

/-- The loop over the operands adds the part of each to the output, and reports each that
fails. The induction is on the operands. -/
theorem catFiles_eq (h : ∀ i, writeError i = none) {fs : FileSystem} (fnames : List (Operand fs))
    (out : Output) :
    (catFiles writeError strerror fnames out).stdout =
      out.stdout ++ fnames.flatMap Operand.part ∧
    (catFiles writeError strerror fnames out).stderr =
      out.stderr ++ fnames.filterMap (Operand.error strerror) := by
  induction fnames generalizing out with
  | nil => simp [catFiles]
  | cons operand fnames ih =>
    obtain ⟨fname, opened⟩ := operand
    cases opened with
    | failed e =>
      obtain ⟨hout, herr⟩ := ih (out.printError fname (openMessage strerror e))
      rw [catFiles, hout, herr]
      simp [Output.printError, Operand.part, Operand.error]
    | opened ino found reading =>
      rw [catFiles, copyAll_results h, List.flatMap_cons, part_opened]
      cases hf : reading.failure with
      | none =>
        obtain ⟨hout, herr⟩ := ih { out with
          stdout := out.stdout ++ reading.blocks.flatten
          writes := out.writes + reading.blocks.length }
        dsimp only
        rw [hout, herr]
        simp [Operand.error, hf]
      | some e =>
        obtain ⟨hout, herr⟩ := ih (Output.printError { out with
          stdout := out.stdout ++ reading.blocks.flatten
          writes := out.writes + reading.blocks.length } fname (strerror e))
        dsimp only
        rw [hout, herr]
        simp [Output.printError, Operand.error, hf]

/-- With operands, the output is their contents in order, as far as they could be read,
and there is one line for each that could not. Without, it is standard input. -/
theorem mojcat_concatenates (h : ∀ i, writeError i = none) {fs : FileSystem}
    (fnames : List (Operand fs)) {stdin : Bytes} (reading : Reading stdin) (out : Output) :
    (fnames ≠ [] →
      (mojcat writeError strerror fnames reading out).stdout =
        out.stdout ++ fnames.flatMap Operand.part ∧
      (mojcat writeError strerror fnames reading out).stderr =
        out.stderr ++ fnames.filterMap (Operand.error strerror)) ∧
    (fnames = [] →
      (mojcat writeError strerror fnames reading out).stderr = out.stderr ∧
      (reading.failure = none →
        (mojcat writeError strerror fnames reading out).stdout = out.stdout ++ stdin)) := by
  constructor
  · intro hne
    have hcat := @catFiles_eq _ strerror h fs fnames out
    unfold mojcat
    rwa [if_neg (by simpa using hne)]
  · rintro rfl
    unfold mojcat
    rw [if_pos List.isEmpty_nil, copyAll_results h]
    refine ⟨rfl, fun hf => ?_⟩
    show out.stdout ++ reading.blocks.flatten = _
    rw [reading.complete hf]

/-- One file, with two bytes. -/
def oneFile : FileSystem := .ofList [(ascii "f", ⟨ascii "ab", 0, 0⟩)]

/-- It is read in two blocks. -/
def twoBlocks : Reading (oneFile.file 0).content where
  blocks := [ascii "a", ascii "b"]
  failure := none
  sized := by decide
  begun := ⟨[], by decide⟩
  complete _ := by decide

/-- The second read fails. -/
def brokenOff : Reading (oneFile.file 0).content where
  blocks := [ascii "a"]
  failure := some (.other 5)
  sized := by decide
  begun := ⟨ascii "b", by decide⟩
  complete h := by cases h

theorem oneFile_lookup : oneFile.lookup (ascii "f") = some 0 := by decide

/-- `f g f f`, with no file `g`. -/
def someFail : List (Operand oneFile) :=
  [⟨ascii "f", .opened 0 oneFile_lookup twoBlocks⟩, ⟨ascii "g", .failed .enoent⟩,
    ⟨ascii "f", .opened 0 oneFile_lookup brokenOff⟩,
    ⟨ascii "f", .opened 0 oneFile_lookup twoBlocks⟩]

example :
    (mojcat (fun _ => none) (fun _ => ascii "Input/output error") someFail twoBlocks
      ⟨[], [], 0⟩).stdout = ascii "abaab" ∧
    (mojcat (fun _ => none) (fun _ => ascii "Input/output error") someFail twoBlocks
      ⟨[], [], 0⟩).stderr =
      [ascii "mojcat: g: No such file or directory\n",
        ascii "mojcat: f: Input/output error\n"] := by
  obtain ⟨hout, herr⟩ := (@mojcat_concatenates _ (fun _ => ascii "Input/output error")
    (fun _ => rfl) _ someFail _ twoBlocks ⟨[], [], 0⟩).1 (List.cons_ne_nil _ _)
  exact ⟨hout.trans (by decide), herr.trans (by decide)⟩

end SisProg.Mojbash
