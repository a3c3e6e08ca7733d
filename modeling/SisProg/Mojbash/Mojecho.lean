import SisProg.Lib.Descriptions
import SisProg.Mojbash.Execute

/-!
# mojecho

`mojecho` writes each of its strings and a space behind it, and a newline at the end. Its
calls of `write` are complete.

* `mojecho_eq`: all of it is one write.
* `tokensOf_echoed`: the scanner finds the strings in what has been written.
-/

namespace SisProg.Mojbash

open Bytes (ascii)

/-! ## Standard output -/

/-- What the shell and its children share: the files, what has been written to the terminal,
and what has been printed to standard error. -/
structure World where
  files : FileSystem
  terminal : Bytes
  stderr : List Bytes

/-- Where standard output goes: to the terminal, or to a file, at an offset. -/
inductive Stdout
  | terminal
  | file (ino offset : Nat)
deriving DecidableEq

/-- What the handler finds. The file has just been opened. -/
def Stdout.ofOpenFile : OpenFile → Stdout
  | .inherited _ => .terminal
  | .file ino _ => .file ino 0

/-- `write(STDOUT_FILENO, buf, n)`. -/
def write (now : Nat) (buf : Bytes) : World × Stdout → World × Stdout
  | (w, .terminal) => ({ w with terminal := w.terminal ++ buf }, .terminal)
  | (w, .file ino offset) =>
    ({ w with files := w.files.writeAt ino offset buf now }, .file ino (offset + buf.length))

/-- Two writes are one. -/
theorem write_write (now : Nat) (a b : Bytes) (out : World × Stdout) :
    write now b (write now a out) = write now (a ++ b) out := by
  obtain ⟨w, stdout⟩ := out
  cases stdout with
  | terminal => simp [write]
  | file ino offset =>
    simp only [write, FileSystem.writeAt_writeAt, List.length_append, Nat.add_assoc]

/-! ## The function -/

def mojecho (now : Nat) : List Bytes → World × Stdout → World × Stdout
  | [], out => write now (ascii "\n") out
  | s :: strings, out => mojecho now strings (write now (ascii " ") (write now s out))

/-- What is written for the strings. -/
def echoed (strings : List Bytes) : Bytes :=
  strings.flatMap (fun s => s ++ ascii " ") ++ ascii "\n"

theorem mojecho_eq (now : Nat) (strings : List Bytes) (out : World × Stdout) :
    mojecho now strings out = write now (echoed strings) out := by
  induction strings generalizing out with
  | nil => rfl
  | cons s strings ih =>
    rw [mojecho, ih, write_write, write_write]
    simp [echoed]

/-- A string that the scanner can return. -/
structure Token (s : Bytes) : Prop where
  nonempty : s ≠ []
  inToken : ∀ b ∈ s, inToken b = true

/-- What has been echoed is scanned to the same strings. -/
theorem tokensOf_echoed {strings : List Bytes} (h : ∀ s ∈ strings, Token s) :
    tokensOf (echoed strings) = strings := by
  induction strings with
  | nil => decide
  | cons s strings ih =>
    have hs := h s List.mem_cons_self
    have hrest := ih fun s' hs' => h s' (List.mem_cons_of_mem s hs')
    have hcons : echoed (s :: strings) = [] ++ s ++ 32 :: echoed strings := by
      simp [echoed, ascii]
    rw [hcons, tokensOf_token (by simp) hs.nonempty hs.inToken (by decide), hrest]

end SisProg.Mojbash
