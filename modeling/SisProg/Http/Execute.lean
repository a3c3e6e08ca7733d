import SisProg.Http.HTTPRequest

/-!
# Running a program

`execute` runs a program with its standard output and its standard error on one
pipe, and returns what comes out of the pipe. What the kernel does is a parameter:
whether `pipe` and `fork` succeed, what the program writes, and how the reads cut
it. The exit status is collected by `waitpid`, and then ignored.
-/

namespace SisProg.Http

open Bytes (ascii)

/-- The result of a `read`. End of file is `data []`, or the end of the list of
results. -/
inductive Read
  | data (buf : Bytes)
  | error
deriving DecidableEq

def Read.bytes : Read → Bytes
  | .data buf => buf
  | .error => []

/-- What a program does that `execvp` has started: what it writes to its standard
output and its standard error, in this order, and its exit status. -/
structure Process where
  output : Bytes
  status : Nat
deriving DecidableEq

/-- The child between `fork` and the end: `execvp` fails with the given error text,
or the program runs. -/
inductive Execvp
  | failed (strerror : Bytes)
  | ran (process : Process)
deriving DecidableEq

/-- `perror("execvp"); _exit(EXIT_FAILURE)`, or the program. -/
def Execvp.process : Execvp → Process
  | .failed strerror => { output := ascii "execvp: " ++ strerror ++ ascii "\n", status := 1 }
  | .ran process => process

def maxline : Nat := 1024

/-- The child and the parent's reads from the pipe. Unless a read fails, they deliver
what the child wrote. -/
structure Child where
  execvp : Execvp
  reads : List Read
  sized : ∀ r ∈ reads, r ≠ .error → 0 < r.bytes.length ∧ r.bytes.length ≤ maxline - 1
  delivered : .error ∉ reads → reads.flatMap Read.bytes = execvp.process.output

/-- What happens when the server calls `execute`. -/
inductive Spawn
  | pipeFailure
  | forkFailure
  | forked (child : Child)

/-- `while ((nBytes = read(...)) > 0) output.append(buffer, nBytes)`, and the check
for an error after it. -/
def readOutput (output : Bytes) : List Read → Except Error Bytes
  | [] | .data [] :: _ => .ok output
  | .data buf :: reads => readOutput (output ++ buf) reads
  | .error :: _ => .error (.runtimeError (ascii "Read error"))

def execute : Spawn → Except Error Bytes
  | .pipeFailure => .error (.runtimeError (ascii "Pipe failure"))
  | .forkFailure => .error (.runtimeError (ascii "Fork failure"))
  | .forked child => readOutput [] child.reads

theorem readOutput_cons {output buf : Bytes} {reads : List Read} (h : buf ≠ []) :
    readOutput output (.data buf :: reads) = readOutput (output ++ buf) reads := by
  cases buf with
  | nil => exact absurd rfl h
  | cons b s => rfl

theorem readOutput_eq (output : Bytes) {reads : List Read}
    (h : ∀ r ∈ reads, r ≠ .error → 0 < r.bytes.length) :
    readOutput output reads =
      if .error ∈ reads then .error (.runtimeError (ascii "Read error"))
      else .ok (output ++ reads.flatMap Read.bytes) := by
  induction reads generalizing output with
  | nil => simp [readOutput]
  | cons r reads ih =>
    cases r with
    | error => simp [readOutput]
    | data buf =>
      have hbuf : buf ≠ [] := List.ne_nil_of_length_pos (h (.data buf) (by simp) (by simp))
      rw [readOutput_cons hbuf, ih _ fun r hr => h r (List.mem_cons_of_mem _ hr)]
      simp [Read.bytes]

theorem execute_forked_error {child : Child} (h : .error ∈ child.reads) :
    execute (.forked child) = .error (.runtimeError (ascii "Read error")) :=
  (readOutput_eq [] fun r hr hne => (child.sized r hr hne).1).trans (if_pos h)

/-- If no read fails, `execute` returns the whole output, whatever the exit status. -/
theorem execute_forked {child : Child} (h : .error ∉ child.reads) :
    execute (.forked child) = .ok child.execvp.process.output := by
  have hread : execute (.forked child) = _ :=
    readOutput_eq [] fun r hr hne => (child.sized r hr hne).1
  rw [hread, if_neg h, child.delivered h]
  rfl

/-- `execute` returns only the output of a child. -/
theorem execute_ok {spawn : Spawn} {output : Bytes} (h : execute spawn = .ok output) :
    ∃ child, spawn = .forked child ∧ .error ∉ child.reads ∧
      output = child.execvp.process.output := by
  cases spawn with
  | pipeFailure | forkFailure => cases h
  | forked child =>
    by_cases herr : Read.error ∈ child.reads
    · rw [execute_forked_error herr] at h
      cases h
    · rw [execute_forked herr] at h
      cases h
      exact ⟨child, rfl, herr, rfl⟩

end SisProg.Http
