import SisProg.Mojbash.Scanner

/-!
# The main loop of mojbash

One iteration reads a line with `fgets`, splits it with `tokenize`, and exits, or
complains, or forks a child that executes the command. The model is of the parent:
what it does with the line buffer and with the array of tokens, and which calls of
`execute` its children make. `fork` succeeds. A child may take something from the input
as well, or not end; the module about whole runs says when.

Reading the line buffer before `fgets` has filled it, indexing an array of tokens
that is not live, and freeing one twice are undefined, and so is everything after.

* `loopBody_iterated`: what an iteration does depends on the words of the buffer.
-/

namespace SisProg.Mojbash

/-- `'\n'`. -/
def newline : UInt8 := 10

def maxLine : Nat := 1024

/-- What `fgets` reads when it may read `n` bytes: it stops after a newline. -/
def fgetsLine : Nat → Bytes → Bytes
  | 0, _ | _, [] => []
  | n + 1, b :: stdin => if b = newline then [b] else b :: fgetsLine n stdin

/-- The shell may wait for a child that does not end. -/
inductive Status
  | running
  | waiting
  | ended
  | undefined
deriving DecidableEq

/-- The state between two iterations; the line buffer is uninitialised at first. -/
structure Shell where
  stdin : Bytes
  buff : Option Bytes
  tokens : Tokens
  requests : Nat
  calls : List (Bytes × List Bytes)
  status : Status
deriving DecidableEq

namespace Shell

def undefined (s : Shell) : Shell := { s with status := .undefined }

/-- `free(tokens)`. -/
def free (s : Shell) : Shell :=
  match s.tokens with
  | .null => s
  | .live _ => { s with tokens := .freed }
  | .freed => s.undefined

/-- `fgets(buff, MAX_LINE, stdin)`. Its result is not looked at: at end of file the
buffer keeps what it had. -/
def fgets (s : Shell) : Shell :=
  if s.stdin = [] then s
  else
    let line := fgetsLine (maxLine - 1) s.stdin
    { s with buff := some (line ++ [0]), stdin := s.stdin.drop line.length }

/-- The child: `execute(cmd, tokens + 1, num_tokens - 1)`. What it takes from the input is
left to `waitpid`. -/
def execute (s : Shell) (buff cmd : Bytes) : Shell :=
  match s.tokens with
  | .live (_ :: args) => { s with calls := s.calls ++ [(cmd, args.map (stringAt buff))] }
  | _ => s.undefined

/-- The rest of an iteration, from `is_valid` on. -/
def dispatch (s : Shell) (buff cmd : Bytes) : Shell :=
  if !isValid cmd then s.free else (s.execute buff cmd).free

/-- The iteration after `tokenize`. -/
def react (s : Shell) (buff : Bytes) (numTokens : Nat) : Shell :=
  if numTokens = 0 then s.free
  else
    match s.tokens with
    | .live (cmd :: _) =>
      let cmd := stringAt buff cmd
      if cmd = cmdExit then
        -- after the message the iteration goes on
        if numTokens > 2 then s.free.dispatch buff cmd
        else { s.free with status := .ended }
      else s.dispatch buff cmd
    | _ => s.undefined

/-- The body of `while (1)`, for a child that ends and leaves the input alone. -/
def loopBody (alloc : Nat → Bool) (s : Shell) : Shell :=
  match s.status with
  | .running =>
    let s := s.fgets
    match s.buff with
    | none => s.undefined
    | some buff =>
      let t := tokenize alloc s.requests buff
      { s with buff := some t.buffer, tokens := t.tokens, requests := t.requests }.react
        t.buffer t.numTokens
  | _ => s

/-- `main` after `new_env`, with the given input. -/
def start (stdin : Bytes) : Shell :=
  { stdin, buff := none, tokens := .null, requests := 0, calls := [], status := .running }

end Shell

/-! ## What an iteration does -/

/-- How the shell reacts to a line with the given words. -/
inductive Reaction
  | ignore
  | call (cmd : Bytes) (args : List Bytes)
  | leave
  | crash
deriving DecidableEq

/-- The rejected `exit` frees its tokens twice. -/
def reaction : List Bytes → Reaction
  | [] => .ignore
  | cmd :: args =>
    if cmd = cmdExit then if (cmd :: args).length > 2 then .crash else .leave
    else if isValid cmd then .call cmd args
    else .ignore

/-- The call that a reaction makes. -/
def Reaction.calls : Reaction → List (Bytes × List Bytes)
  | .call cmd args => [(cmd, args)]
  | _ => []

def Reaction.status : Reaction → Status
  | .leave => .ended
  | .crash => .undefined
  | _ => .running

theorem free_live {s : Shell} {entries : List Nat} (h : s.tokens = .live entries) :
    s.free = { s with tokens := .freed } := by
  rw [Shell.free, h]

/-- An `exit`: it is accepted, or its tokens are freed a second time. -/
theorem react_exit {s : Shell} {buff : Bytes} {cmd : Nat} {args : List Nat}
    (ht : s.tokens = .live (cmd :: args)) (hcmd : stringAt buff cmd = cmdExit) :
    s.react buff (cmd :: args).length =
      { s with
        tokens := .freed
        status := if (cmd :: args).length > 2 then .undefined else .ended } := by
  unfold Shell.react
  rw [if_neg (by simp), ht]
  dsimp only
  rw [if_pos hcmd, hcmd, free_live ht]
  split
  next => rfl
  next => rfl

/-- A command is executed if it is a built-in one; either way its tokens are freed. -/
theorem react_command {s : Shell} {buff : Bytes} {cmd : Nat} {args : List Nat}
    (ht : s.tokens = .live (cmd :: args)) (hcmd : stringAt buff cmd ≠ cmdExit) :
    s.react buff (cmd :: args).length =
      { s with
        tokens := .freed
        calls := s.calls ++
          if isValid (stringAt buff cmd) then
            [(stringAt buff cmd, args.map (stringAt buff))]
          else [] } := by
  unfold Shell.react
  rw [if_neg (by simp), ht]
  dsimp only
  rw [if_neg hcmd, Shell.dispatch]
  cases hvalid : isValid (stringAt buff cmd) with
  | false =>
    show s.free = { s with tokens := .freed, calls := s.calls ++ [] }
    rw [free_live ht, List.append_nil]
  | true =>
    show (s.execute buff (stringAt buff cmd)).free = _
    unfold Shell.execute
    rw [ht]
    rfl

/-- What an iteration does after `tokenize`: it makes the call of the reaction, takes
on its status, and leaves the tokens freed. -/
theorem react_eq {s : Shell} (hs : s.status = .running) {buff : Bytes} {entries : List Nat}
    (ht : s.tokens = .live entries) :
    s.react buff entries.length =
      { s with
        tokens := .freed
        calls := s.calls ++ (reaction (entries.map (stringAt buff))).calls
        status := (reaction (entries.map (stringAt buff))).status } := by
  cases entries with
  | nil =>
    show s.free = { s with tokens := .freed, calls := s.calls ++ [], status := .running }
    rw [free_live ht, List.append_nil, ← hs]
  | cons cmd args =>
    rw [List.map_cons, reaction]
    by_cases hcmd : stringAt buff cmd = cmdExit
    · rw [react_exit ht hcmd, if_pos hcmd]
      have hlen : (stringAt buff cmd :: args.map (stringAt buff)).length =
          (cmd :: args).length := by simp
      rw [hlen]
      split <;> simp [Reaction.calls, Reaction.status]
    · rw [react_command ht hcmd, if_neg hcmd]
      split <;> simp [Reaction.calls, Reaction.status, hs]

/-- The state `t` after an iteration from `s` that has read up to `stdin` and has the
string `buff` in the line buffer when `tokenize` is called. -/
structure Iterated (s t : Shell) (stdin buff : Bytes) : Prop where
  stdin_eq : t.stdin = stdin
  buff_eq : ∃ b, t.buff = some b ∧ tokensOf b = (tokensOf buff).take 1
  calls_eq : t.calls = s.calls ++ (reaction (tokensOf buff)).calls
  status_eq : t.status = (reaction (tokensOf buff)).status

theorem fgets_calls (s : Shell) : s.fgets.calls = s.calls := by
  unfold Shell.fgets
  split <;> rfl

theorem fgets_status (s : Shell) : s.fgets.status = s.status := by
  unfold Shell.fgets
  split <;> rfl

/-- What an iteration does when memory does not run out: it depends on the words of
the line buffer, which `fgets` has filled or left as it was. -/
theorem loopBody_iterated {alloc : Nat → Bool} (h : ∀ i, alloc i = true) {s : Shell}
    (hs : s.status = .running) {buff : Bytes} (hb : s.fgets.buff = some buff) :
    Iterated s (s.loopBody alloc) s.fgets.stdin buff := by
  obtain ⟨entries, htok, hnum, hstr, hfirst⟩ := tokenize_spec h s.fgets.requests buff
  unfold Shell.loopBody
  rw [hs]
  dsimp only
  rw [hb]
  dsimp only
  rw [hnum, react_eq, hstr]
  · exact ⟨rfl, ⟨_, rfl, hfirst⟩, congrArg (· ++ _) (fgets_calls s), rfl⟩
  · exact (fgets_status s).trans hs
  · exact htok

/-- Without a line the buffer is never filled. -/
theorem loopBody_uninitialised (alloc : Nat → Bool) {s : Shell} (hs : s.status = .running)
    (hb : s.fgets.buff = none) : s.loopBody alloc = s.fgets.undefined := by
  unfold Shell.loopBody
  rw [hs]
  dsimp only
  rw [hb]

theorem loopBody_of_stopped (alloc : Nat → Bool) {s : Shell} (hs : s.status ≠ .running) :
    s.loopBody alloc = s := by
  unfold Shell.loopBody
  cases h : s.status with
  | running => exact absurd h hs
  | waiting | ended | undefined => rfl

end SisProg.Mojbash
