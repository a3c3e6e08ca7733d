import Mathlib.Logic.Function.Iterate
import SisProg.Mojbash.Execute

/-!
# The shell and what was typed

The shell should execute the lines that were typed, up to an accepted `exit` or the
end of the input, and then stop. Four things are in the way:

* `main` does not look at the result of `fgets`. At end of file the buffer still holds
  the first word of the last line, and the shell executes that for ever
  (`last_command_repeated`).
* A line of `MAX_LINE` bytes or more arrives in pieces, and each piece is taken for a
  line.
* After an `exit` with too many arguments the tokens are freed twice.
* The children have the terminal of the shell. A `mojcat` that reads it takes the lines
  that follow.

`executes_typed_iff` says that nothing else is, and so when the shell does what it
should: for lines that come in one piece, or whose pieces are all ignored as they are,
the first `exit` has to be accepted, and no child before it may read the terminal
(`reads_iff`) or go on for ever.
-/

namespace SisProg.Mojbash

open Bytes (ascii)

/-! ## What was typed -/

/-- Calls of `execute`, in order. -/
abbrev Executed := List (Bytes × List Bytes)

/-- The input: each line with its newline. -/
def typed (lines : List Bytes) : Bytes := lines.flatMap (· ++ [newline])

/-- The call for a line with the given words, if the first is a built-in name. -/
def builtinCall : List Bytes → Option (Bytes × List Bytes)
  | [] => none
  | cmd :: args => if isValid cmd then some (cmd, args) else none

def isExit (ws : List Bytes) : Bool := ws.head? == some cmdExit

def acceptedExit (ws : List Bytes) : Bool := isExit ws && decide (ws.length ≤ 2)

/-- The calls that were typed: one for each command before the first accepted `exit`,
or the end. -/
def typedCalls (lines : List Bytes) : Executed :=
  ((lines.map (words isDelim)).takeWhile (!acceptedExit ·)).filterMap builtinCall

/-! ## The children -/

/-- What the children meet. The child of the last of some calls gets these answers, finds
these files, and ends or does not; `stdio` has then read so many bytes ahead of the shell
in its line. One of the files is the terminal. A child that reads it does so to the end,
and can write. -/
structure Surroundings where
  kernel : Executed → Kernel
  files : Executed → FileSystem
  tty : Nat
  ends : Executed → Bool
  ahead : Executed → Nat

namespace Surroundings

/-- Standard input is the terminal, as `main` has checked. -/
def isTty (e : Surroundings) : OpenFile → Bool
  | .inherited fd => fd == stdinFileno
  | .file ino _ => ino == e.tty

/-- `mojcat` reads its operands, or its standard input if it has none. The other
handlers read nothing. -/
def handlerReads (e : Surroundings) (files : FileSystem) (h : Handled) : Bool :=
  h.command == cmdCat &&
    if h.args = [] then h.stdin.any e.isTty
    else h.args.any fun name => files.lookup name == some e.tty

/-- The child of the last call reads the terminal. -/
def reads (e : Surroundings) (calls : Executed) : Bool :=
  match calls.getLast? with
  | none => false
  | some (cmd, args) =>
    let child := runChild (e.kernel calls) cmd args [] (.start (e.files calls) terminal [])
    child.handled.any (e.handlerReads (e.files calls))

/-- The child of the last call takes the next lines, or the shell waits for ever. -/
def Disturbs (e : Surroundings) (calls : Executed) : Prop :=
  e.ends calls = false ∨ e.reads calls = true

end Surroundings

/-- The line that `fgets` reads from, without what it has read. -/
def lineRest (stdin : Bytes) : Bytes := (fgetsLine stdin.length stdin).drop (maxLine - 1)

namespace Shell

/-- `waitpid`, for the child of the last call. When the child has read the terminal, only
what `stdio` has read ahead is still there. -/
def await (e : Surroundings) (line : Bytes) (s : Shell) : Shell :=
  if e.ends s.calls then
    if e.reads s.calls then { s with stdin := line.take (e.ahead s.calls) } else s
  else { s with status := .waiting }

/-- An iteration, with the child if there is one. -/
def iterate (alloc : Nat → Bool) (e : Surroundings) (s : Shell) : Shell :=
  let t := s.loopBody alloc
  if t.calls = s.calls then t else t.await e (lineRest s.stdin)

/-- The state after `k` iterations. -/
def run (alloc : Nat → Bool) (e : Surroundings) (s : Shell) (k : Nat) : Shell :=
  (iterate alloc e)^[k] s

end Shell

/-- The shell ends, and has made these calls. -/
def Ends (alloc : Nat → Bool) (e : Surroundings) (s : Shell) (calls : Executed) : Prop :=
  ∃ k, (s.run alloc e k).status = .ended ∧ (s.run alloc e k).calls = calls

/-- The shell ends, and the calls it has made are those that were typed. -/
def ExecutesTyped (alloc : Nat → Bool) (e : Surroundings) (lines : List Bytes) : Prop :=
  Ends alloc e (Shell.start (typed lines)) (typedCalls lines)

/-- Which children read the terminal: those of `mojcat`, if their redirections can be
made, when an operand is the terminal, or there is none and standard input stays or is
redirected to the terminal. -/
theorem reads_iff (e : Surroundings) (calls : Executed) {cmd : Bytes} {args : List Bytes}
    (hcmd : isValid cmd = true) (hnul : ∀ a ∈ args, 0 ∉ a) :
    e.reads (calls ++ [(cmd, args)]) = true ↔
      cmd = cmdCat ∧
      Honoured (e.kernel (calls ++ [(cmd, args)])) (e.files (calls ++ [(cmd, args)])) args ∧
      if stripped args = [] then
        ∀ path ∈ recorded .input args,
          (e.files (calls ++ [(cmd, args)])).lookup path = some e.tty
      else
        ∃ name ∈ stripped args, (e.files (calls ++ [(cmd, args)])).lookup name = some e.tty := by
  unfold Surroundings.reads
  rw [List.getLast?_concat]
  dsimp only
  generalize e.kernel (calls ++ [(cmd, args)]) = k
  generalize e.files (calls ++ [(cmd, args)]) = files
  by_cases hon : Honoured k files args
  · obtain ⟨after, hhandled, hbound, -⟩ := runChild_of_honoured hcmd hnul [] terminal [] hon
    have htty : e.isTty (after .input) = true ↔
        ∀ path ∈ recorded .input args, files.lookup path = some e.tty := by
      cases hpath : recorded .input args with
      | none =>
        rw [hpath] at hbound
        have hsame : after .input = .inherited stdinFileno := hbound
        simp [hsame, Surroundings.isTty]
      | some path =>
        rw [hpath] at hbound
        obtain ⟨ino, hino, hafter⟩ := hbound
        simp [hafter, hino, Surroundings.isTty]
    simp only [hhandled, Surroundings.handlerReads, List.any_cons, List.any_nil, Bool.or_false,
      Bool.and_eq_true, beq_iff_eq, Option.any_some, hon, true_and]
    split
    next => rw [htty]
    next => simp
  · have hnone := (runChild_of_not_honoured hcmd hnul [] terminal [] hon).1
    simp [hnone, hon]

/-! ## Lines in pieces -/

/-- What the `i`-th `fgets` reads of a line. -/
def piece (l : Bytes) (i : Nat) : Bytes := (l.drop (i * (maxLine - 1))).take (maxLine - 1)

/-- All words of the line are in one of its pieces. -/
def Intact (l : Bytes) : Prop := ∃ i, ∀ j ≠ i, ∀ b ∈ piece l j, isDelim b = true

/-- The line is ignored, and so are its pieces. -/
def Ignored (l : Bytes) : Prop :=
  reaction (words isDelim l) = .ignore ∧ ∀ i, reaction (words isDelim (piece l i)) = .ignore

/-- It makes no difference that the line is read in pieces. -/
def Whole (l : Bytes) : Prop := Intact l ∨ Ignored l

/-- What is left of the input when a piece of the line has been read. -/
def pieceRest (l rest : Bytes) : Bytes :=
  if l.length < maxLine - 1 then rest else l.drop (maxLine - 1) ++ newline :: rest

theorem piece_drop (l : Bytes) (i : Nat) : piece (l.drop (maxLine - 1)) i = piece l (i + 1) := by
  unfold piece
  rw [List.drop_drop, Nat.succ_mul, Nat.add_comm]

theorem piece_zero_append (l : Bytes) : piece l 0 ++ l.drop (maxLine - 1) = l := by
  simp [piece]

theorem piece_eq_nil {l : Bytes} (hl : l.length ≤ maxLine - 1) (i : Nat) :
    piece l (i + 1) = [] := by
  rw [← piece_drop, List.drop_eq_nil_of_le hl]
  simp [piece]

/-- A line with fewer than `MAX_LINE` bytes is read in one piece. -/
theorem intact_of_short {l : Bytes} (hl : l.length < maxLine) : Intact l := by
  refine ⟨0, ?_⟩
  intro j hj b hb
  obtain ⟨i, rfl⟩ := Nat.exists_eq_succ_of_ne_zero hj
  rw [piece_eq_nil (Nat.le_sub_one_of_lt hl)] at hb
  cases hb

theorem length_drop_lt {l : Bytes} (h : l ≠ []) : (l.drop (maxLine - 1)).length < l.length := by
  rw [List.length_drop]
  exact Nat.sub_lt (List.length_pos_of_ne_nil h) (by decide)

/-- Every byte of a line is in a piece. -/
theorem mem_piece {l : Bytes} {b : UInt8} (hb : b ∈ l) : ∃ i, b ∈ piece l i := by
  induction hn : l.length using Nat.strong_induction_on generalizing l with
  | _ n ih =>
    have hlen := length_drop_lt (List.ne_nil_of_mem hb)
    rw [← piece_zero_append l] at hb
    rcases List.mem_append.mp hb with hb | hb
    · exact ⟨0, hb⟩
    · obtain ⟨i, hi⟩ := ih _ (hn ▸ hlen) hb rfl
      exact ⟨i + 1, by rwa [← piece_drop]⟩

theorem mem_of_mem_piece {l : Bytes} {b : UInt8} {i : Nat} (hb : b ∈ piece l i) : b ∈ l :=
  List.mem_of_mem_drop (List.mem_of_mem_take hb)

/-- If the pieces after the first are blank, then so is the line behind the first. -/
theorem drop_blank {l : Bytes} (h : ∀ j ≠ 0, ∀ b ∈ piece l j, isDelim b = true) :
    ∀ b ∈ l.drop (maxLine - 1), isDelim b = true := by
  intro b hb
  obtain ⟨i, hi⟩ := mem_piece hb
  rw [piece_drop] at hi
  exact h (i + 1) (Nat.succ_ne_zero i) b hi

theorem words_of_drop_blank {l : Bytes} (h : ∀ b ∈ l.drop (maxLine - 1), isDelim b = true) :
    words isDelim (piece l 0) = words isDelim l := by
  conv_rhs => rw [← piece_zero_append l]
  rw [words_append_seps_right h]

theorem words_of_piece_blank {l : Bytes} (h : ∀ b ∈ piece l 0, isDelim b = true) :
    words isDelim (l.drop (maxLine - 1)) = words isDelim l := by
  conv_rhs => rw [← piece_zero_append l]
  rw [words_append_seps h]

/-- The other pieces are blank if one has as much besides blanks as the line. -/
theorem blank_of_filter {l : Bytes} {i : Nat}
    (h : (piece l i).filter (!isDelim ·) = l.filter (!isDelim ·)) :
    ∀ j ≠ i, ∀ b ∈ piece l j, isDelim b = true := by
  have hsplit : l.filter (!isDelim ·) =
      (piece l 0).filter (!isDelim ·) ++ (l.drop (maxLine - 1)).filter (!isDelim ·) := by
    rw [← List.filter_append, piece_zero_append]
  have hblank : ∀ {s : Bytes}, s.filter (!isDelim ·) = [] → ∀ b ∈ s, isDelim b = true := by
    intro s hs b hb
    simpa using List.filter_eq_nil_iff.mp hs b hb
  induction i generalizing l with
  | zero =>
    rw [hsplit, List.self_eq_append_right] at h
    intro j hj b hb
    obtain ⟨j, rfl⟩ := Nat.exists_eq_succ_of_ne_zero hj
    rw [← piece_drop] at hb
    exact hblank h b (mem_of_mem_piece hb)
  | succ i ih =>
    rw [← piece_drop] at h
    have hle : ((piece (l.drop (maxLine - 1)) i).filter (!isDelim ·)).length ≤
        ((l.drop (maxLine - 1)).filter (!isDelim ·)).length :=
      (((List.take_sublist _ _).trans (List.drop_sublist _ _)).filter _).length_le
    have hzero : (piece l 0).filter (!isDelim ·) = [] := by
      rw [h, hsplit, List.length_append] at hle
      exact List.length_eq_zero_iff.mp (by omega)
    rw [hsplit, hzero, List.nil_append] at h
    intro j hj b hb
    cases j with
    | zero => exact hblank hzero b hb
    | succ j =>
      rw [← piece_drop] at hb
      refine ih h ?_ j (fun heq => hj (congrArg Nat.succ heq)) b hb
      rw [← List.filter_append, piece_zero_append]

theorem intact_of_words {l : Bytes} {i : Nat} (h : words isDelim (piece l i) = words isDelim l) :
    Intact l := by
  refine ⟨i, blank_of_filter ?_⟩
  rw [← (words_spec (piece l i)).2, ← (words_spec l).2, h]

theorem reaction_blank {s : Bytes} (h : ∀ b ∈ s, isDelim b = true) :
    reaction (words isDelim s) = .ignore := by
  rw [words_eq_nil h]
  rfl

/-! ## What an iteration reads -/

theorem isDelim_newline : ∀ b ∈ [newline], isDelim b = true := by
  simp [newline, isDelim, whitespace]

theorem fgetsLine_append {l : Bytes} (hl : newline ∉ l) (n : Nat) (rest : Bytes) :
    fgetsLine n (l ++ newline :: rest) = (l ++ [newline]).take n := by
  induction l generalizing n with
  | nil => cases n <;> simp [fgetsLine]
  | cons b l ih =>
    simp only [List.mem_cons, not_or] at hl
    cases n with
    | zero => rfl
    | succ n =>
      rw [List.cons_append, fgetsLine, if_neg (Ne.symm hl.1), ih hl.2]
      rfl

theorem lineRest_append {l : Bytes} (hl : newline ∉ l) (rest : Bytes) :
    lineRest (l ++ newline :: rest) = (l ++ [newline]).drop (maxLine - 1) := by
  unfold lineRest
  rw [fgetsLine_append hl, List.take_of_length_le (by simp)]

/-- The shell is about to read what is left of a line. -/
structure AtLine (s : Shell) (l rest : Bytes) : Prop where
  status : s.status = .running
  stdin : s.stdin = l ++ newline :: rest
  newline : newline ∉ l
  nul : 0 ∉ l

/-- What `tokenize` gets is the first piece of the line. -/
theorem fgets_piece {s : Shell} {l rest : Bytes} (hs : AtLine s l rest) :
    s.fgets.stdin = pieceRest l rest ∧
    ∃ buff, s.fgets.buff = some buff ∧ tokensOf buff = words isDelim (piece l 0) := by
  have hne : s.stdin ≠ [] := by simp [hs.stdin]
  have hfgets : s.fgets = { s with
      buff := some (fgetsLine (maxLine - 1) s.stdin ++ [0])
      stdin := s.stdin.drop (fgetsLine (maxLine - 1) s.stdin).length } := if_neg hne
  rw [hfgets, hs.stdin, fgetsLine_append hs.newline]
  have hnul : ∀ b ∈ (l ++ [newline]).take (maxLine - 1), b ≠ 0 := by
    intro b hb hb0
    subst hb0
    rcases List.mem_append.mp (List.mem_of_mem_take hb) with hb | hb
    · exact hs.nul hb
    · revert hb
      decide
  have hcstr : Bytes.cstr ((l ++ [newline]).take (maxLine - 1) ++ [0]) =
      (l ++ [newline]).take (maxLine - 1) := by
    rw [Bytes.cstr_append hnul]
    simp [Bytes.cstr]
  refine ⟨?_, _, rfl, ?_⟩
  · unfold pieceRest
    split
    next hlen =>
      have htake : (l ++ [newline]).take (maxLine - 1) = l ++ [newline] :=
        List.take_of_length_le (by simpa using Nat.succ_le_of_lt hlen)
      rw [htake, show l ++ newline :: rest = (l ++ [newline]) ++ rest by simp,
        List.drop_left]
    next hlen =>
      have hle : maxLine - 1 ≤ l.length := Nat.not_lt.mp hlen
      rw [List.take_append_of_le_length hle, List.length_take, min_eq_left hle,
        List.drop_append_of_le_length hle]
  · unfold tokensOf
    rw [hcstr]
    by_cases hlen : l.length < maxLine - 1
    · have htake : (l ++ [newline]).take (maxLine - 1) = l ++ [newline] :=
        List.take_of_length_le (by simpa using Nat.succ_le_of_lt hlen)
      have hpiece : piece l 0 = l := by
        simpa [piece] using hlen.le
      rw [htake, hpiece, words_append_seps_right isDelim_newline]
    · rw [List.take_append_of_le_length (Nat.not_lt.mp hlen)]
      simp [piece]

/-! ## What an iteration does -/

/-- The words that are in the buffer after a line which is no `exit`. -/
def Stale (ws : List Bytes) : Prop := ws.length ≤ 1 ∧ isExit ws = false

theorem status_reaction {ws : List Bytes} (h : isExit ws = false) :
    (reaction ws).status = .running := by
  cases ws with
  | nil => rfl
  | cons cmd args =>
    have hcmd : cmd ≠ cmdExit := by simpa [isExit] using h
    rw [reaction, if_neg hcmd]
    split <;> rfl

theorem isExit_of_status {ws : List Bytes} (h : (reaction ws).status = .running) :
    isExit ws = false := by
  cases ws with
  | nil => rfl
  | cons cmd args =>
    by_cases hcmd : cmd = cmdExit
    · rw [reaction, if_pos hcmd] at h
      split at h <;> cases h
    · simpa [isExit] using hcmd

theorem stale_take {ws : List Bytes} (h : isExit ws = false) : Stale (ws.take 1) := by
  refine ⟨List.length_take_le 1 ws, ?_⟩
  cases ws with
  | nil => rfl
  | cons cmd args => exact h

/-- What is in the buffer, if anything, is no `exit`. -/
def NoExitLeft (s : Shell) : Prop := ∀ b, s.buff = some b → Stale (tokensOf b)

theorem noExitLeft_of_iterated {s t : Shell} {stdin buff : Bytes} (h : Iterated s t stdin buff)
    (hb : isExit (tokensOf buff) = false) : NoExitLeft t := by
  intro b hbuff
  obtain ⟨b', hb', hfirst⟩ := h.buff_eq
  obtain rfl : b' = b := by simpa [hb'] using hbuff
  rw [hfirst]
  exact stale_take hb

/-- The shell goes on as the reaction says, with its input. -/
structure GoesOn (e : Surroundings) (t : Shell) (stdin : Bytes) (r : Reaction) : Prop where
  undisturbed : r.calls = [] ∨ ¬ e.Disturbs t.calls
  status : t.status = r.status
  stdin : t.stdin = stdin

/-- It waits for ever, or the child has left only a part of the line. -/
structure Disturbed (e : Surroundings) (t : Shell) (line : Bytes) (r : Reaction) : Prop where
  disturbs : r.calls ≠ [] ∧ e.Disturbs t.calls
  left : t.status = .waiting ∨ t.status = .running ∧ t.stdin <+: line

/-- The state `t` after an iteration with the words `ws` in the buffer, from a line with
this rest. -/
structure Went (e : Surroundings) (s t : Shell) (stdin line : Bytes) (ws : List Bytes) :
    Prop where
  calls : t.calls = s.calls ++ (reaction ws).calls
  left : isExit ws = false → NoExitLeft t
  input : GoesOn e t stdin (reaction ws) ∨ Disturbed e t line (reaction ws)

theorem await_cases (e : Surroundings) (line : Bytes) (s : Shell) :
    (¬ e.Disturbs s.calls ∧ s.await e line = s) ∨
    (e.Disturbs s.calls ∧ ∃ status stdin, s.await e line = { s with status, stdin } ∧
      (status = .waiting ∨ status = s.status ∧ stdin <+: line)) := by
  unfold Shell.await Surroundings.Disturbs
  cases hends : e.ends s.calls with
  | false => exact .inr ⟨.inl rfl, .waiting, s.stdin, rfl, .inl rfl⟩
  | true =>
    cases hreads : e.reads s.calls with
    | false => exact .inl ⟨by simp, rfl⟩
    | true =>
      exact .inr ⟨.inr rfl, s.status, line.take (e.ahead s.calls), rfl,
        .inr ⟨rfl, List.take_prefix _ _⟩⟩

theorem status_of_calls {r : Reaction} (h : r.calls ≠ []) : r.status = .running := by
  cases r with
  | call cmd args => rfl
  | ignore | leave | crash => exact absurd rfl h

theorem iterate_went {alloc : Nat → Bool} (h : ∀ i, alloc i = true) (e : Surroundings)
    {s : Shell} (hs : s.status = .running) {buff : Bytes} (hb : s.fgets.buff = some buff) :
    Went e s (s.iterate alloc e) s.fgets.stdin (lineRest s.stdin) (tokensOf buff) := by
  have hit := loopBody_iterated h hs hb
  unfold Shell.iterate
  dsimp only
  split
  next heq =>
    have hnone : (reaction (tokensOf buff)).calls = [] := by
      rw [hit.calls_eq] at heq
      simpa using heq
    exact ⟨hit.calls_eq, noExitLeft_of_iterated hit, .inl ⟨.inl hnone, hit.status_eq, hit.stdin_eq⟩⟩
  next hne =>
    have hsome : (reaction (tokensOf buff)).calls ≠ [] := by
      intro hnil
      rw [hit.calls_eq, hnil, List.append_nil] at hne
      exact hne rfl
    rcases await_cases e (lineRest s.stdin) (s.loopBody alloc) with
      ⟨hno, heq⟩ | ⟨hdist, status, stdin, heq, hleft⟩
    · rw [heq]
      exact ⟨hit.calls_eq, noExitLeft_of_iterated hit, .inl ⟨.inr hno, hit.status_eq, hit.stdin_eq⟩⟩
    · rw [hit.status_eq, status_of_calls hsome] at hleft
      rw [heq]
      refine ⟨hit.calls_eq, ?_, .inr ⟨⟨hsome, hdist⟩, hleft⟩⟩
      exact fun hexit b hbuff => noExitLeft_of_iterated hit hexit b hbuff

theorem iterate_of_stopped (alloc : Nat → Bool) (e : Surroundings) {s : Shell}
    (hs : s.status ≠ .running) : s.iterate alloc e = s := by
  unfold Shell.iterate
  rw [loopBody_of_stopped alloc hs]
  exact if_pos rfl

theorem iterate_uninitialised (alloc : Nat → Bool) (e : Surroundings) {s : Shell}
    (hs : s.status = .running) (hb : s.fgets.buff = none) :
    s.iterate alloc e = s.fgets.undefined := by
  unfold Shell.iterate
  rw [loopBody_uninitialised alloc hs hb]
  exact if_pos (fgets_calls s)

/-- The iteration that reads the first piece of what is left of a line. -/
theorem iterate_piece {alloc : Nat → Bool} (h : ∀ i, alloc i = true) (e : Surroundings)
    {s : Shell} {l rest : Bytes} (hs : AtLine s l rest) :
    Went e s (s.iterate alloc e) (pieceRest l rest) ((l ++ [newline]).drop (maxLine - 1))
      (words isDelim (piece l 0)) := by
  obtain ⟨hstdin, buff, hb, hwords⟩ := fgets_piece hs
  have hwent := iterate_went h e hs.status hb
  rwa [hstdin, hwords, hs.stdin, lineRest_append hs.newline] at hwent

/-! ## Runs -/

theorem run_add (alloc : Nat → Bool) (e : Surroundings) (s : Shell) (m k : Nat) :
    (s.run alloc e m).run alloc e k = s.run alloc e (k + m) :=
  (Function.iterate_add_apply _ k m s).symm

theorem run_of_stopped (alloc : Nat → Bool) (e : Surroundings) {s : Shell}
    (hs : s.status ≠ .running) (k : Nat) : s.run alloc e k = s :=
  Function.iterate_fixed (iterate_of_stopped alloc e hs) k

/-- Whether a shell ends with some calls can be asked at any time of its run. -/
theorem ends_run_iff (alloc : Nat → Bool) (e : Surroundings) {s : Shell} {calls : Executed}
    (m : Nat) : Ends alloc e (s.run alloc e m) calls ↔ Ends alloc e s calls := by
  constructor
  · rintro ⟨k, hk⟩
    rw [run_add] at hk
    exact ⟨k + m, hk⟩
  · rintro ⟨k, hk⟩
    refine ⟨k, ?_⟩
    have hstop : (s.run alloc e k).status ≠ .running := by
      rw [hk.1]
      simp
    rwa [run_add, Nat.add_comm, ← run_add, run_of_stopped alloc e hstop]

/-- What `fgets` has to read is blank, and so the shell can no longer end. -/
structure Exhausted (s : Shell) : Prop where
  status : s.status ≠ .ended
  blank : s.status = .running → (∀ b ∈ s.stdin, isDelim b = true) ∧ NoExitLeft s

theorem exhausted_of_stopped {s : Shell} (hs : s.status ≠ .running) (he : s.status ≠ .ended) :
    Exhausted s :=
  ⟨he, fun hrun => absurd hrun hs⟩

/-- A child that disturbs leaves only blanks, if nothing else is left of the line. -/
theorem exhausted_of_disturbed {e : Surroundings} {t : Shell} {line : Bytes} {r : Reaction}
    (h : Disturbed e t line r) (hblank : ∀ b ∈ line, isDelim b = true) (hleft : NoExitLeft t) :
    Exhausted t := by
  rcases h.left with hwait | ⟨hrun, hfront⟩
  · exact exhausted_of_stopped (by simp [hwait]) (by simp [hwait])
  · exact ⟨by simp [hrun], fun _ => ⟨fun b hmem => hblank b (hfront.subset hmem), hleft⟩⟩

theorem fgetsLine_prefix_stdin (n : Nat) (stdin : Bytes) : fgetsLine n stdin <+: stdin := by
  induction n generalizing stdin with
  | zero => exact List.nil_prefix
  | succ n ih =>
    cases stdin with
    | nil => exact List.nil_prefix
    | cons b stdin =>
      rw [fgetsLine]
      split
      · exact ⟨stdin, rfl⟩
      · exact (List.prefix_cons_inj b).mpr (ih stdin)

/-- A blank line, or none, leaves no `exit` in the buffer. -/
theorem fgets_blank {s : Shell} (hblank : ∀ b ∈ s.stdin, isDelim b = true)
    (hleft : NoExitLeft s) {buff : Bytes} (hb : s.fgets.buff = some buff) :
    isExit (tokensOf buff) = false := by
  unfold Shell.fgets at hb
  split at hb
  next => exact (hleft buff hb).2
  next =>
    obtain rfl := Option.some.inj hb
    have hline : ∀ b ∈ fgetsLine (maxLine - 1) s.stdin, isDelim b = true :=
      fun b hmem => hblank b ((fgetsLine_prefix_stdin _ _).subset hmem)
    unfold tokensOf
    rw [Bytes.cstr_append fun b hmem => ne_zero_of_isDelim (hline b hmem)]
    rw [words_append_seps hline]
    rfl

theorem fgets_stdin_suffix (s : Shell) : s.fgets.stdin <:+ s.stdin := by
  unfold Shell.fgets
  split
  next => exact List.suffix_rfl
  next => exact List.drop_suffix _ _

theorem exhausted_iterate {alloc : Nat → Bool} (h : ∀ i, alloc i = true) (e : Surroundings)
    {s : Shell} (hs : Exhausted s) : Exhausted (s.iterate alloc e) := by
  by_cases hrun : s.status = .running
  · obtain ⟨hblank, hleft⟩ := hs.blank hrun
    cases hb : s.fgets.buff with
    | none =>
      rw [iterate_uninitialised alloc e hrun hb]
      exact exhausted_of_stopped (by simp [Shell.undefined]) (by simp [Shell.undefined])
    | some buff =>
      have hexit := fgets_blank hblank hleft hb
      have hwent := iterate_went h e hrun hb
      rcases hwent.input with hon | hdist
      · refine ⟨by rw [hon.status, status_reaction hexit]; simp, fun _ => ⟨?_, hwent.left hexit⟩⟩
        rw [hon.stdin]
        exact fun b hmem => hblank b ((fgets_stdin_suffix s).subset hmem)
      · refine exhausted_of_disturbed hdist ?_ (hwent.left hexit)
        intro b hmem
        exact hblank b ((fgetsLine_prefix_stdin _ _).subset (List.mem_of_mem_drop hmem))
  · rwa [iterate_of_stopped alloc e hrun]

/-- A shell that gets to the end of what was typed never ends. -/
theorem not_ends_of_exhausted {alloc : Nat → Bool} (h : ∀ i, alloc i = true) (e : Surroundings)
    {s : Shell} (hs : Exhausted s) (calls : Executed) : ¬ Ends alloc e s calls := by
  rintro ⟨k, hk, -⟩
  have hrun : Exhausted (s.run alloc e k) := by
    clear hk
    induction k generalizing s with
    | zero => exact hs
    | succ k ih => exact ih (exhausted_iterate h e hs)
  exact hrun.status hk

/-! ## A line -/

/-- The shell has read the line and made these calls. -/
structure Next (s t : Shell) (rest : Bytes) (calls : Executed) : Prop where
  status : t.status = .running
  stdin : t.stdin = rest
  calls : t.calls = s.calls ++ calls
  left : NoExitLeft t

/-- The shell after an ignored piece, at the next one or behind the line. -/
theorem iterate_ignored {alloc : Nat → Bool} (h : ∀ i, alloc i = true) (e : Surroundings)
    {s : Shell} {l rest : Bytes} (hs : AtLine s l rest)
    (hp : reaction (words isDelim (piece l 0)) = .ignore) :
    Next s (s.iterate alloc e) (pieceRest l rest) [] := by
  have hwent := iterate_piece h e hs
  have hcalls := hwent.calls
  have hinput := hwent.input
  have hexit : isExit (words isDelim (piece l 0)) = false :=
    isExit_of_status (by rw [hp]; rfl)
  rw [hp] at hcalls hinput
  rcases hinput with hon | hdist
  · exact ⟨hon.status, hon.stdin, hcalls, hwent.left hexit⟩
  · exact absurd rfl hdist.disturbs.1

theorem atLine_of_next {s t : Shell} {l rest : Bytes} {calls : Executed} (hs : AtLine s l rest)
    (hlen : ¬ l.length < maxLine - 1) (ht : Next s t (pieceRest l rest) calls) :
    AtLine t (l.drop (maxLine - 1)) rest where
  status := ht.status
  stdin := by rw [ht.stdin, pieceRest, if_neg hlen]
  newline hmem := hs.newline (List.mem_of_mem_drop hmem)
  nul hmem := hs.nul (List.mem_of_mem_drop hmem)

theorem Next.trans {s t u : Shell} {stdin rest : Bytes} {calls calls' : Executed}
    (h : Next s t stdin calls) (h' : Next t u rest calls') :
    Next s u rest (calls ++ calls') :=
  ⟨h'.status, h'.stdin, by rw [h'.calls, h.calls, List.append_assoc], h'.left⟩

/-- A line whose pieces are all ignored. -/
theorem run_ignored {alloc : Nat → Bool} (h : ∀ i, alloc i = true) (e : Surroundings)
    {s : Shell} {l rest : Bytes} (hs : AtLine s l rest)
    (hl : ∀ i, reaction (words isDelim (piece l i)) = .ignore) :
    ∃ k, Next s (s.run alloc e k) rest [] := by
  induction hn : l.length using Nat.strong_induction_on generalizing s l with
  | _ n ih =>
    have hnext := iterate_ignored h e hs (hl 0)
    by_cases hlen : l.length < maxLine - 1
    · rw [pieceRest, if_pos hlen] at hnext
      exact ⟨1, hnext⟩
    · have hne : l ≠ [] := by
        rintro rfl
        exact hlen (by decide)
      obtain ⟨k, hk⟩ := ih _ (hn ▸ length_drop_lt hne) (atLine_of_next hs hlen hnext)
        (fun i => by rw [piece_drop]; exact hl (i + 1)) rfl
      exact ⟨k + 1, hnext.trans hk⟩

/-- What becomes of a line, by the reaction to its words. -/
def Outcome (e : Surroundings) (s t : Shell) (rest : Bytes) : Reaction → Prop
  | .ignore => Next s t rest []
  | .call cmd args =>
    ¬ e.Disturbs (s.calls ++ [(cmd, args)]) ∧ Next s t rest [(cmd, args)] ∨
    e.Disturbs (s.calls ++ [(cmd, args)]) ∧ Exhausted t
  | .leave => t.status = .ended ∧ t.calls = s.calls
  | .crash => Exhausted t

/-- A piece that has nothing but blanks behind it. -/
theorem iterate_outcome {alloc : Nat → Bool} (h : ∀ i, alloc i = true) (e : Surroundings)
    {s : Shell} {l rest : Bytes} (hs : AtLine s l rest)
    (hblank : ∀ b ∈ l.drop (maxLine - 1), isDelim b = true) :
    Outcome e s (s.iterate alloc e) (pieceRest l rest) (reaction (words isDelim (piece l 0))) := by
  have hwent := iterate_piece h e hs
  have hcalls := hwent.calls
  have hinput := hwent.input
  have hleft : (reaction (words isDelim (piece l 0))).status = .running →
      NoExitLeft (s.iterate alloc e) := fun hrun => hwent.left (isExit_of_status hrun)
  generalize reaction (words isDelim (piece l 0)) = r at hcalls hinput hleft
  rcases hinput with hon | hdist
  · cases r with
    | ignore => exact ⟨hon.status, hon.stdin, hcalls, hleft rfl⟩
    | call cmd args =>
      have hno := hon.undisturbed.resolve_left (by simp [Reaction.calls])
      rw [hcalls] at hno
      exact .inl ⟨hno, hon.status, hon.stdin, hcalls, hleft rfl⟩
    | leave => exact ⟨hon.status, hcalls.trans (List.append_nil _)⟩
    | crash =>
      have hstatus : (s.iterate alloc e).status = .undefined := hon.status
      exact exhausted_of_stopped (by simp [hstatus]) (by simp [hstatus])
  · cases r with
    | ignore | leave | crash => exact absurd rfl hdist.disturbs.1
    | call cmd args =>
      refine .inr ⟨hcalls ▸ hdist.disturbs.2, exhausted_of_disturbed hdist ?_ (hleft rfl)⟩
      intro b hmem
      rw [List.drop_append, List.mem_append] at hmem
      rcases hmem with hmem | hmem
      · exact hblank b hmem
      · exact isDelim_newline b (List.mem_of_mem_drop hmem)

/-- Ignored pieces before a line do not matter. -/
theorem outcome_of_next {e : Surroundings} {s t u : Shell} {stdin rest : Bytes} {r : Reaction}
    (h : Next s t stdin []) (ht : Outcome e t u rest r) : Outcome e s u rest r := by
  have hcalls : t.calls = s.calls := h.calls.trans (List.append_nil _)
  cases r with
  | ignore => exact h.trans ht
  | call cmd args =>
    rcases ht with ⟨hno, hnext⟩ | ⟨hdist, hexh⟩
    · exact .inl ⟨hcalls ▸ hno, h.trans hnext⟩
    · exact .inr ⟨hcalls ▸ hdist, hexh⟩
  | leave => exact ⟨ht.1, ht.2.trans hcalls⟩
  | crash => exact ht

/-- Nor do ignored pieces behind it. -/
theorem outcome_run (alloc : Nat → Bool) {e : Surroundings} {s t : Shell} {stdin rest : Bytes}
    {r : Reaction} (h : Outcome e s t stdin r)
    (hrest : ∀ calls, Next s t stdin calls → ∃ k, Next t (t.run alloc e k) rest []) :
    ∃ k, Outcome e s (t.run alloc e k) rest r := by
  have hnext : ∀ {calls}, Next s t stdin calls → ∃ k, Next s (t.run alloc e k) rest calls := by
    intro calls hcalls
    obtain ⟨k, hk⟩ := hrest calls hcalls
    have htrans := hcalls.trans hk
    rw [List.append_nil] at htrans
    exact ⟨k, htrans⟩
  cases r with
  | ignore => exact hnext h
  | call cmd args =>
    rcases h with ⟨hno, hcall⟩ | hdist
    · obtain ⟨k, hk⟩ := hnext hcall
      exact ⟨k, .inl ⟨hno, hk⟩⟩
    · exact ⟨0, .inr hdist⟩
  | leave | crash => exact ⟨0, h⟩

/-- A line with all its words in one piece. The induction is on the number of that
piece: the pieces before it are ignored. -/
theorem run_intact {alloc : Nat → Bool} (h : ∀ i, alloc i = true) (e : Surroundings)
    {s : Shell} {l rest : Bytes} (hs : AtLine s l rest) {i : Nat}
    (hi : ∀ j ≠ i, ∀ b ∈ piece l j, isDelim b = true) :
    ∃ k, Outcome e s (s.run alloc e k) rest (reaction (words isDelim l)) := by
  induction i generalizing s l with
  | zero =>
    have hblank := drop_blank hi
    have hout := iterate_outcome h e hs hblank
    rw [words_of_drop_blank hblank] at hout
    by_cases hlen : l.length < maxLine - 1
    · rw [pieceRest, if_pos hlen] at hout
      exact ⟨1, hout⟩
    · obtain ⟨k, hk⟩ := outcome_run alloc hout fun calls hnext =>
        run_ignored h e (atLine_of_next hs hlen hnext) fun j => by
          rw [piece_drop]
          exact reaction_blank (hi (j + 1) (Nat.succ_ne_zero j))
      exact ⟨k + 1, hk⟩
  | succ i ih =>
    have hzero := hi 0 (Nat.succ_ne_zero i).symm
    have hnext := iterate_ignored h e hs (reaction_blank hzero)
    by_cases hlen : l.length < maxLine - 1
    · have hall : reaction (words isDelim l) = .ignore := by
        rw [← words_of_piece_blank hzero, List.drop_eq_nil_of_le hlen.le]
        rfl
      rw [pieceRest, if_pos hlen] at hnext
      rw [hall]
      exact ⟨1, hnext⟩
    · obtain ⟨k, hk⟩ := ih (atLine_of_next hs hlen hnext) fun j hj => by
        rw [piece_drop]
        exact hi (j + 1) fun heq => hj (Nat.succ.inj heq)
      rw [words_of_piece_blank hzero] at hk
      exact ⟨k + 1, outcome_of_next hnext hk⟩

theorem run_whole {alloc : Nat → Bool} (h : ∀ i, alloc i = true) (e : Surroundings)
    {s : Shell} {l rest : Bytes} (hs : AtLine s l rest) (hl : Whole l) :
    ∃ k, Outcome e s (s.run alloc e k) rest (reaction (words isDelim l)) := by
  rcases hl with ⟨i, hi⟩ | ⟨hign, hpieces⟩
  · exact run_intact h e hs hi
  · obtain ⟨k, hk⟩ := run_ignored h e hs hpieces
    rw [hign]
    exact ⟨k, hk⟩

/-! ## The condition -/

/-- The first `exit` is an accepted one. -/
def LeavesProperly (wss : List (List Bytes)) : Prop :=
  ∃ ws, wss.find? isExit = some ws ∧ ws.length ≤ 2

/-- The calls for the lines before the first `exit`. -/
def callsBeforeExit (wss : List (List Bytes)) : Executed :=
  (wss.takeWhile (!isExit ·)).filterMap builtinCall

/-- The children of these calls end, and leave the terminal alone. -/
def Undisturbed (e : Surroundings) (before calls : Executed) : Prop :=
  ∀ cs, cs ≠ [] → cs <+: calls → ¬ e.Disturbs (before ++ cs)

/-- A line that no line with an `exit` comes before. -/
def Reached (lines : List Bytes) (l : Bytes) : Prop :=
  ∃ before after, lines = before ++ l :: after ∧
    ∀ m ∈ before, isExit (words isDelim m) = false

/-- Short lines come whole. -/
theorem whole_of_short {lines : List Bytes} (h : ∀ l ∈ lines, l.length < maxLine) {l : Bytes}
    (hl : Reached lines l) : Whole l := by
  obtain ⟨before, after, rfl, -⟩ := hl
  exact .inl (intact_of_short (h l (by simp)))

theorem undisturbed_nil (e : Surroundings) (before : Executed) : Undisturbed e before [] :=
  fun _ hne hcs => absurd (List.prefix_nil.mp hcs) hne

theorem undisturbed_cons {e : Surroundings} {before calls : Executed}
    {c : Bytes × List Bytes} :
    Undisturbed e before (c :: calls) ↔
      ¬ e.Disturbs (before ++ [c]) ∧ Undisturbed e (before ++ [c]) calls := by
  constructor
  · intro h
    refine ⟨h [c] (by simp) ⟨calls, rfl⟩, ?_⟩
    intro cs hne hcs
    rw [List.append_assoc]
    exact h (c :: cs) (by simp) ((List.prefix_cons_inj c).mpr hcs)
  · rintro ⟨hfirst, hrest⟩ cs hne hcs
    cases cs with
    | nil => exact absurd rfl hne
    | cons d cs =>
      obtain ⟨rfl, htail⟩ := List.cons_prefix_cons.mp hcs
      cases cs with
      | nil => exact hfirst
      | cons d' cs =>
        have hno := hrest (d' :: cs) (by simp) htail
        rwa [List.append_assoc] at hno

theorem reached_cons {lines : List Bytes} {l m : Bytes} (hl : isExit (words isDelim l) = false)
    (hm : Reached lines m) : Reached (l :: lines) m := by
  obtain ⟨before, after, rfl, hbefore⟩ := hm
  exact ⟨l :: before, after, rfl, List.forall_mem_cons.mpr ⟨hl, hbefore⟩⟩

theorem calls_reaction {ws : List Bytes} (h : isExit ws = false) :
    (reaction ws).calls = (builtinCall ws).toList := by
  cases ws with
  | nil => rfl
  | cons cmd args =>
    have hcmd : cmd ≠ cmdExit := by simpa [isExit] using h
    rw [reaction, if_neg hcmd, builtinCall]
    split <;> rfl

theorem reaction_exit {ws : List Bytes} (h : isExit ws = true) :
    reaction ws = if ws.length > 2 then .crash else .leave := by
  cases ws with
  | nil => cases h
  | cons cmd args =>
    have hcmd : cmd = cmdExit := by simpa [isExit] using h
    rw [reaction, if_pos hcmd]

theorem callsBeforeExit_cons {ws : List Bytes} (h : isExit ws = false)
    (wss : List (List Bytes)) :
    callsBeforeExit (ws :: wss) = (reaction ws).calls ++ callsBeforeExit wss := by
  rw [calls_reaction h]
  unfold callsBeforeExit
  rw [List.takeWhile_cons_of_pos (by simp [h]), List.filterMap_cons]
  cases builtinCall ws <;> rfl

theorem callsBeforeExit_exit {ws : List Bytes} (h : isExit ws = true)
    (wss : List (List Bytes)) : callsBeforeExit (ws :: wss) = [] := by
  simp [callsBeforeExit, h]

theorem leavesProperly_cons {ws : List Bytes} (h : isExit ws = false)
    (wss : List (List Bytes)) : LeavesProperly (ws :: wss) ↔ LeavesProperly wss := by
  unfold LeavesProperly
  rw [List.find?_cons_of_neg (by simp [h])]

theorem leavesProperly_exit {ws : List Bytes} (h : isExit ws = true)
    (wss : List (List Bytes)) : LeavesProperly (ws :: wss) ↔ ws.length ≤ 2 := by
  unfold LeavesProperly
  rw [List.find?_cons_of_pos h]
  simp

/-- If the first `exit` is accepted, it is the first accepted one. -/
theorem takeWhile_exit {wss : List (List Bytes)} (h : LeavesProperly wss) :
    wss.takeWhile (!isExit ·) = wss.takeWhile (!acceptedExit ·) := by
  induction wss with
  | nil => rfl
  | cons ws wss ih =>
    cases hexit : isExit ws with
    | true =>
      have hlen := (leavesProperly_exit hexit wss).mp h
      simp [acceptedExit, hexit, hlen]
    | false =>
      have hrest := ih ((leavesProperly_cons hexit wss).mp h)
      rw [List.takeWhile_cons_of_pos (by simp [hexit]),
        List.takeWhile_cons_of_pos (by simp [acceptedExit, hexit]), hrest]

/-! ## A whole run -/

/-- Lines as they can be typed. -/
def Typeable (lines : List Bytes) : Prop := ∀ l ∈ lines, newline ∉ l ∧ 0 ∉ l

/-- The shell is about to read the first of the lines that are left. -/
structure AtLines (s : Shell) (lines : List Bytes) : Prop where
  status : s.status = .running
  stdin : s.stdin = typed lines
  left : NoExitLeft s

theorem atLines_start (lines : List Bytes) : AtLines (Shell.start (typed lines)) lines := by
  refine ⟨rfl, rfl, ?_⟩
  intro b hb
  cases hb

theorem atLine_of_atLines {s : Shell} {l : Bytes} {lines : List Bytes}
    (hs : AtLines s (l :: lines)) (hl : Typeable (l :: lines)) : AtLine s l (typed lines) where
  status := hs.status
  stdin := by rw [hs.stdin]; simp [typed]
  newline := (hl l List.mem_cons_self).1
  nul := (hl l List.mem_cons_self).2

theorem atLines_of_next {s t : Shell} {lines : List Bytes} {calls : Executed}
    (ht : Next s t (typed lines) calls) : AtLines t lines :=
  ⟨ht.status, ht.stdin, ht.left⟩

/-- If the pieces make no difference, the shell ends exactly if the first `exit` is
accepted and no child before it disturbs. The induction is on the lines. -/
theorem ends_iff {alloc : Nat → Bool} (h : ∀ i, alloc i = true) (e : Surroundings)
    {lines : List Bytes} (hl : Typeable lines) (hwhole : ∀ l, Reached lines l → Whole l)
    {s : Shell} (hs : AtLines s lines) {calls : Executed} :
    Ends alloc e s calls ↔
      LeavesProperly (lines.map (words isDelim)) ∧
      Undisturbed e s.calls (callsBeforeExit (lines.map (words isDelim))) ∧
      s.calls ++ callsBeforeExit (lines.map (words isDelim)) = calls := by
  induction lines generalizing s with
  | nil =>
    have hexh : Exhausted s := by
      refine ⟨by simp [hs.status], fun _ => ⟨?_, hs.left⟩⟩
      rw [hs.stdin]
      exact fun b hb => absurd hb (List.not_mem_nil)
    simp [not_ends_of_exhausted h e hexh, LeavesProperly]
  | cons l lines ih =>
    obtain ⟨k, hk⟩ := run_whole h e (atLine_of_atLines hs hl)
      (hwhole l ⟨[], lines, rfl, by simp⟩)
    rw [← ends_run_iff alloc e k, List.map_cons]
    cases hexit : isExit (words isDelim l) with
    | true =>
      rw [reaction_exit hexit] at hk
      rw [leavesProperly_exit hexit, callsBeforeExit_exit hexit, List.append_nil]
      split at hk
      next hmany =>
        have hno : ¬ Ends alloc e (s.run alloc e k) calls := not_ends_of_exhausted h e hk calls
        simp [hno, Nat.not_le.mpr hmany]
      next hfew =>
        have hstop : (s.run alloc e k).status ≠ .running := by simp [hk.1]
        simp [Ends, run_of_stopped alloc e hstop, hk.1, hk.2, undisturbed_nil, Nat.not_lt.mp hfew]
    | false =>
      have hrest : ∀ {calls'}, Next s (s.run alloc e k) (typed lines) calls' →
          (Ends alloc e (s.run alloc e k) calls ↔
            LeavesProperly (lines.map (words isDelim)) ∧
            Undisturbed e (s.calls ++ calls') (callsBeforeExit (lines.map (words isDelim))) ∧
            s.calls ++ calls' ++ callsBeforeExit (lines.map (words isDelim)) = calls) := by
        intro calls' hnext
        rw [← hnext.calls]
        exact ih (fun m hm => hl m (List.mem_cons_of_mem _ hm))
          (fun m hm => hwhole m (reached_cons hexit hm)) (atLines_of_next hnext)
      rw [leavesProperly_cons hexit, callsBeforeExit_cons hexit]
      have hstatus := status_reaction hexit
      generalize reaction (words isDelim l) = r at hk hstatus ⊢
      cases r with
      | leave | crash => cases hstatus
      | ignore =>
        have hiff := hrest hk
        rwa [List.append_nil] at hiff
      | call cmd args =>
        have hcons : ∀ cs, (Reaction.call cmd args).calls ++ cs = (cmd, args) :: cs :=
          fun _ => rfl
        rw [hcons, undisturbed_cons, List.append_cons]
        rcases hk with ⟨hno, hnext⟩ | ⟨hdist, hexh⟩
        · rw [hrest hnext]
          simp [hno]
        · simp [not_ends_of_exhausted h e hexh, hdist]

/-! ## A command in several pieces -/

/-- A command with words in several pieces, one of which is heeded, after lines that come
whole and are no `exit`. -/
def Garbled (lines : List Bytes) : Prop :=
  ∃ before l after c, lines = before ++ l :: after ∧
    (∀ m ∈ before, isExit (words isDelim m) = false ∧ Whole m) ∧
    builtinCall (words isDelim l) = some c ∧ ¬ Intact l ∧
    ∃ i, reaction (words isDelim (piece l i)) ≠ .ignore

theorem builtinCall_eq_some {ws : List Bytes} {c : Bytes × List Bytes}
    (h : builtinCall ws = some c) : ws = c.1 :: c.2 ∧ isExit ws = false := by
  cases ws with
  | nil => cases h
  | cons cmd args =>
    rw [builtinCall] at h
    split at h
    next hvalid =>
      obtain rfl := Option.some.inj h
      refine ⟨rfl, ?_⟩
      have hcmd : cmd ≠ cmdExit := by
        rintro rfl
        revert hvalid
        decide
      simpa [isExit] using hcmd
    next => cases h

/-- The lines before are read, unless a child disturbs. -/
theorem run_before {alloc : Nat → Bool} (h : ∀ i, alloc i = true) (e : Surroundings)
    {before lines : List Bytes} (hl : Typeable (before ++ lines))
    (hbefore : ∀ m ∈ before, isExit (words isDelim m) = false ∧ Whole m)
    {s : Shell} (hs : AtLines s (before ++ lines)) :
    ∃ k, Exhausted (s.run alloc e k) ∨ AtLines (s.run alloc e k) lines ∧
      (s.run alloc e k).calls = s.calls ++ (before.map (words isDelim)).filterMap builtinCall := by
  induction before generalizing s with
  | nil => exact ⟨0, .inr ⟨hs, (List.append_nil _).symm⟩⟩
  | cons m before ih =>
    obtain ⟨hexit, hm⟩ := hbefore m List.mem_cons_self
    obtain ⟨k, hk⟩ := run_whole h e (atLine_of_atLines hs hl) hm
    have hcalls := calls_reaction hexit
    have hstatus := status_reaction hexit
    have hrest : Next s (s.run alloc e k) (typed (before ++ lines))
        (builtinCall (words isDelim m)).toList → ∃ k, Exhausted (s.run alloc e k) ∨
          AtLines (s.run alloc e k) lines ∧ (s.run alloc e k).calls =
            s.calls ++ ((m :: before).map (words isDelim)).filterMap builtinCall := by
      intro hnext
      obtain ⟨j, hj⟩ := ih (fun n hn => hl n (List.mem_cons_of_mem _ hn))
        (fun n hn => hbefore n (List.mem_cons_of_mem _ hn)) (atLines_of_next hnext)
      rw [run_add, hnext.calls] at hj
      refine ⟨j + k, hj.imp_right fun hat => ⟨hat.1, ?_⟩⟩
      rw [hat.2, List.append_assoc, List.map_cons, List.filterMap_cons]
      cases builtinCall (words isDelim m) <;> rfl
    generalize reaction (words isDelim m) = r at hk hcalls hstatus
    cases r with
    | leave | crash => cases hstatus
    | ignore => exact hrest (hcalls ▸ hk)
    | call cmd args =>
      rcases hk with ⟨-, hnext⟩ | ⟨-, hexh⟩
      · exact hrest (hcalls ▸ hnext)
      · exact ⟨k, .inl hexh⟩

/-- The shell after a piece that is heeded: it leaves, or can no longer do so, or has
called what the words of the piece say. -/
def Heeded (s t : Shell) (l : Bytes) : Prop :=
  t.status = .ended ∧ t.calls = s.calls ∨ Exhausted t ∨
  ∃ c i, builtinCall (words isDelim (piece l i)) = some c ∧ t.calls = s.calls ++ [c]

theorem builtinCall_of_call {ws : List Bytes} {cmd : Bytes} {args : List Bytes}
    (h : reaction ws = .call cmd args) : builtinCall ws = some (cmd, args) := by
  have hcalls := calls_reaction (isExit_of_status (by rw [h]; rfl))
  rw [h] at hcalls
  exact Option.toList_eq_singleton_iff.mp hcalls.symm

theorem iterate_heeded {alloc : Nat → Bool} (h : ∀ i, alloc i = true) (e : Surroundings)
    {s : Shell} {l rest : Bytes} (hs : AtLine s l rest)
    (hp : reaction (words isDelim (piece l 0)) ≠ .ignore) : Heeded s (s.iterate alloc e) l := by
  have hwent := iterate_piece h e hs
  have hcalls := hwent.calls
  have hinput := hwent.input
  cases hr : reaction (words isDelim (piece l 0)) with
  | ignore => exact absurd hr hp
  | call cmd args =>
    rw [hr] at hcalls
    exact .inr (.inr ⟨(cmd, args), 0, builtinCall_of_call hr, hcalls⟩)
  | leave =>
    rw [hr] at hcalls hinput
    rcases hinput with hon | hdist
    · exact .inl ⟨hon.status, hcalls.trans (List.append_nil _)⟩
    · exact absurd rfl hdist.disturbs.1
  | crash =>
    rw [hr] at hinput
    rcases hinput with hon | hdist
    · have hstatus : (s.iterate alloc e).status = .undefined := hon.status
      exact .inr (.inl (exhausted_of_stopped (by simp [hstatus]) (by simp [hstatus])))
    · exact absurd rfl hdist.disturbs.1

/-- The first piece that is heeded decides. The induction is on the number of one. -/
theorem run_heeded {alloc : Nat → Bool} (h : ∀ i, alloc i = true) (e : Surroundings)
    {s : Shell} {l rest : Bytes} (hs : AtLine s l rest) {i : Nat}
    (hi : reaction (words isDelim (piece l i)) ≠ .ignore) :
    ∃ k, Heeded s (s.run alloc e k) l := by
  induction i generalizing s l with
  | zero => exact ⟨1, iterate_heeded h e hs hi⟩
  | succ i ih =>
    by_cases hzero : reaction (words isDelim (piece l 0)) = .ignore
    · have hnext := iterate_ignored h e hs hzero
      have hlen : ¬ l.length < maxLine - 1 := by
        intro hlt
        rw [piece_eq_nil hlt.le] at hi
        exact hi rfl
      have hcalls : (s.iterate alloc e).calls = s.calls :=
        hnext.calls.trans (List.append_nil _)
      rw [← piece_drop] at hi
      obtain ⟨k, hk⟩ := ih (atLine_of_next hs hlen hnext) hi
      refine ⟨k + 1, ?_⟩
      rcases hk with ⟨hended, hsame⟩ | hexh | ⟨c, j, hc, hmore⟩
      · exact .inl ⟨hended, hsame.trans hcalls⟩
      · exact .inr (.inl hexh)
      · rw [piece_drop] at hc
        exact .inr (.inr ⟨c, j + 1, hc, hcalls ▸ hmore⟩)
    · exact ⟨1, iterate_heeded h e hs hzero⟩

theorem calls_prefix_iterate {alloc : Nat → Bool} (h : ∀ i, alloc i = true) (e : Surroundings)
    (s : Shell) : s.calls <+: (s.iterate alloc e).calls := by
  by_cases hrun : s.status = .running
  · cases hb : s.fgets.buff with
    | none =>
      rw [iterate_uninitialised alloc e hrun hb]
      show s.calls <+: s.fgets.calls
      rw [fgets_calls]
    | some buff =>
      rw [(iterate_went h e hrun hb).calls]
      exact List.prefix_append _ _
  · rw [iterate_of_stopped alloc e hrun]

theorem calls_prefix_run {alloc : Nat → Bool} (h : ∀ i, alloc i = true) (e : Surroundings)
    (s : Shell) (k : Nat) : s.calls <+: (s.run alloc e k).calls := by
  induction k generalizing s with
  | zero => exact List.prefix_rfl
  | succ k ih => exact (calls_prefix_iterate h e s).trans (ih (s.iterate alloc e))

/-- The calls that were typed, if no line before the command `c` is an `exit`. -/
theorem typedCalls_append {before : List Bytes} {l : Bytes} {c : Bytes × List Bytes}
    (hbefore : ∀ m ∈ before, isExit (words isDelim m) = false)
    (hc : builtinCall (words isDelim l) = some c) (after : List Bytes) :
    ∃ more, typedCalls (before ++ l :: after) =
      (before.map (words isDelim)).filterMap builtinCall ++ c :: more := by
  have hno : ∀ ws ∈ before.map (words isDelim), (!acceptedExit ws) = true := by
    intro ws hws
    obtain ⟨m, hm, rfl⟩ := List.mem_map.mp hws
    simp [acceptedExit, hbefore m hm]
  have hl : (!acceptedExit (words isDelim l)) = true := by
    simp [acceptedExit, (builtinCall_eq_some hc).2]
  unfold typedCalls
  rw [List.map_append, List.takeWhile_append_of_pos hno, List.filterMap_append, List.map_cons,
    List.takeWhile_cons, if_pos hl, List.filterMap_cons_some hc]
  exact ⟨_, rfl⟩

/-- What a piece makes of a command with words in several pieces is not that command. -/
theorem not_ends_of_heeded {alloc : Nat → Bool} (h : ∀ i, alloc i = true) (e : Surroundings)
    {s t : Shell} {l : Bytes} (ht : Heeded s t l) (hl : ¬ Intact l) {c : Bytes × List Bytes}
    (hc : builtinCall (words isDelim l) = some c) (more : Executed) :
    ¬ Ends alloc e t (s.calls ++ c :: more) := by
  rintro ⟨k, hk, hcalls⟩
  rcases ht with ⟨hended, hsame⟩ | hexh | ⟨c', i, hc', hpiece⟩
  · rw [run_of_stopped alloc e (by simp [hended]), hsame] at hcalls
    simp at hcalls
  · exact not_ends_of_exhausted h e hexh _ ⟨k, hk, hcalls⟩
  · have hfront := calls_prefix_run h e t k
    rw [hcalls, hpiece, List.prefix_append_right_inj] at hfront
    obtain ⟨rfl, -⟩ := List.cons_prefix_cons.mp hfront
    refine hl (intact_of_words (i := i) ?_)
    rw [(builtinCall_eq_some hc').1, (builtinCall_eq_some hc).1]

theorem not_executesTyped_of_garbled {alloc : Nat → Bool} (h : ∀ i, alloc i = true)
    (e : Surroundings) {lines : List Bytes} (hl : Typeable lines) (hg : Garbled lines) :
    ¬ ExecutesTyped alloc e lines := by
  obtain ⟨before, l, after, c, rfl, hbefore, hc, hnot, i, hi⟩ := hg
  obtain ⟨more, htyped⟩ := typedCalls_append (fun m hm => (hbefore m hm).1) hc after
  obtain ⟨k, hk⟩ := run_before h e hl hbefore (atLines_start (before ++ l :: after))
  unfold ExecutesTyped
  rw [← ends_run_iff alloc e k, htyped]
  rcases hk with hexh | ⟨hat, hcalls⟩
  · exact not_ends_of_exhausted h e hexh _
  · have hline := atLine_of_atLines hat fun m hm => hl m (List.mem_append_right before hm)
    obtain ⟨j, hj⟩ := run_heeded h e hline hi
    have hno := not_ends_of_heeded h e hj hnot hc more
    rwa [ends_run_iff, hcalls] at hno

/-! ## The theorem -/

/-- Every child ends, and no file but the terminal is there. -/
def onlyTty : Surroundings where
  kernel _ := permissive
  files _ := .ofList [(ascii "/dev/tty", ⟨[], 0, 0⟩)]
  tty := 0
  ends _ := true
  ahead _ := 0

/-- `mojecho aa…a`, with a word that `fgets` cuts in two. -/
def longEcho : Bytes := ascii "mojecho" ++ 32 :: aaa 1100

theorem words_longEcho (n : Nat) :
    words isDelim (ascii "mojecho" ++ 32 :: aaa n) = cmdEcho :: words isDelim (aaa n) := by
  have hcmd : words isDelim (ascii "mojecho") = [cmdEcho] := by decide
  rw [words_append_sep (by decide), hcmd]
  rfl

theorem longEcho_garbled : Garbled [longEcho, ascii "exit"] := by
  have hzero : piece longEcho 0 = ascii "mojecho" ++ 32 :: aaa 1015 := by
    simp [piece, longEcho, aaa, maxLine, ascii, -List.reduceReplicate]
  have hone : piece longEcho 1 = aaa 85 := by
    simp [piece, longEcho, aaa, maxLine, ascii, -List.reduceReplicate]
  refine ⟨[], longEcho, [ascii "exit"], (cmdEcho, words isDelim (aaa 1100)), rfl, by simp,
    ?_, ?_, 0, ?_⟩
  · rw [longEcho, words_longEcho]
    rfl
  · rintro ⟨i, hi⟩
    by_cases h0 : i = 0
    · subst h0
      have hblank := hi 1 Nat.one_ne_zero 97 (by rw [hone]; simp [aaa])
      revert hblank
      decide
    · have hblank := hi 0 (Ne.symm h0) 109 (by rw [hzero]; decide)
      revert hblank
      decide
  · rw [hzero, words_longEcho]
    intro hign
    have hcall : reaction (cmdEcho :: words isDelim (aaa 1015)) =
        .call cmdEcho (words isDelim (aaa 1015)) := rfl
    rw [hcall] at hign
    cases hign

/-- The child of the first line reads the others. -/
example : ((Shell.start (typed [ascii "mojcat", ascii "mojecho hi", ascii "exit"])).run
    (fun _ => true) onlyTty 3).calls = [(cmdCat, []), (cmdCat, []), (cmdCat, [])] := by
  decide

end SisProg.Mojbash
