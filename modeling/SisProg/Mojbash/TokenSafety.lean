import Mathlib.Algebra.Group.Nat.Defs
import SisProg.Mojbash.Main

/-!
# The array of tokens in the main loop

`tokenize` returns an array that `main` indexes and frees, or `NULL`. `main` looks at
the number of tokens only, so a `NULL` must come with none. It does if `malloc` fails.
If a `realloc` fails, `tokenize` has counted the tokens up to then, and `main` reads
`tokens[0]` of `NULL`. And after an `exit` with too many arguments `main` goes on with
the rest of the iteration, which frees the array again.

`tokens_safe_iff`: there is nothing else. A line calls for one `realloc` when it has
`10` tokens, for another when it has `20`, and so on.
-/

namespace SisProg.Mojbash

open Bytes (ascii)

/-- The requests for memory from the `r`th on succeed that an array of the given
capacity needs to hold `total` tokens and the `NULL` after them. -/
def Grows (alloc : Nat → Bool) (r capacity total : Nat) : Prop :=
  ∀ d, capacity * 2 ^ d ≤ total → alloc (r + d) = true

/-- A line that is rejected with `exit: too many arguments`. -/
def RejectedExit (ws : List Bytes) : Prop := ws.head? = some cmdExit ∧ 2 < ws.length

instance (ws : List Bytes) : Decidable (RejectedExit ws) := inferInstanceAs (Decidable (_ ∧ _))

/-- The iteration from `s`, with the line `buff`, indexes and frees the array only while
it is live, leaves no live array behind, and gets no tokens with a `NULL`. -/
def TokensSafe (alloc : Nat → Bool) (s : Shell) (buff : Bytes) : Prop :=
  (s.loopBody alloc).status ≠ .undefined ∧
  (∀ entries, (s.loopBody alloc).tokens ≠ .live entries) ∧
  ((tokenize alloc s.requests buff).tokens = .null →
    (tokenize alloc s.requests buff).numTokens = 0)

theorem grows_succ {alloc : Nat → Bool} {r capacity total : Nat} (h : alloc r = true) :
    Grows alloc (r + 1) (capacity * 2) total ↔ Grows alloc r capacity total := by
  constructor
  · intro hg d hd
    cases d with
    | zero => exact h
    | succ d =>
      rw [← Nat.succ_add_eq_add_succ]
      exact hg d (by rwa [Nat.mul_assoc, ← Nat.pow_succ'])
  · intro hg d hd
    rw [Nat.succ_add_eq_add_succ]
    exact hg (d + 1) (by rwa [Nat.pow_succ', ← Nat.mul_assoc])

/-- The loop of `tokenize` grows the array as if memory could not run out, or gives up
with the tokens that it has counted. -/
theorem tokenizeLoop_grows {alloc : Nat → Bool} {fuel : Nat} {p : Strtok}
    (hfuel : p.rest.length < fuel) {tokens : List Nat} {capacity total : Nat}
    (hcap : tokens.length < capacity) (htwo : 2 ≤ capacity) (requests : Nat)
    (htotal : total = tokens.length + (tokensOf p.rest).length) :
    (Grows alloc requests capacity total →
      tokenizeLoop alloc fuel p tokens capacity requests =
        tokenizeLoop (fun _ => true) fuel p tokens capacity requests) ∧
    (¬ Grows alloc requests capacity total →
      (tokenizeLoop alloc fuel p tokens capacity requests).tokens = .null ∧
      (tokenizeLoop alloc fuel p tokens capacity requests).numTokens ≠ 0) := by
  induction fuel generalizing p tokens capacity requests with
  | zero => exact absurd hfuel (Nat.not_lt_zero _)
  | succ fuel ih =>
    rcases p.next_cases with ⟨q, hnext, hwords⟩ | ⟨token, q, w, hnext, hwords, hlen⟩
    · have hloop : ∀ alloc, tokenizeLoop alloc (fuel + 1) p tokens capacity requests =
          ⟨.live tokens, tokens.length, q.passed ++ q.rest, requests⟩ := by
        intro alloc
        rw [tokenizeLoop, hnext]
      have hgrows : Grows alloc requests capacity total := by
        intro d hd
        rw [htotal, hwords] at hd
        exact absurd (hd.trans_lt hcap)
          (Nat.not_lt.mpr (Nat.le_mul_of_pos_right _ (Nat.two_pow_pos d)))
      exact ⟨fun _ => by rw [hloop, hloop], fun hnot => absurd hgrows hnot⟩
    · have hfuel' : q.rest.length < fuel := hlen.trans_le (Nat.le_of_lt_succ hfuel)
      have htotal' : total = (tokens ++ [token]).length + (tokensOf q.rest).length :=
        htotal.trans (length_snoc_add hwords tokens token).symm
      rw [tokenizeLoop, tokenizeLoop, hnext]
      dsimp only
      split
      next hroom =>
        exact ih hfuel' (by simp; omega) htwo requests htotal'
      next hfull =>
        cases halloc : alloc requests with
        | true =>
          rw [if_pos rfl, if_pos rfl, ← grows_succ halloc]
          exact ih hfuel' (by simp; omega) (by omega) (requests + 1) htotal'
        | false =>
          -- this is the `realloc` that fails
          have hnot : ¬ Grows alloc requests capacity total := by
            intro hgrows
            have hneeded := hgrows 0 (by rw [htotal, hwords]; simp; omega)
            rw [Nat.add_zero, halloc] at hneeded
            cases hneeded
          rw [if_neg Bool.false_ne_true]
          have hcounted : tokens.length ≠ 0 := by omega
          exact ⟨fun hgrows => absurd hgrows hnot, fun _ => ⟨rfl, hcounted⟩⟩

/-- What `tokenize` returns: `NULL` with no tokens, or what it returns when memory does
not run out, or `NULL` with the tokens that it has counted. -/
theorem tokenize_cases (alloc : Nat → Bool) (requests : Nat) (buffer : Bytes) :
    (alloc requests = false ∧ (tokenize alloc requests buffer).tokens = .null ∧
      (tokenize alloc requests buffer).numTokens = 0) ∨
    (alloc requests = true ∧
      Grows alloc (requests + 1) initialTokenCapacity (tokensOf buffer).length ∧
      tokenize alloc requests buffer = tokenize (fun _ => true) requests buffer) ∨
    (alloc requests = true ∧
      ¬ Grows alloc (requests + 1) initialTokenCapacity (tokensOf buffer).length ∧
      (tokenize alloc requests buffer).tokens = .null ∧
      (tokenize alloc requests buffer).numTokens ≠ 0) := by
  unfold tokenize
  cases halloc : alloc requests with
  | false => exact .inl ⟨rfl, rfl, rfl⟩
  | true =>
    rw [if_pos rfl, if_pos rfl]
    obtain ⟨hgrows, hnull⟩ := @tokenizeLoop_grows alloc _ ⟨[], buffer⟩
      (Nat.lt_succ_self buffer.length) [] initialTokenCapacity (tokensOf buffer).length
      (by decide) (by decide) (requests + 1) (Nat.zero_add _).symm
    by_cases hg : Grows alloc (requests + 1) initialTokenCapacity (tokensOf buffer).length
    · exact .inr (.inl ⟨rfl, hg, hgrows hg⟩)
    · exact .inr (.inr ⟨rfl, hg, hnull hg⟩)

/-! ## An iteration -/

theorem fgets_requests (s : Shell) : s.fgets.requests = s.requests := by
  unfold Shell.fgets
  split <;> rfl

/-- The iteration with its calls of `fgets` and `tokenize` made. -/
theorem loopBody_eq (alloc : Nat → Bool) {s : Shell} (hs : s.status = .running) {buff : Bytes}
    (hb : s.fgets.buff = some buff) :
    s.loopBody alloc =
      Shell.react { s.fgets with
          buff := some (tokenize alloc s.requests buff).buffer
          tokens := (tokenize alloc s.requests buff).tokens
          requests := (tokenize alloc s.requests buff).requests }
        (tokenize alloc s.requests buff).buffer (tokenize alloc s.requests buff).numTokens := by
  unfold Shell.loopBody
  rw [hs]
  dsimp only
  rw [hb]
  dsimp only
  rw [fgets_requests]

theorem reaction_undefined_iff (ws : List Bytes) :
    (reaction ws).status = .undefined ↔ RejectedExit ws := by
  cases ws with
  | nil => simp [reaction, Reaction.status, RejectedExit]
  | cons cmd args =>
    rw [reaction]
    split
    next hcmd =>
      split <;> simp_all [Reaction.status, RejectedExit]
    next hcmd =>
      split <;> simp [Reaction.status, RejectedExit, hcmd]

/-- An iteration with an array that is big enough does what the words say, and frees
the array. -/
theorem loopBody_of_grows {alloc : Nat → Bool} {s : Shell} (hs : s.status = .running)
    {buff : Bytes} (hb : s.fgets.buff = some buff)
    (h : tokenize alloc s.requests buff = tokenize (fun _ => true) s.requests buff) :
    (s.loopBody alloc).status = (reaction (tokensOf buff)).status ∧
    (s.loopBody alloc).tokens = .freed ∧ (tokenize alloc s.requests buff).tokens ≠ .null := by
  obtain ⟨entries, htok, hnum, hstr, -⟩ := tokenize_spec (fun _ => rfl) s.requests buff
  rw [loopBody_eq alloc hs hb, h, hnum, react_eq, hstr]
  · exact ⟨rfl, rfl, by rw [htok]; simp⟩
  · exact (fgets_status s).trans hs
  · exact htok

/-- An iteration uses the array of tokens safely exactly if `malloc` fails, or every
`realloc` succeeds that the words of the line call for and the line is no `exit` with
too many arguments. -/
theorem tokens_safe_iff (alloc : Nat → Bool) {s : Shell} (hs : s.status = .running)
    {buff : Bytes} (hb : s.fgets.buff = some buff) :
    TokensSafe alloc s buff ↔
      alloc s.requests = false ∨
      Grows alloc (s.requests + 1) initialTokenCapacity (tokensOf buff).length ∧
        ¬ RejectedExit (tokensOf buff) := by
  unfold TokensSafe
  rcases tokenize_cases alloc s.requests buff with
    ⟨hfail, htok, hnum⟩ | ⟨hmalloc, hgrows, heq⟩ | ⟨hmalloc, hgrows, htok, hnum⟩
  · refine iff_of_true ⟨?_, ?_, fun _ => hnum⟩ (.inl hfail)
    · rw [loopBody_eq alloc hs hb, hnum, htok]
      show s.fgets.status ≠ .undefined
      rw [fgets_status, hs]
      simp
    · rw [loopBody_eq alloc hs hb, hnum, htok]
      exact fun entries => Tokens.noConfusion
  · obtain ⟨hstatus, hfreed, hlive⟩ := loopBody_of_grows hs hb heq
    rw [hstatus, hfreed, ← reaction_undefined_iff]
    constructor
    · rintro ⟨hok, -⟩
      exact .inr ⟨hgrows, hok⟩
    · rintro (hfail | ⟨-, hok⟩)
      · rw [hmalloc] at hfail
        cases hfail
      · exact ⟨hok, fun entries => Tokens.noConfusion, fun hnull => absurd hnull hlive⟩
  · refine iff_of_false (fun hsafe => hnum (hsafe.2.2 htok)) ?_
    rintro (hfail | ⟨hg, -⟩)
    · rw [hmalloc] at hfail
      cases hfail
    · exact hgrows hg

/-- The shell before its first line. -/
def typing (line : Bytes) : Shell := Shell.start (line ++ [newline])

theorem tokens_safe_echo : TokensSafe (fun _ => true) (typing (ascii "mojecho a b"))
    (ascii "mojecho a b\n\x00") :=
  (tokens_safe_iff _ rfl rfl).mpr (.inr ⟨fun _ _ => rfl, by decide⟩)

/-- The array is freed twice; or it is `NULL`, and nine tokens have been counted. -/
theorem tokens_misused :
    ((typing (ascii "exit 1 2")).loopBody fun _ => true).status = .undefined ∧
    (tokenize (fun r => r == 0) 0 (ascii "a b c d e f g h i j")).tokens = .null ∧
    (tokenize (fun r => r == 0) 0 (ascii "a b c d e f g h i j")).numTokens = 9 ∧
    ((typing (ascii "a b c d e f g h i j")).loopBody fun r => r == 0).status = .undefined := by
  decide

end SisProg.Mojbash
