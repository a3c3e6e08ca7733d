import SisProg.Lib.Bytes
import SisProg.Lib.Words

/-!
# The scanner of mojbash

`tokenize` calls `strtok` on the line buffer until it returns `NULL`, and keeps the
pointers in an array that it doubles when it is full. `strtok` ends each token with
a NUL that it writes into the buffer, so the buffer no longer holds the line
afterwards.

A pointer into the buffer is an offset. The buffer is modelled up to the NUL that
`fgets` writes, which nothing reads beyond.

* `tokenize_spec`: the tokens are the words of the buffer, and the C string that
  `tokenize` leaves in the buffer has no more than the first of them.
-/

namespace SisProg.Mojbash

open Bytes (ascii)

/-- `" \t\n\f\r\v"`. -/
def whitespace : Bytes := [32, 9, 10, 12, 13, 11]

def isDelim (b : UInt8) : Bool := whitespace.contains b

/-- The bytes of a token: no delimiter, and not the NUL that ends the string. -/
def inToken (b : UInt8) : Bool := !isDelim b && b != 0

/-- The buffer, cut at the pointer that `strtok` has saved. -/
structure Strtok where
  passed : Bytes
  rest : Bytes
deriving DecidableEq

/-- The next call of `strtok`: the start of the token, if there is one. The byte
after the token is overwritten, unless the string ends there. -/
def Strtok.next (p : Strtok) : Option Nat × Strtok :=
  let skipped := p.rest.takeWhile isDelim
  let tail := p.rest.dropWhile isDelim
  let token := tail.takeWhile inToken
  if token = [] then (none, ⟨p.passed ++ skipped, tail⟩)
  else
    (some (p.passed ++ skipped).length,
      match tail.dropWhile inToken with
      | [] => ⟨p.passed ++ skipped ++ token, []⟩
      | b :: rest =>
        if b = 0 then ⟨p.passed ++ skipped ++ token, b :: rest⟩
        else ⟨p.passed ++ skipped ++ token ++ [0], rest⟩)

/-- The array of tokens, as `main` gets to see it. -/
inductive Tokens
  | null
  | live (entries : List Nat)
  | freed
deriving DecidableEq

/-- What `tokenize` returns and changes; `requests` counts the calls of `malloc` and
`realloc`. -/
structure Tokenized where
  tokens : Tokens
  numTokens : Nat
  buffer : Bytes
  requests : Nat
deriving DecidableEq

def initialTokenCapacity : Nat := 10

/-- The loop of `tokenize`. Each round passes at least one byte of the buffer, so
that fuel beyond the length of the buffer is enough. -/
def tokenizeLoop (alloc : Nat → Bool) : Nat → Strtok → List Nat → Nat → Nat → Tokenized
  | 0, p, tokens, _, requests => ⟨.live tokens, tokens.length, p.passed ++ p.rest, requests⟩
  | fuel + 1, p, tokens, capacity, requests =>
    match p.next with
    | (none, p) => ⟨.live tokens, tokens.length, p.passed ++ p.rest, requests⟩
    | (some token, p) =>
      if tokens.length < capacity - 1 then
        tokenizeLoop alloc fuel p (tokens ++ [token]) capacity requests
      else if alloc requests then
        tokenizeLoop alloc fuel p (tokens ++ [token]) (capacity * 2) (requests + 1)
      else ⟨.null, tokens.length, p.passed ++ p.rest, requests + 1⟩

/-- `alloc i` tells whether the `i`th request for memory succeeds. -/
def tokenize (alloc : Nat → Bool) (requests : Nat) (buffer : Bytes) : Tokenized :=
  if alloc requests then
    tokenizeLoop alloc (buffer.length + 1) ⟨[], buffer⟩ [] initialTokenCapacity (requests + 1)
  else ⟨.null, 0, buffer, requests + 1⟩

/-- The string at a pointer into the buffer. -/
def stringAt (buffer : Bytes) (pointer : Nat) : Bytes := Bytes.cstr (buffer.drop pointer)

def cmdExit : Bytes := ascii "exit"
def cmdEcho : Bytes := ascii "mojecho"
def cmdCat : Bytes := ascii "mojcat"
def cmdTouch : Bytes := ascii "mojtouch"
def cmdLs : Bytes := ascii "mojls"

def isValid (cmd : Bytes) : Bool :=
  cmd == cmdEcho || cmd == cmdCat || cmd == cmdTouch || cmd == cmdLs

/-- The words of the C string in a buffer. -/
def tokensOf (buffer : Bytes) : List Bytes := words isDelim buffer.cstr

/-! ## One call of `strtok` -/

/-- What a call of `strtok` finds in the rest of the buffer: only delimiters before
the end of the string, or a token, with the string's end or a delimiter after it. -/
inductive Strtok.Finds (s : Bytes) : Prop
  | nothing (skipped tail : Bytes) (split : s = skipped ++ tail)
      (delims : ∀ b ∈ skipped, isDelim b = true) (ended : Bytes.cstr tail = [])
      (next : ∀ passed, Strtok.next ⟨passed, s⟩ = (none, ⟨passed ++ skipped, tail⟩))
  | last (skipped token tail : Bytes) (split : s = skipped ++ token ++ tail)
      (delims : ∀ b ∈ skipped, isDelim b = true) (nonempty : token ≠ [])
      (inToken : ∀ b ∈ token, inToken b = true) (ended : Bytes.cstr tail = [])
      (next : ∀ passed, Strtok.next ⟨passed, s⟩ =
        (some (passed ++ skipped).length, ⟨passed ++ skipped ++ token, tail⟩))
  | token (skipped token tail : Bytes) (b : UInt8) (split : s = skipped ++ token ++ b :: tail)
      (delims : ∀ b ∈ skipped, isDelim b = true) (nonempty : token ≠ [])
      (inToken : ∀ b ∈ token, inToken b = true) (delim : isDelim b = true)
      (next : ∀ passed, Strtok.next ⟨passed, s⟩ =
        (some (passed ++ skipped).length, ⟨passed ++ skipped ++ token ++ [0], tail⟩))

theorem Strtok.finds (s : Bytes) : Strtok.Finds s := by
  have hskip : ∀ b ∈ s.takeWhile isDelim, isDelim b = true := fun b hb =>
    List.mem_takeWhile_imp hb
  have htok : ∀ b ∈ (s.dropWhile isDelim).takeWhile Mojbash.inToken, Mojbash.inToken b = true :=
    fun b hb => List.mem_takeWhile_imp hb
  have hs : s = s.takeWhile isDelim ++ s.dropWhile isDelim :=
    List.takeWhile_append_dropWhile.symm
  have hs' : s = s.takeWhile isDelim ++ (s.dropWhile isDelim).takeWhile Mojbash.inToken ++
      (s.dropWhile isDelim).dropWhile Mojbash.inToken := by
    rw [List.append_assoc, List.takeWhile_append_dropWhile]
    exact hs
  by_cases htoken : (s.dropWhile isDelim).takeWhile Mojbash.inToken = []
  · refine .nothing _ _ hs hskip ?_ fun passed => by simp only [Strtok.next, if_pos htoken]
    cases hd : s.dropWhile isDelim with
    | nil => rfl
    | cons b t =>
      -- neither a delimiter nor in a token: the NUL
      have hb := not_of_dropWhile_eq_cons hd
      have hb' : b = 0 := by
        rw [hd, List.takeWhile_cons] at htoken
        simpa [Mojbash.inToken, hb] using htoken
      simp [Bytes.cstr, hb']
  · cases hd : (s.dropWhile isDelim).dropWhile Mojbash.inToken with
    | nil =>
      rw [hd] at hs'
      refine .last _ _ _ hs' hskip htoken htok rfl ?_
      intro passed
      simp only [Strtok.next, if_neg htoken, hd]
    | cons b t =>
      rw [hd] at hs'
      have hb := not_of_dropWhile_eq_cons hd
      by_cases hb0 : b = 0
      · refine .last _ _ _ hs' hskip htoken htok (by simp [Bytes.cstr, hb0]) ?_
        intro passed
        simp only [Strtok.next, if_neg htoken, hd, if_pos hb0]
      · have hdelim : isDelim b = true := by simpa [Mojbash.inToken, hb0] using hb
        refine .token _ _ _ b hs' hskip htoken htok hdelim ?_
        intro passed
        simp only [Strtok.next, if_neg htoken, hd, if_neg hb0]

/-! ## The words of a buffer -/

theorem ne_zero_of_isDelim {b : UInt8} (h : isDelim b = true) : b ≠ 0 := by
  rintro rfl
  cases h

theorem isDelim_of_inToken {b : UInt8} (h : inToken b = true) : isDelim b = false ∧ b ≠ 0 := by
  simpa [inToken] using h

theorem ne_zero_of_split {skipped token : Bytes} (hd : ∀ b ∈ skipped, isDelim b = true)
    (ht : ∀ b ∈ token, inToken b = true) : ∀ b ∈ skipped ++ token, b ≠ 0 := by
  intro b hb
  rcases List.mem_append.mp hb with hb | hb
  · exact ne_zero_of_isDelim (hd b hb)
  · exact (isDelim_of_inToken (ht b hb)).2

theorem tokensOf_nothing {skipped tail : Bytes} (hd : ∀ b ∈ skipped, isDelim b = true)
    (he : Bytes.cstr tail = []) : tokensOf (skipped ++ tail) = [] := by
  unfold tokensOf
  rw [Bytes.cstr_append fun b hb => ne_zero_of_isDelim (hd b hb), he, List.append_nil]
  exact words_eq_nil hd

theorem tokensOf_last {skipped token tail : Bytes} (hd : ∀ b ∈ skipped, isDelim b = true)
    (hne : token ≠ []) (ht : ∀ b ∈ token, inToken b = true) (he : Bytes.cstr tail = []) :
    tokensOf (skipped ++ token ++ tail) = [token] := by
  unfold tokensOf
  rw [Bytes.cstr_append (ne_zero_of_split hd ht), he, List.append_nil, words_append_seps hd]
  exact words_eq_singleton hne fun b hb => (isDelim_of_inToken (ht b hb)).1

theorem tokensOf_token {skipped token tail : Bytes} {b : UInt8}
    (hd : ∀ b ∈ skipped, isDelim b = true) (hne : token ≠ [])
    (ht : ∀ b ∈ token, inToken b = true) (hb : isDelim b = true) :
    tokensOf (skipped ++ token ++ b :: tail) = token :: tokensOf tail := by
  have hcons : Bytes.cstr (b :: tail) = b :: Bytes.cstr tail := by
    simp [Bytes.cstr, ne_zero_of_isDelim hb]
  unfold tokensOf
  rw [Bytes.cstr_append (ne_zero_of_split hd ht), hcons]
  exact words_append_word hd hne (fun c hc => (isDelim_of_inToken (ht c hc)).1) hb

/-- The pointer to a token, once a NUL or the end of the string follows it. -/
theorem stringAt_token {before token tail : Bytes} (ht : ∀ b ∈ token, inToken b = true)
    (he : Bytes.cstr tail = []) : stringAt (before ++ token ++ tail) before.length = token := by
  unfold stringAt
  rw [List.append_assoc, List.drop_left,
    Bytes.cstr_append fun b hb => (isDelim_of_inToken (ht b hb)).2, he, List.append_nil]

/-- Passing a token makes the rest shorter. -/
theorem length_lt_of_split {s skipped token tail : Bytes} (hs : s = skipped ++ token ++ tail)
    (hne : token ≠ []) : tail.length < s.length := by
  rw [hs, List.length_append]
  refine Nat.lt_add_of_pos_left (List.length_pos_iff.mpr ?_)
  exact List.append_ne_nil_of_right_ne_nil skipped hne

theorem tokensOf_ended {tail : Bytes} (h : Bytes.cstr tail = []) : tokensOf tail = [] := by
  unfold tokensOf
  rw [h]
  rfl

/-- A call of `strtok` finds the first word of the rest, if there is one. -/
theorem Strtok.next_cases (p : Strtok) :
    (∃ q, p.next = (none, q) ∧ tokensOf p.rest = []) ∨
    (∃ token q w, p.next = (some token, q) ∧ tokensOf p.rest = w :: tokensOf q.rest ∧
      q.rest.length < p.rest.length) := by
  obtain ⟨passed, s⟩ := p
  cases Strtok.finds s with
  | nothing skipped tail hs hd he hnext =>
    exact .inl ⟨_, hnext passed, by rw [hs]; exact tokensOf_nothing hd he⟩
  | last skipped token tail hs hd hne ht he hnext =>
    refine .inr ⟨_, _, token, hnext passed, ?_, ?_⟩
    · rw [hs, tokensOf_last hd hne ht he, tokensOf_ended he]
    · exact length_lt_of_split hs hne
  | token skipped token tail b hs hd hne ht hb hnext =>
    refine .inr ⟨_, _, token, hnext passed, ?_, ?_⟩
    · rw [hs, tokensOf_token hd hne ht hb]
    · exact Nat.lt_of_succ_lt (length_lt_of_split hs hne)

/-- A token goes from the rest of the buffer to the array. -/
theorem length_snoc_add {s rest : Bytes} {w : Bytes} (h : tokensOf s = w :: tokensOf rest)
    (tokens : List Nat) (token : Nat) :
    (tokens ++ [token]).length + (tokensOf rest).length =
      tokens.length + (tokensOf s).length := by
  rw [h, List.length_append, List.length_singleton, List.length_cons, Nat.add_assoc,
    Nat.add_comm 1]

/-! ## The loop -/

/-- What the loop leaves behind when it starts at `p`: the tokens it adds are the
words of the rest of the buffer, and the string that is left there has at most the
first of them. -/
structure Scanned (p : Strtok) (tokens : List Nat) (r : Tokenized) (found : List Nat)
    (tail : Bytes) : Prop where
  tokens_eq : r.tokens = .live (tokens ++ found)
  numTokens_eq : r.numTokens = (tokens ++ found).length
  buffer_eq : r.buffer = p.passed ++ tail
  strings : found.map (stringAt r.buffer) = tokensOf p.rest
  first : tokensOf tail = (tokensOf p.rest).take 1
  unchanged : tokensOf p.rest = [] → tail = p.rest

theorem tokenizeLoop_succ {alloc : Nat → Bool} (h : ∀ i, alloc i = true) (fuel : Nat)
    {p p' : Strtok} {token : Nat} (hp : p.next = (some token, p')) (tokens : List Nat)
    (capacity requests : Nat) :
    ∃ capacity' requests', tokenizeLoop alloc (fuel + 1) p tokens capacity requests =
      tokenizeLoop alloc fuel p' (tokens ++ [token]) capacity' requests' := by
  rw [tokenizeLoop, hp]
  dsimp only
  split
  next => exact ⟨_, _, rfl⟩
  next =>
    rw [if_pos (h requests)]
    exact ⟨_, _, rfl⟩

/-- A round that finds `token`: `mark` is what `strtok` writes after it. -/
theorem Scanned.cons {passed s skipped token mark rest : Bytes} {tokens found : List Nat}
    {r : Tokenized} {tail : Bytes} (hd : ∀ b ∈ skipped, isDelim b = true) (hne : token ≠ [])
    (ht : ∀ b ∈ token, inToken b = true) (he : Bytes.cstr (mark ++ tail) = [])
    (hs : tokensOf s = token :: tokensOf rest)
    (h : Scanned ⟨passed ++ skipped ++ token ++ mark, rest⟩
      (tokens ++ [(passed ++ skipped).length]) r found tail) :
    Scanned ⟨passed, s⟩ tokens r ((passed ++ skipped).length :: found)
      (skipped ++ token ++ (mark ++ tail)) where
  tokens_eq := by rw [h.tokens_eq, List.append_assoc, List.singleton_append]
  numTokens_eq := by rw [h.numTokens_eq, List.append_assoc, List.singleton_append]
  buffer_eq := by
    rw [h.buffer_eq]
    simp only [List.append_assoc]
  strings := by
    have hbuf : r.buffer = passed ++ skipped ++ token ++ (mark ++ tail) := by
      rw [h.buffer_eq]
      simp only [List.append_assoc]
    rw [List.map_cons, h.strings, hs, hbuf, stringAt_token ht he]
  first := by
    rw [tokensOf_last hd hne ht he, hs]
    rfl
  unchanged hnil := by
    rw [hs] at hnil
    cases hnil

theorem tokenizeLoop_spec {alloc : Nat → Bool} (h : ∀ i, alloc i = true) {fuel : Nat}
    {p : Strtok} (hfuel : p.rest.length < fuel) (tokens : List Nat) (capacity requests : Nat) :
    ∃ found tail,
      Scanned p tokens (tokenizeLoop alloc fuel p tokens capacity requests) found tail := by
  induction fuel generalizing p tokens capacity requests with
  | zero => exact absurd hfuel (Nat.not_lt_zero _)
  | succ fuel ih =>
    obtain ⟨passed, s⟩ := p
    cases Strtok.finds s with
    | nothing skipped tail hs hd he hnext =>
      refine ⟨[], s, ?_⟩
      have hwords : tokensOf s = [] := by
        rw [hs]
        exact tokensOf_nothing hd he
      have hloop : tokenizeLoop alloc (fuel + 1) ⟨passed, s⟩ tokens capacity requests =
          ⟨.live tokens, tokens.length, passed ++ s, requests⟩ := by
        rw [tokenizeLoop, hnext]
        dsimp only
        rw [List.append_assoc, ← hs]
      rw [hloop]
      exact ⟨by simp, by simp, rfl, by simp [hwords], by simp [hwords], fun _ => rfl⟩
    | last skipped token rest hs hd hne ht he hnext =>
      obtain ⟨capacity', requests', hloop⟩ :=
        tokenizeLoop_succ h fuel (hnext passed) tokens capacity requests
      have hlen : rest.length < fuel :=
        (length_lt_of_split hs hne).trans_le (Nat.le_of_lt_succ hfuel)
      obtain ⟨found, tail, hscan⟩ := ih (p := ⟨passed ++ skipped ++ token, rest⟩) hlen
        (tokens ++ [(passed ++ skipped).length]) capacity' requests'
      -- nothing is left after the last token
      have hnil : tokensOf rest = [] := tokensOf_ended he
      obtain rfl : tail = rest := hscan.unchanged hnil
      rw [← List.append_nil (passed ++ skipped ++ token)] at hscan hloop
      rw [hloop]
      have hmark : Bytes.cstr ([] ++ tail) = [] := he
      refine ⟨_, _, Scanned.cons hd hne ht hmark ?_ hscan⟩
      rw [hs, tokensOf_last hd hne ht he, hnil]
    | token skipped token rest b hs hd hne ht hb hnext =>
      obtain ⟨capacity', requests', hloop⟩ :=
        tokenizeLoop_succ h fuel (hnext passed) tokens capacity requests
      have hlen : rest.length < fuel :=
        (Nat.lt_of_succ_lt (length_lt_of_split hs hne)).trans_le (Nat.le_of_lt_succ hfuel)
      obtain ⟨found, tail, hscan⟩ := ih (p := ⟨passed ++ skipped ++ token ++ [0], rest⟩) hlen
        (tokens ++ [(passed ++ skipped).length]) capacity' requests'
      rw [hloop]
      refine ⟨_, _, Scanned.cons hd hne ht (by simp [Bytes.cstr]) ?_ hscan⟩
      rw [hs, tokensOf_token hd hne ht hb]

/-- When memory does not run out, `tokenize` finds the words of the buffer, and leaves
a string in it that has at most the first of them. -/
theorem tokenize_spec {alloc : Nat → Bool} (h : ∀ i, alloc i = true) (requests : Nat)
    (buffer : Bytes) :
    ∃ entries, (tokenize alloc requests buffer).tokens = .live entries ∧
      (tokenize alloc requests buffer).numTokens = entries.length ∧
      entries.map (stringAt (tokenize alloc requests buffer).buffer) = tokensOf buffer ∧
      tokensOf (tokenize alloc requests buffer).buffer = (tokensOf buffer).take 1 := by
  unfold tokenize
  rw [if_pos (h requests)]
  obtain ⟨found, tail, hscan⟩ := tokenizeLoop_spec h (p := ⟨[], buffer⟩)
    (Nat.lt_succ_self buffer.length) [] initialTokenCapacity (requests + 1)
  refine ⟨found, hscan.tokens_eq, hscan.numTokens_eq, hscan.strings, ?_⟩
  rw [hscan.buffer_eq]
  exact hscan.first

end SisProg.Mojbash
