import Mathlib.Algebra.Group.Nat.Defs
import SisProg.Mojbash.Scanner

/-!
# The array that `tokenize` fills

`tokenize` of the scanner module appends to a list. Here the array is a block of
memory: a store outside of it is undefined, what nobody has stored is uninitialised,
and `capacity` is an `int`. An entry is left free for the `NULL` at the end: the array
is doubled when it has room for one more pointer only.

* `arrayLoop_represents`: as long as `capacity` does not overflow, no store is out of
  bounds, and the array holds the list.
* `tokenizeArray_splits`: so `tokenize` returns the words of the buffer and a `NULL`
  after them, if there are fewer than `maxTokens`.

The capacities are `10`, `20`, and so on. The largest of them that an `int` holds is
`maxTokens`, and the `maxTokens`th token asks for twice as much
(`capacity_overflows`). The buffer of `main` has `MAX_LINE` bytes.
-/

namespace SisProg.Mojbash

open Bytes (ascii)

/-- An entry of the array: uninitialised, `NULL`, or a pointer into the buffer. -/
inductive Cell
  | uninit
  | null
  | pointer (p : Nat)
deriving DecidableEq

/-- `INT_MAX`. -/
def intMax : Nat := 2 ^ 31 - 1

/-- The variables of `tokenize`: the block that `tokens` points to, and the two
counters. -/
structure TokenArray where
  cells : List Cell
  capacity : Nat
  numTokens : Nat
deriving DecidableEq

/-- What `tokenize` returns and changes; `none` for `NULL`. -/
structure Returned where
  cells : Option (List Cell)
  numTokens : Nat
  buffer : Bytes
  requests : Nat
deriving DecidableEq

namespace TokenArray

/-- `malloc(capacity * sizeof(char *))`. -/
def malloc (capacity : Nat) : TokenArray :=
  ⟨List.replicate capacity .uninit, capacity, 0⟩

/-- `tokens[i] = c`, which is undefined outside of the block. -/
def store (a : TokenArray) (i : Nat) (c : Cell) : Option TokenArray :=
  if i < a.cells.length then some { a with cells := a.cells.set i c } else none

/-- `tokens[*num_tokens] = token; (*num_tokens)++`. -/
def push (a : TokenArray) (token : Nat) : Option TokenArray :=
  (a.store a.numTokens (.pointer token)).bind fun a =>
    if a.numTokens < intMax then some { a with numTokens := a.numTokens + 1 } else none

/-- `realloc(tokens, capacity * sizeof(char *))` with the capacity doubled. -/
def grow (a : TokenArray) : TokenArray :=
  { a with
    cells := a.cells ++ List.replicate (a.capacity * 2 - a.cells.length) .uninit
    capacity := a.capacity * 2 }

end TokenArray

/-- The loop of `tokenize`, and the store after it. Undefined behaviour is `none`. -/
def arrayLoop (alloc : Nat → Bool) : Nat → Strtok → TokenArray → Nat → Option Returned
  | 0, _, _, _ => none
  | fuel + 1, p, a, requests =>
    match p.next with
    | (none, p) =>
      (a.store a.numTokens .null).map fun a =>
        ⟨some a.cells, a.numTokens, p.passed ++ p.rest, requests⟩
    | (some token, p) =>
      if a.numTokens < a.capacity - 1 then
        (a.push token).bind fun a => arrayLoop alloc fuel p a requests
      -- `capacity *= 2`
      else if intMax < a.capacity * 2 then none
      else if alloc requests then
        (a.grow.push token).bind fun a => arrayLoop alloc fuel p a (requests + 1)
      else some ⟨none, a.numTokens, p.passed ++ p.rest, requests + 1⟩

/-- `tokenize`, with the array as a block of memory. -/
def tokenizeArray (alloc : Nat → Bool) (requests : Nat) (buffer : Bytes) : Option Returned :=
  if alloc requests then
    arrayLoop alloc (buffer.length + 1) ⟨[], buffer⟩ (.malloc initialTokenCapacity) (requests + 1)
  else some ⟨none, 0, buffer, requests + 1⟩

/-- `10`, doubled as long as an `int` holds it. -/
def maxTokens : Nat := initialTokenCapacity * 2 ^ 27

/-! ## The block -/

/-- The array holds `entries`, and has at least one entry left. -/
structure Holds (a : TokenArray) (entries : List Nat) : Prop where
  numTokens : a.numTokens = entries.length
  room : a.numTokens < a.capacity
  block : a.cells.length = a.capacity
  fits : a.capacity ≤ intMax
  stored : ∀ (i p : Nat), entries[i]? = some p → a.cells[i]? = some (.pointer p)

theorem holds_malloc {capacity : Nat} (hpos : 0 < capacity) (h : capacity ≤ intMax) :
    Holds (.malloc capacity) [] :=
  ⟨rfl, hpos, List.length_replicate, h, by simp⟩

theorem holds_push {a : TokenArray} {entries : List Nat} (h : Holds a entries)
    (hroom : a.numTokens < a.capacity - 1) (token : Nat) :
    ∃ b, a.push token = some b ∧ Holds b (entries ++ [token]) ∧ b.capacity = a.capacity := by
  obtain ⟨hnum, hlt, hblock, hfits, hstored⟩ := h
  have hstore : a.numTokens < a.cells.length := hblock ▸ hlt
  refine ⟨⟨a.cells.set a.numTokens (.pointer token), a.capacity, a.numTokens + 1⟩, ?_, ?_, rfl⟩
  · simp only [TokenArray.push, TokenArray.store, if_pos hstore, Option.bind_some]
    exact if_pos (hlt.trans_le hfits)
  · refine ⟨by simp [hnum], Nat.add_lt_of_lt_sub hroom, by simpa using hblock, hfits, ?_⟩
    intro i p hp
    rcases Nat.lt_trichotomy i entries.length with hi | rfl | hi
    · rw [List.getElem?_append_left hi] at hp
      rw [List.getElem?_set_ne (hnum ▸ hi.ne')]
      exact hstored i p hp
    · obtain rfl : token = p := by simpa using hp
      rw [← hnum, List.getElem?_set_self hstore]
    · rw [List.getElem?_eq_none (by simp; omega)] at hp
      cases hp

/-- Once it is doubled, the array has room for another pointer and the `NULL`. -/
theorem room_grow {a : TokenArray} {entries : List Nat} (h : Holds a entries) :
    a.grow.numTokens < a.grow.capacity - 1 := by
  have hlt := h.room
  show a.numTokens < a.capacity * 2 - 1
  omega

theorem holds_grow {a : TokenArray} {entries : List Nat} (h : Holds a entries)
    (hfits : a.capacity * 2 ≤ intMax) : Holds a.grow entries := by
  have hroom := room_grow h
  obtain ⟨hnum, hlt, hblock, -, hstored⟩ := h
  refine ⟨hnum, Nat.lt_of_lt_pred hroom, ?_, hfits, ?_⟩
  · simp only [TokenArray.grow, List.length_append, List.length_replicate, hblock]
    omega
  · intro i p hp
    have hcell := hstored i p hp
    have hi := (List.getElem?_eq_some_iff.mp hcell).1
    show (a.cells ++ _)[i]? = _
    rw [List.getElem?_append_left hi, hcell]

/-! ## The loop -/

/-- The block `cells` holds `entries`, and a `NULL` after them. -/
structure Filled (cells : List Cell) (entries : List Nat) : Prop where
  stored : ∀ (i p : Nat), entries[i]? = some p → cells[i]? = some (.pointer p)
  terminated : cells[entries.length]? = some .null

/-- What is returned is what the loop over lists returns, with the list in a block. -/
structure Represents (r : Returned) (t : Tokenized) : Prop where
  numTokens : r.numTokens = t.numTokens
  buffer : r.buffer = t.buffer
  requests : r.requests = t.requests
  null : t.tokens = .null → r.cells = none
  live : ∀ entries, t.tokens = .live entries → ∃ cells, r.cells = some cells ∧ Filled cells entries

/-- The store after the loop. -/
theorem holds_terminate {a : TokenArray} {entries : List Nat} (h : Holds a entries) :
    ∃ b, a.store a.numTokens .null = some b ∧ b.numTokens = entries.length ∧
      Filled b.cells entries := by
  obtain ⟨hnum, hlt, hblock, -, hstored⟩ := h
  have hstore : a.numTokens < a.cells.length := hblock ▸ hlt
  refine ⟨{ a with cells := a.cells.set a.numTokens .null }, if_pos hstore, hnum, ?_, ?_⟩
  · intro i p hp
    have hi := (List.getElem?_eq_some_iff.mp hp).1
    show (a.cells.set a.numTokens .null)[i]? = _
    rw [List.getElem?_set_ne (hnum ▸ hi.ne')]
    exact hstored i p hp
  · show (a.cells.set a.numTokens .null)[entries.length]? = _
    rw [← hnum, List.getElem?_set_self hstore]

/-- `maxTokens` fits an `int`, and twice as much does not. -/
theorem maxTokens_bounds : maxTokens ≤ intMax ∧ intMax < maxTokens * 2 := by decide

theorem capacity_le {capacity d : Nat} (h : capacity * 2 ^ d = maxTokens) :
    capacity ≤ maxTokens := by
  rw [← h]
  exact Nat.le_mul_of_pos_right _ (Nat.two_pow_pos d)

/-- The capacities between `10` and `maxTokens`. -/
theorem capacity_cases {capacity d : Nat} (h : capacity * 2 ^ d = maxTokens) :
    capacity = maxTokens ∨ ∃ e, capacity * 2 * 2 ^ e = maxTokens := by
  cases d with
  | zero => exact .inl (by rw [← h, Nat.pow_zero, Nat.mul_one])
  | succ e => exact .inr ⟨e, by rw [← h, Nat.pow_succ', ← Nat.mul_assoc]⟩

theorem arrayLoop_represents {alloc : Nat → Bool} {fuel : Nat} {p : Strtok}
    (hfuel : p.rest.length < fuel) {a : TokenArray} {entries : List Nat} (h : Holds a entries)
    {d total : Nat} (hcap : a.capacity * 2 ^ d = maxTokens)
    (htotal : total = entries.length + (tokensOf p.rest).length) (hlt : total < maxTokens)
    (requests : Nat) :
    ∃ r, arrayLoop alloc fuel p a requests = some r ∧
      Represents r (tokenizeLoop alloc fuel p entries a.capacity requests) := by
  induction fuel generalizing p a entries d requests with
  | zero => exact absurd hfuel (Nat.not_lt_zero _)
  | succ fuel ih =>
    rcases p.next_cases with ⟨q, hnext, -⟩ | ⟨token, q, w, hnext, hwords, hlen⟩
    · obtain ⟨b, hstore, hnum, hfilled⟩ := holds_terminate h
      rw [arrayLoop, tokenizeLoop, hnext]
      dsimp only
      rw [hstore]
      refine ⟨_, rfl, hnum, rfl, rfl, fun hnull => Tokens.noConfusion hnull, ?_⟩
      intro entries' hlive
      obtain rfl : entries = entries' := by simpa using hlive
      exact ⟨_, rfl, hfilled⟩
    · have hfuel' : q.rest.length < fuel := hlen.trans_le (Nat.le_of_lt_succ hfuel)
      have htotal' : total = (entries ++ [token]).length + (tokensOf q.rest).length :=
        htotal.trans (length_snoc_add hwords entries token).symm
      rw [arrayLoop, tokenizeLoop, hnext]
      dsimp only
      rw [h.numTokens]
      split
      next hroom =>
        obtain ⟨b, hpush, hb, hbcap⟩ := holds_push h (h.numTokens ▸ hroom) token
        rw [hpush, Option.bind_some, ← hbcap]
        exact ih hfuel' hb (hbcap ▸ hcap) htotal' requests
      next hfull =>
        have hle : a.capacity ≤ total := by
          rw [htotal, hwords, List.length_cons]
          omega
        obtain ⟨e, hcap'⟩ := (capacity_cases hcap).resolve_left (hle.trans_lt hlt).ne
        have hfits : a.capacity * 2 ≤ intMax := (capacity_le hcap').trans maxTokens_bounds.1
        rw [if_neg (Nat.not_lt.mpr hfits)]
        split
        next =>
          obtain ⟨b, hpush, hb, hbcap⟩ := holds_push (holds_grow h hfits) (room_grow h) token
          have hdouble : b.capacity = a.capacity * 2 := hbcap
          rw [hpush, Option.bind_some, ← hdouble]
          exact ih hfuel' hb (hdouble ▸ hcap') htotal' (requests + 1)
        next => exact ⟨_, rfl, rfl, rfl, rfl, fun _ => rfl, fun _ hlive => Tokens.noConfusion hlive⟩

/-- The `maxTokens`th token doubles a capacity that an `int` does not hold twice. -/
theorem arrayLoop_overflows {fuel : Nat} {p : Strtok} (hfuel : p.rest.length < fuel)
    {a : TokenArray} {entries : List Nat} (h : Holds a entries) {d : Nat}
    (hcap : a.capacity * 2 ^ d = maxTokens)
    (hle : maxTokens ≤ entries.length + (tokensOf p.rest).length) (requests : Nat) :
    arrayLoop (fun _ => true) fuel p a requests = none := by
  induction fuel generalizing p a entries d requests with
  | zero => exact absurd hfuel (Nat.not_lt_zero _)
  | succ fuel ih =>
    rcases p.next_cases with ⟨q, hnext, hwords⟩ | ⟨token, q, w, hnext, hwords, hlen⟩
    · have hlt := h.room.trans_le (capacity_le hcap)
      rw [h.numTokens] at hlt
      rw [hwords] at hle
      exact absurd hlt (Nat.not_lt.mpr hle)
    · have hfuel' : q.rest.length < fuel := hlen.trans_le (Nat.le_of_lt_succ hfuel)
      have hle' : maxTokens ≤ (entries ++ [token]).length + (tokensOf q.rest).length :=
        hle.trans (length_snoc_add hwords entries token).ge
      rw [arrayLoop, hnext]
      dsimp only
      split
      next hroom =>
        obtain ⟨b, hpush, hb, hbcap⟩ := holds_push h hroom token
        rw [hpush, Option.bind_some]
        exact ih hfuel' hb (hbcap ▸ hcap) hle' requests
      next =>
        split
        next => rfl
        next hfits =>
          have hne : a.capacity ≠ maxTokens := by
            intro heq
            rw [heq] at hfits
            exact hfits maxTokens_bounds.2
          obtain ⟨e, hcap'⟩ := (capacity_cases hcap).resolve_left hne
          have hgrown := holds_grow h (Nat.not_lt.mp hfits)
          obtain ⟨b, hpush, hb, hbcap⟩ := holds_push hgrown (room_grow h) token
          have hdouble : b.capacity = a.capacity * 2 := hbcap
          rw [if_pos rfl, hpush, Option.bind_some]
          exact ih hfuel' hb (hdouble ▸ hcap') hle' (requests + 1)

/-! ## The whole function -/

/-- `tokenize` returns an array with pointers to the strings `ws`, in order, and a `NULL`
after them, and stores their number. -/
def Splits (r : Option Returned) (ws : List Bytes) : Prop :=
  ∃ t cells, r = some t ∧ t.cells = some cells ∧ t.numTokens = ws.length ∧
    (∀ (i : Nat) (w : Bytes), ws[i]? = some w →
      ∃ p, cells[i]? = some (.pointer p) ∧ stringAt t.buffer p = w) ∧
    cells[t.numTokens]? = some .null

theorem holds_initial : Holds (.malloc initialTokenCapacity) [] :=
  holds_malloc (by decide) (by decide)

/-- With fewer than `maxTokens` tokens, the array is what the list stands for. -/
theorem tokenizeArray_represents (alloc : Nat → Bool) (requests : Nat) {buffer : Bytes}
    (h : (tokensOf buffer).length < maxTokens) :
    ∃ r, tokenizeArray alloc requests buffer = some r ∧
      Represents r (tokenize alloc requests buffer) := by
  unfold tokenizeArray tokenize
  split
  next =>
    exact @arrayLoop_represents alloc _ ⟨[], buffer⟩ (Nat.lt_succ_self buffer.length) _ _
      holds_initial 27 _ rfl (Nat.zero_add _).symm h (requests + 1)
  next => exact ⟨_, rfl, rfl, rfl, rfl, fun _ => rfl, fun _ hlive => Tokens.noConfusion hlive⟩

/-- With `maxTokens` tokens or more, `capacity` overflows. -/
theorem tokenizeArray_overflows (requests : Nat) {buffer : Bytes}
    (h : maxTokens ≤ (tokensOf buffer).length) :
    tokenizeArray (fun _ => true) requests buffer = none := by
  have hle : maxTokens ≤ ([] : List Nat).length + (tokensOf buffer).length := by
    rwa [List.length_nil, Nat.zero_add]
  exact @arrayLoop_overflows _ ⟨[], buffer⟩ (Nat.lt_succ_self buffer.length) _ _
    holds_initial 27 rfl hle (requests + 1)

/-- When memory does not run out, `tokenize` returns the words of a buffer that has fewer
than `maxTokens`, and stores nothing outside of its array. -/
theorem tokenizeArray_splits {alloc : Nat → Bool} (h : ∀ i, alloc i = true) (requests : Nat)
    {buffer : Bytes} (hlt : (tokensOf buffer).length < maxTokens) :
    Splits (tokenizeArray alloc requests buffer) (words isDelim buffer.cstr) ∧
    (∀ w ∈ words isDelim buffer.cstr, w ≠ [] ∧ ∀ b ∈ w, isDelim b = false) ∧
    (words isDelim buffer.cstr).flatten = buffer.cstr.filter (!isDelim ·) := by
  refine ⟨?_, words_spec buffer.cstr⟩
  obtain ⟨r, hr, hrep⟩ := tokenizeArray_represents alloc requests hlt
  obtain ⟨entries, htok, hnum, hstr, -⟩ := tokenize_spec h requests buffer
  obtain ⟨cells, hcells, hstored, hnull⟩ := hrep.live entries htok
  have hlen : r.numTokens = entries.length := hrep.numTokens.trans hnum
  have hwords : entries.map (stringAt r.buffer) = words isDelim buffer.cstr := by
    rw [hrep.buffer]
    exact hstr
  refine ⟨r, cells, hr, hcells, ?_, ?_, by rw [hlen]; exact hnull⟩
  · rw [← hwords, List.length_map, hlen]
  · intro i w hw
    rw [← hwords, List.getElem?_map, Option.map_eq_some_iff] at hw
    obtain ⟨p, hp, rfl⟩ := hw
    exact ⟨p, hstored i p hp, rfl⟩

/-- With the eleventh word the array has grown. -/
theorem tokenizeArray_splits_echo :
    Splits (tokenizeArray (fun _ => true) 0 (ascii "mojecho a\tb c d e f g h i j\n"))
      [ascii "mojecho", ascii "a", ascii "b", ascii "c", ascii "d", ascii "e", ascii "f",
        ascii "g", ascii "h", ascii "i", ascii "j"] :=
  (tokenizeArray_splits (fun _ => rfl) 0 (by decide)).1

/-- A buffer of one-letter words. -/
def letters (n : Nat) : Bytes := (List.replicate n [97, 32]).flatten

theorem tokensOf_letters (n : Nat) : (tokensOf (letters n)).length = n := by
  have hnonzero : 0 ∉ letters n := by
    simp [letters]
  unfold tokensOf
  rw [Bytes.cstr_eq_self hnonzero]
  clear hnonzero
  induction n with
  | zero => rfl
  | succ n ih =>
    have hcons : letters (n + 1) = [] ++ [97] ++ 32 :: letters n := by
      simp [letters, List.replicate_succ]
    have hletter : ∀ b ∈ ([97] : Bytes), isDelim b = false := by
      intro b hb
      rw [List.mem_singleton.mp hb]
      rfl
    rw [hcons, words_append_word (by simp) (by simp) hletter rfl, List.length_cons, ih]

/-- For `maxTokens` words `capacity *= 2` overflows. -/
theorem capacity_overflows :
    maxTokens = 1342177280 ∧
    ¬ Splits (tokenizeArray (fun _ => true) 0 (letters maxTokens))
      (words isDelim (letters maxTokens).cstr) := by
  refine ⟨by decide, ?_⟩
  rintro ⟨t, cells, hsome, -⟩
  rw [tokenizeArray_overflows 0 (tokensOf_letters maxTokens).ge] at hsome
  cases hsome

end SisProg.Mojbash
