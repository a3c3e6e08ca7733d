import SisProg.Mojbash.Scanner

/-!
# Redirections

`parse_redirection` looks for `<` and `>` among the arguments. It records the argument
after an operator, and takes both out of the array by moving the rest of it down. An
operator that is the last argument has nothing after it and stays.

The array is a block of memory: to read or to store outside of it is undefined, and so
is a `memmove` of a negative length. What is behind the arguments does not matter.

* `stripped`, `removed`: the arguments that stay, and the pairs that go.
* `redirectionLoop_compacts`: what the loop has done with the arguments behind it.
* `parseRedirection_compacts`: the function computes `stripped` and `removed`, and has
  nothing to do on its own result.
-/

namespace SisProg.Mojbash

open Bytes (ascii)

/-- An operator: `<` or `>`. -/
inductive Direction
  | input
  | output
deriving DecidableEq

def Direction.operator : Direction → Bytes
  | .input => ascii "<"
  | .output => ascii ">"

/-! ## The source -/

/-- `FILESIZE`. -/
def filesize : Nat := 64

/-- `char inputFile[FILESIZE]`. -/
structure NameBuffer where
  bytes : Bytes
  size : bytes.length = filesize
deriving DecidableEq

namespace NameBuffer

/-- `{0}`. -/
def zero : NameBuffer := ⟨List.replicate filesize 0, List.length_replicate⟩

/-- `inputFile[0] = '\0'`. -/
def clear (b : NameBuffer) : NameBuffer :=
  ⟨b.bytes.set 0 0, by rw [List.length_set, b.size]⟩

/-- `strncpy(inputFile, s, FILESIZE - 1)`, and the NUL at the end. The bytes that `s`
leaves free are filled with NULs. -/
def copy (b : NameBuffer) (s : Bytes) : NameBuffer :=
  let padded := s.take (filesize - 1) ++ List.replicate (filesize - 1 - s.length) 0
  ⟨(padded ++ b.bytes.drop (filesize - 1)).set (filesize - 1) 0, by
    simp only [padded, List.length_set, List.length_append, List.length_take, List.length_drop,
      List.length_replicate, b.size, filesize]
    omega⟩

/-- The string in the buffer. -/
def name (b : NameBuffer) : Bytes := b.bytes.cstr

end NameBuffer

/-- The array of arguments, `*p_num_args`, and what has been recorded. An entry of the
array is a string, or `NULL`. -/
structure Redirection where
  args : List (Option Bytes)
  numArgs : Nat
  inputFile : NameBuffer
  inputRedirect : Bool
  outputFile : NameBuffer
  outputRedirect : Bool
deriving DecidableEq

/-- `memmove(&a[dst], &a[src], n * sizeof(char *))`. -/
def memmove {α : Type} (a : List α) (dst src : Nat) (n : Int) : Option (List α) :=
  if 0 ≤ n ∧ dst + n ≤ a.length ∧ src + n ≤ a.length then
    some (a.take dst ++ (a.drop src).take n.toNat ++ a.drop (dst + n.toNat))
  else none

/-- `strcmp(s, "<") == 0`, and the same for `>`. -/
def directionOf (s : Bytes) : Option Direction :=
  if s = Direction.input.operator then some .input
  else if s = Direction.output.operator then some .output
  else none

namespace Redirection

/-- The string `args[i]`. -/
def string (r : Redirection) (i : Nat) : Option Bytes := r.args[i]?.join

/-- The two conditions of the loop body: which operator is at `i`, if it has a
successor. -/
def operatorAt (r : Redirection) (i : Nat) : Option (Option Direction) :=
  if i + 1 < r.numArgs then (r.string i).map directionOf else some none

/-- Records the operand of an operator. -/
def record (r : Redirection) (operand : Bytes) : Direction → Redirection
  | .input => { r with inputFile := r.inputFile.copy operand, inputRedirect := true }
  | .output => { r with outputFile := r.outputFile.copy operand, outputRedirect := true }

/-- The branch for an operator at `i`. -/
def redirect (r : Redirection) (i : Nat) (d : Direction) : Option Redirection :=
  (r.string (i + 1)).bind fun operand =>
    (memmove r.args i (i + 2) (r.numArgs - (i + 2))).map fun args =>
      { r.record operand d with args := args, numArgs := r.numArgs - 2 }

/-- What has been recorded. -/
def file (r : Redirection) : Direction → NameBuffer
  | .input => r.inputFile
  | .output => r.outputFile

def flag (r : Redirection) : Direction → Bool
  | .input => r.inputRedirect
  | .output => r.outputRedirect

end Redirection

/-- The loop. Each round passes an argument or takes two away, so that fuel beyond the
number of arguments is enough. -/
def redirectionLoop : Nat → Nat → Redirection → Option Redirection
  | 0, _, _ => none
  | fuel + 1, i, r =>
    if i < r.numArgs then
      match r.operatorAt i with
      | none => none
      | some (some d) => (r.redirect i d).bind (redirectionLoop fuel i)
      | some none => redirectionLoop fuel (i + 1) r
    else some r

/-- `parse_redirection`. Undefined behaviour is `none`. -/
def parseRedirection (args : List (Option Bytes)) (numArgs : Nat)
    (inputFile outputFile : NameBuffer) : Option Redirection :=
  (redirectionLoop (numArgs + 1) 0
    ⟨args, numArgs, inputFile.clear, false, outputFile.clear, false⟩).bind fun r =>
      -- `args[num_args] = NULL`
      if r.numArgs < r.args.length then some { r with args := r.args.set r.numArgs none }
      else none

/-! ## What it is for -/

/-- The arguments that stay. -/
def stripped : List Bytes → List Bytes
  | a :: operand :: rest =>
    if (directionOf a).isSome then stripped rest else a :: stripped (operand :: rest)
  | args => args

/-- The operators that go, with their operands. -/
def removed : List Bytes → List (Direction × Bytes)
  | a :: operand :: rest =>
    match directionOf a with
    | some d => (d, operand) :: removed rest
    | none => removed (operand :: rest)
  | _ => []

/-- The operands of the pairs of one kind. -/
def operands (d : Direction) (args : List Bytes) : List Bytes :=
  (removed args).filterMap fun p => if p.1 = d then some p.2 else none

/-- The operand of the last pair of this kind. -/
def lastOperand (d : Direction) (args : List Bytes) : Option Bytes := (operands d args).getLast?

theorem stripped_operator {a : Bytes} {d : Direction} (h : directionOf a = some d)
    (operand : Bytes) (rest : List Bytes) : stripped (a :: operand :: rest) = stripped rest := by
  rw [stripped, h]
  rfl

/-- A word stays, and so does an operator at the end. -/
theorem stripped_word {a : Bytes} {rest : List Bytes} (h : directionOf a = none ∨ rest = []) :
    stripped (a :: rest) = a :: stripped rest := by
  cases rest with
  | nil => rfl
  | cons operand rest =>
    rw [stripped, h.resolve_right (List.cons_ne_nil _ _)]
    rfl

theorem operands_operator {a : Bytes} {e : Direction} (h : directionOf a = some e)
    (d : Direction) (operand : Bytes) (rest : List Bytes) :
    operands d (a :: operand :: rest) =
      if e = d then operand :: operands d rest else operands d rest := by
  unfold operands
  rw [removed, h]
  by_cases hd : e = d
  · simp [hd]
  · simp [hd]

theorem removed_word {a : Bytes} {rest : List Bytes} (h : directionOf a = none ∨ rest = []) :
    removed (a :: rest) = removed rest := by
  cases rest with
  | nil => rfl
  | cons operand rest => rw [removed, h.resolve_right (List.cons_ne_nil _ _)]

theorem operands_word {a : Bytes} {rest : List Bytes} (h : directionOf a = none ∨ rest = [])
    (d : Direction) : operands d (a :: rest) = operands d rest := by
  unfold operands
  rw [removed_word h]

theorem mem_of_mem_stripped {a : Bytes} {args : List Bytes} (h : a ∈ stripped args) :
    a ∈ args := by
  induction args using stripped.induct with
  | case1 b operand rest hop ih =>
    obtain ⟨d, hd⟩ := Option.isSome_iff_exists.mp hop
    rw [stripped_operator hd] at h
    exact List.mem_cons_of_mem b (List.mem_cons_of_mem operand (ih h))
  | case2 b operand rest hop ih =>
    rw [stripped_word (.inl (by simpa using hop))] at h
    rcases List.mem_cons.mp h with rfl | h
    · exact List.mem_cons_self
    · exact List.mem_cons_of_mem b (ih h)
  | case3 args hshort =>
    rcases args with _ | ⟨b, _ | ⟨operand, rest⟩⟩
    · exact h
    · exact h
    · exact absurd rfl (hshort b operand rest)

/-- An operator stays only if it is the last argument. -/
theorem operator_stripped {args : List Bytes} {i : Nat} {a : Bytes}
    (h : (stripped args)[i]? = some a) (ha : directionOf a ≠ none) :
    i + 1 = (stripped args).length := by
  induction args using stripped.induct generalizing i with
  | case1 b operand rest hop ih =>
    obtain ⟨d, hd⟩ := Option.isSome_iff_exists.mp hop
    rw [stripped_operator hd] at h ⊢
    exact ih h
  | case2 b operand rest hop ih =>
    have hb : directionOf b = none := by simpa using hop
    rw [stripped_word (.inl hb)] at h ⊢
    cases i with
    | zero =>
      obtain rfl : b = a := by simpa using h
      exact absurd hb ha
    | succ i => simpa using ih (by simpa using h)
  | case3 args hshort =>
    rcases args with _ | ⟨b, _ | ⟨operand, rest⟩⟩
    · simp [stripped] at h
    · obtain ⟨rfl, -⟩ : i = 0 ∧ b = a := by simpa [stripped, List.getElem?_cons] using h
      rfl
    · exact absurd rfl (hshort b operand rest)

/-- A list whose operators are at the end has nothing to strip. -/
theorem stripped_eq_self {args : List Bytes}
    (h : ∀ (i : Nat) (a : Bytes), args[i]? = some a → directionOf a ≠ none → i + 1 = args.length) :
    stripped args = args ∧ removed args = [] := by
  induction args using stripped.induct with
  | case1 a operand rest hop ih =>
    have hend := h 0 a rfl (Option.isSome_iff_ne_none.mp hop)
    simp at hend
  | case2 a operand rest hop ih =>
    have ha : directionOf a = none := by simpa using hop
    have hrest := ih fun i b hi hb => by simpa using h (i + 1) b hi hb
    rw [stripped_word (.inl ha), hrest.1, removed_word (.inl ha)]
    exact ⟨rfl, hrest.2⟩
  | case3 args hshort =>
    rcases args with _ | ⟨a, _ | ⟨operand, rest⟩⟩
    · exact ⟨rfl, rfl⟩
    · exact ⟨rfl, rfl⟩
    · exact absurd rfl (hshort a operand rest)

theorem stripped_stripped (args : List Bytes) :
    stripped (stripped args) = stripped args ∧ removed (stripped args) = [] :=
  stripped_eq_self fun _ _ => operator_stripped

/-! ## The buffers -/

/-- The buffer has room for `FILESIZE - 1` bytes of the string. -/
theorem name_copy (b : NameBuffer) {s : Bytes} (h : 0 ∉ s) :
    (b.copy s).name = s.take (filesize - 1) := by
  have hlen := b.size
  have htail : ∃ c, b.bytes.drop (filesize - 1) = [c] :=
    List.length_eq_one_iff.mp (by rw [List.length_drop, hlen]; rfl)
  obtain ⟨c, hc⟩ := htail
  have hpad : (s.take (filesize - 1) ++ List.replicate (filesize - 1 - s.length) (0 : UInt8)).length
      = filesize - 1 := by
    rw [List.length_append, List.length_take, List.length_replicate]
    omega
  have hbytes : (b.copy s).bytes =
      s.take (filesize - 1) ++ (List.replicate (filesize - 1 - s.length) 0 ++ [0]) := by
    unfold NameBuffer.copy
    dsimp only
    rw [hc, List.set_append_right _ _ (by rw [hpad]), hpad, List.append_assoc]
    simp
  have hzeros : Bytes.cstr (List.replicate (filesize - 1 - s.length) 0 ++ [0]) = [] := by
    cases filesize - 1 - s.length with
    | zero => rfl
    | succ n => rfl
  unfold NameBuffer.name
  rw [hbytes, Bytes.cstr_append, hzeros, List.append_nil]
  intro c hmem h0
  exact h (h0 ▸ List.mem_of_mem_take hmem)

/-! ## The loop -/

/-- `kept` has been passed, and `rest` is to be looked at. -/
structure Compacting (r : Redirection) (kept rest : List Bytes) : Prop where
  args : ∃ behind, behind ≠ [] ∧ r.args = (kept ++ rest).map some ++ behind
  numArgs : r.numArgs = (kept ++ rest).length

theorem string_of_compacting {r : Redirection} {kept rest : List Bytes} (h : Compacting r kept rest)
    {i : Nat} {s : Bytes} (hs : rest[i]? = some s) : r.string (kept.length + i) = some s := by
  obtain ⟨behind, -, hargs⟩ := h.args
  have hi : i < rest.length := (List.getElem?_eq_some_iff.mp hs).1
  unfold Redirection.string
  rw [hargs, List.getElem?_append_left (by simpa using hi), List.getElem?_map,
    List.getElem?_append_right (Nat.le_add_right _ _), Nat.add_sub_cancel_left, hs]
  rfl

/-- Moving the rest of the arguments over an operator and its operand. -/
theorem memmove_over {α : Type} (kept rest behind : List α) (a operand : α) :
    ∃ left, left ≠ [] ∧
      memmove (kept ++ a :: operand :: rest ++ behind) kept.length (kept.length + 2) rest.length =
        some (kept ++ rest ++ left) ∧
      (kept ++ rest ++ left).length = (kept ++ a :: operand :: rest ++ behind).length := by
  refine ⟨(a :: operand :: rest ++ behind).drop rest.length, ?_, ?_, ?_⟩
  · intro hnil
    have hlen := congrArg List.length hnil
    simp only [List.length_drop, List.length_cons, List.length_append, List.length_nil] at hlen
    omega
  · unfold memmove
    rw [if_pos]
    · have hdrop : (kept ++ a :: operand :: rest ++ behind).drop (kept.length + 2) =
          rest ++ behind := by
        rw [List.append_assoc, ← List.drop_drop, List.drop_left]
        rfl
      rw [hdrop, Int.toNat_natCast, List.take_left, ← List.drop_drop, List.append_assoc kept,
        List.take_left, List.drop_left]
    · simp only [List.length_append, List.length_cons]
      omega
  · simp only [List.length_append, List.length_drop, List.length_cons]
    omega

theorem operatorAt_of_compacting {r : Redirection} {kept rest : List Bytes} {a : Bytes}
    (h : Compacting r kept (a :: rest)) :
    r.operatorAt kept.length = some (if rest = [] then none else directionOf a) := by
  have hstring : r.string kept.length = some a := string_of_compacting (i := 0) h rfl
  unfold Redirection.operatorAt
  rw [h.numArgs, hstring]
  cases rest with
  | nil => exact if_neg (by simp)
  | cons operand rest => exact if_pos (by simp)

/-- What the branch for an operator does. -/
structure Redirected (r t : Redirection) (d : Direction) (operand : Bytes) : Prop where
  length : t.args.length = r.args.length
  flag : ∀ e, t.flag e = (r.flag e || d == e)
  name : ∀ e, (t.file e).name = if d = e then operand.take (filesize - 1) else (r.file e).name

theorem redirected_record {r t : Redirection} {d : Direction} {operand : Bytes}
    (hnul : 0 ∉ operand) (hlen : t.args.length = r.args.length)
    (ht : t = { r.record operand d with args := t.args, numArgs := t.numArgs }) :
    Redirected r t d operand := by
  refine ⟨hlen, ?_, ?_⟩
  · intro e
    rw [ht]
    cases d <;> cases e <;> simp [Redirection.flag, Redirection.record]
  · intro e
    rw [ht]
    cases d <;> cases e <;> simp [Redirection.file, Redirection.record, name_copy _ hnul]

theorem redirect_of_compacting {r : Redirection} {kept rest : List Bytes} {a operand : Bytes}
    (h : Compacting r kept (a :: operand :: rest)) (d : Direction) (hnul : 0 ∉ operand) :
    ∃ t, r.redirect kept.length d = some t ∧ Compacting t kept rest ∧
      Redirected r t d operand := by
  obtain ⟨behind, hbehind, hargs⟩ := h.args
  have hstring : r.string (kept.length + 1) = some operand := string_of_compacting h rfl
  have hnum : r.numArgs = kept.length + (rest.length + 2) := by
    rw [h.numArgs, List.length_append]
    rfl
  have hcount : (r.numArgs : Int) - (kept.length + 2) = rest.length := by omega
  obtain ⟨left, hleft, hmove, hlen⟩ :=
    memmove_over (kept.map some) (rest.map some) behind (some a) (some operand)
  have hmap : (kept ++ a :: operand :: rest).map some ++ behind =
      kept.map some ++ some a :: some operand :: rest.map some ++ behind := by simp
  rw [← hmap, ← hargs, List.length_map, List.length_map] at hmove
  refine ⟨{ r.record operand d with
    args := kept.map some ++ rest.map some ++ left, numArgs := r.numArgs - 2 }, ?_, ?_, ?_⟩
  · unfold Redirection.redirect
    rw [hstring, Option.bind_some, hcount, hmove]
    rfl
  · exact ⟨⟨left, hleft, by simp⟩, by simp [hnum, ← Nat.add_assoc]⟩
  · exact redirected_record hnul (by rw [hlen, ← hmap, ← hargs]) rfl

/-- What the loop has done with `rest` when it ends. -/
structure Compacted (r t : Redirection) (kept rest : List Bytes) : Prop where
  compacting : Compacting t (kept ++ stripped rest) []
  length : t.args.length = r.args.length
  flag : ∀ d, t.flag d = (r.flag d || !(operands d rest).isEmpty)
  name : ∀ d, (t.file d).name =
    ((lastOperand d rest).map (·.take (filesize - 1))).getD (r.file d).name

theorem compacted_nil {r : Redirection} {kept : List Bytes} (h : Compacting r kept []) :
    Compacted r r kept [] := by
  refine ⟨?_, rfl, ?_, ?_⟩
  · rwa [show stripped [] = [] from rfl, List.append_nil]
  · intro d
    exact (Bool.or_false _).symm
  · intro d
    rfl

/-- An argument that stays is passed. -/
theorem compacting_word {r : Redirection} {kept rest : List Bytes} {a : Bytes}
    (h : Compacting r kept (a :: rest)) : Compacting r (kept ++ [a]) rest := by
  have hsplit : kept ++ a :: rest = kept ++ [a] ++ rest := by simp
  obtain ⟨hargs, hnum⟩ := h
  rw [hsplit] at hargs hnum
  exact ⟨hargs, hnum⟩

theorem compacted_redirected {r u t : Redirection} {kept rest : List Bytes} {a operand : Bytes}
    {d : Direction} (ha : directionOf a = some d) (hu : Redirected r u d operand)
    (ht : Compacted u t kept rest) : Compacted r t kept (a :: operand :: rest) := by
  refine ⟨?_, ht.length.trans hu.length, ?_, ?_⟩
  · rw [stripped_operator ha]
    exact ht.compacting
  · intro e
    rw [ht.flag, hu.flag, operands_operator ha]
    by_cases hd : d = e
    · simp [hd]
    · simp [hd, beq_false_of_ne hd]
  · intro e
    rw [ht.name, hu.name]
    unfold lastOperand
    rw [operands_operator ha]
    by_cases hd : d = e
    · rw [if_pos hd, if_pos hd, List.getLast?_cons]
      cases (operands e rest).getLast? <;> rfl
    · rw [if_neg hd, if_neg hd]

theorem compacted_word {r t : Redirection} {kept rest : List Bytes} {a : Bytes}
    (ha : directionOf a = none ∨ rest = []) (ht : Compacted r t (kept ++ [a]) rest) :
    Compacted r t kept (a :: rest) := by
  obtain ⟨hcomp, hlen, hflag, hname⟩ := ht
  refine ⟨?_, hlen, ?_, ?_⟩
  · rw [stripped_word ha]
    rwa [List.append_assoc] at hcomp
  · intro d
    rw [operands_word ha]
    exact hflag d
  · intro d
    unfold lastOperand
    rw [operands_word ha]
    exact hname d

/-- The loop ends, and has then done with the arguments what it should. The induction is
on the fuel, and the cases are those of the loop body. -/
theorem redirectionLoop_compacts {fuel : Nat} {r : Redirection} {kept rest : List Bytes}
    (hfuel : rest.length < fuel) (h : Compacting r kept rest) (hnul : ∀ a ∈ rest, 0 ∉ a) :
    ∃ t, redirectionLoop fuel kept.length r = some t ∧ Compacted r t kept rest := by
  induction fuel generalizing r kept rest with
  | zero => exact absurd hfuel (Nat.not_lt_zero _)
  | succ fuel ih =>
    unfold redirectionLoop
    rw [h.numArgs]
    cases rest with
    | nil =>
      rw [if_neg (by simp)]
      exact ⟨r, rfl, compacted_nil h⟩
    | cons a rest =>
      rw [if_pos (by simp), operatorAt_of_compacting h]
      have hfuel' : rest.length < fuel := Nat.lt_of_succ_lt_succ hfuel
      cases hop : (if rest = [] then none else directionOf a) with
      | none =>
        have ha : directionOf a = none ∨ rest = [] := by
          by_cases hrest : rest = []
          · exact .inr hrest
          · exact .inl (by rwa [if_neg hrest] at hop)
        obtain ⟨t, ht, hdone⟩ := ih hfuel' (compacting_word h)
          fun b hb => hnul b (List.mem_cons_of_mem a hb)
        exact ⟨t, by simpa using ht, compacted_word ha hdone⟩
      | some d =>
        obtain _ | ⟨operand, rest⟩ := rest
        · cases hop
        · obtain ⟨u, hu, hcomp, hred⟩ := redirect_of_compacting h d (hnul operand (by simp))
          obtain ⟨t, ht, hdone⟩ := ih ((Nat.lt_succ_self _).trans hfuel') hcomp
            fun b hb => hnul b (by simp [hb])
          refine ⟨t, ?_, compacted_redirected hop hred hdone⟩
          dsimp only
          rw [hu, Option.bind_some, ht]

/-! ## The whole function -/

/-- What `parse_redirection` makes of the arguments: those that stay with a `NULL` after
them, and for each kind of operator whether there was a pair, and the first bytes of the
operand of the last one. -/
structure Parsed (args : List Bytes) (r : Redirection) : Prop where
  kept : ∃ behind, r.args = (stripped args).map some ++ none :: behind
  numArgs : r.numArgs = (stripped args).length
  flag : ∀ d, r.flag d = true ↔ operands d args ≠ []
  name : ∀ d operand, lastOperand d args = some operand →
    (r.file d).name = operand.take (filesize - 1)

theorem parseRedirection_parsed {args : List Bytes} (hnul : ∀ a ∈ args, 0 ∉ a)
    (c : Option Bytes) (behind : List (Option Bytes)) (inputFile outputFile : NameBuffer) :
    ∃ r, parseRedirection (args.map some ++ c :: behind) args.length inputFile outputFile = some r ∧
      r.args.length = (args.map some ++ c :: behind).length ∧ Parsed args r := by
  have hstart : Compacting ⟨args.map some ++ c :: behind, args.length, inputFile.clear, false,
      outputFile.clear, false⟩ [] args := ⟨⟨_, List.cons_ne_nil _ _, rfl⟩, rfl⟩
  obtain ⟨t, ht, hcomp, hlen, hflag, hname⟩ :=
    redirectionLoop_compacts (Nat.lt_succ_self args.length) hstart hnul
  obtain ⟨left, hleft, hargs⟩ := hcomp.args
  have hnum := hcomp.numArgs
  rw [List.nil_append, List.append_nil] at hargs hnum
  obtain ⟨e, left, rfl⟩ := List.exists_cons_of_ne_nil hleft
  refine ⟨{ t with args := (stripped args).map some ++ none :: left }, ?_, ?_, ⟨left, rfl⟩, hnum,
    ?_, ?_⟩
  · unfold parseRedirection
    rw [show ([] : List Bytes).length = 0 from rfl] at ht
    rw [ht, Option.bind_some, hargs, if_pos (by rw [hnum]; simp), hnum,
      List.set_append_right _ _ (by simp)]
    simp
  · rw [← hlen, hargs]
    simp
  · intro d
    have hd := hflag d
    cases d <;> simp_all [Redirection.flag]
  · intro d operand hop
    have hd := hname d
    rw [hop] at hd
    cases d <;> exact hd

/-- The function ends, stays within the array, and has made of the arguments what it
should. An operator is left at the end only, and running the function again changes no
argument and records nothing. -/
theorem parseRedirection_compacts {args : List Bytes} (hnul : ∀ a ∈ args, 0 ∉ a)
    (c : Option Bytes) (behind : List (Option Bytes)) (inputFile outputFile : NameBuffer) :
    ∃ r, parseRedirection (args.map some ++ c :: behind) args.length inputFile outputFile = some r ∧
      Parsed args r ∧
      (∀ (i : Nat) (a : Bytes), (stripped args)[i]? = some a → directionOf a ≠ none →
        i + 1 = (stripped args).length) ∧
      ∃ again, parseRedirection r.args r.numArgs r.inputFile r.outputFile = some again ∧
        again.args.take (r.numArgs + 1) = r.args.take (r.numArgs + 1) ∧
        again.numArgs = r.numArgs ∧ ∀ d, again.flag d = false := by
  obtain ⟨r, hr, -, hparsed⟩ := parseRedirection_parsed hnul c behind inputFile outputFile
  refine ⟨r, hr, hparsed, fun _ _ => operator_stripped, ?_⟩
  obtain ⟨left, hleft⟩ := hparsed.kept
  obtain ⟨again, hagain, -, hsecond⟩ :=
    parseRedirection_parsed (fun a ha => hnul a (mem_of_mem_stripped ha)) none left r.inputFile
      r.outputFile
  obtain ⟨hself, hnone⟩ := stripped_stripped args
  obtain ⟨left', hleft'⟩ := hsecond.kept
  rw [hself] at hleft'
  refine ⟨again, ?_, ?_, ?_, ?_⟩
  · rw [hleft, hparsed.numArgs]
    exact hagain
  · rw [hleft, hleft', hparsed.numArgs, List.append_cons, List.append_cons _ _ left]
    simp [List.take_append]
  · rw [hparsed.numArgs, hsecond.numArgs, hself]
  · intro d
    rw [Bool.eq_false_iff]
    intro hflag
    refine (hsecond.flag d).mp hflag ?_
    unfold operands
    rw [hnone]
    rfl

/-- Adjacent operators, and one at the end. -/
def crowded : List Bytes :=
  [ascii "<", ascii "<", ascii "a", ascii ">", ascii ">", ascii "b", ascii "<"]

theorem parseRedirection_compacts_crowded :
    stripped crowded = [ascii "a", ascii "b", ascii "<"] ∧
    ∃ r, parseRedirection (crowded.map some ++ none :: []) crowded.length .zero .zero = some r ∧
      Parsed crowded r := by
  refine ⟨by decide, ?_⟩
  have hnul : ∀ a ∈ crowded, 0 ∉ a := by decide
  obtain ⟨r, hr, hparsed, -⟩ := parseRedirection_compacts hnul none [] .zero .zero
  exact ⟨r, hr, hparsed⟩

end SisProg.Mojbash
