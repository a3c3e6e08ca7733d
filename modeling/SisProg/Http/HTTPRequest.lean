import SisProg.Lib.Bytes
import SisProg.Lib.Regex

/-!
# Parsing a request

`HTTPRequest::parse` cuts the text at the first CRLFCRLF, takes the first line of
what is left, and reads three words from it. Two regular expressions reject
absolute URLs and parent directories.

* `parse_eq_firstLine`: the result depends on the bytes before the first LF only,
  so the cut at CRLFCRLF never matters.
* `parse_ok`: what is known of the endpoint of an accepted request.
-/

namespace SisProg.Http

open Bytes (ascii)

/-- An exception: `Error::HTTPWithStatus` with its status, or any other
`std::exception`. -/
inductive Error
  | httpWithStatus (status : Nat) (what : Bytes)
  | runtimeError (what : Bytes)
deriving DecidableEq

def badRequest : Error := .httpWithStatus 400 (ascii "Bad Request")

def forbidden : Error := .httpWithStatus 403 (ascii "Forbidden")

structure HTTPRequest where
  method : Bytes := []
  endpoint : Bytes := []
  version : Bytes := []
deriving DecidableEq

/-- Line feed. -/
def lf : UInt8 := 10

def crlfcrlf : Bytes := [13, 10, 13, 10]

/-- `std::isspace` in the C locale. -/
def isspace (b : UInt8) : Bool := b == 32 || (9 ≤ b && b ≤ 13)

/-- `std::getline`: the line, and what is left. It fails on a stream that has
nothing left. -/
def getline : Bytes → Option (Bytes × Bytes)
  | [] => none
  | s => some (s.takeWhile (· ≠ lf), (s.dropWhile (· ≠ lf)).drop 1)

/-- `rl >> word`: skips white space and reads up to the next. On a stream with
nothing else left it fails and leaves `word` as it was. -/
def extract (rl word : Bytes) : Bytes × Bytes :=
  match rl.dropWhile isspace with
  | [] => (word, [])
  | s => (s.takeWhile (!isspace ·), s.dropWhile (!isspace ·))

/-- `^(?:https?:)?\/\/` -/
def absUrlRe : Regex UInt8 :=
  .seq .bol (.seq
    (.opt (.seq (.lit (ascii "http")) (.seq (.opt (.lit (ascii "s"))) (.lit (ascii ":")))))
    (.lit (ascii "//")))

/-- `\.\.` -/
def upRe : Regex UInt8 := .lit (ascii "..")

namespace HTTPRequest

def parseRequestLine (line : Bytes) (req : HTTPRequest) : Except Error HTTPRequest :=
  let (method, rl) := extract line req.method
  let (endpoint, rl) := extract rl req.endpoint
  let (version, _) := extract rl req.version
  if method = [] ∨ endpoint = [] ∨ version = [] then .error badRequest
  else if absUrlRe.search endpoint then .error badRequest
  else if upRe.search endpoint then .error forbidden
  else .ok { method, endpoint, version }

/-- The text up to the first CRLFCRLF, with the first CRLF of it. -/
def head (raw : Bytes) : Bytes :=
  match raw.find crlfcrlf with
  | none => raw
  | some pos => raw.take (pos + 2)

def parse (raw : Bytes) : Except Error HTTPRequest :=
  match getline (head raw) with
  | none => .error badRequest
  | some (line, _) => if line = [] then .error badRequest else parseRequestLine line {}

end HTTPRequest

/-! ## The two regular expressions -/

theorem absUrlRe_search {e : Bytes} :
    absUrlRe.search e = true ↔
      ascii "//" <+: e ∨ ascii "http://" <+: e ∨ ascii "https://" <+: e := by
  unfold absUrlRe
  rw [Regex.search_bol]
  simp only [Regex.mem_ends_seq, Regex.mem_ends_opt, Regex.mem_ends_lit]
  constructor
  · rintro ⟨q, m, (⟨m₁, ⟨h₁, -⟩, m₂, (⟨h₂, -⟩ | rfl), h₃, -⟩ | rfl), h₄, -⟩
    · have he : e = ascii "http" ++ (ascii "s" ++ (ascii ":" ++ (ascii "//" ++ q.2))) := by
        rw [← h₄, ← h₃, ← h₂, ← h₁]
      exact .inr (.inr ⟨q.2, he.symm⟩)
    · have he : e = ascii "http" ++ (ascii ":" ++ (ascii "//" ++ q.2)) := by
        rw [← h₄, ← h₃, ← h₁]
      exact .inr (.inl ⟨q.2, he.symm⟩)
    · exact .inl ⟨q.2, h₄.symm⟩
  · rintro (⟨t, rfl⟩ | ⟨t, rfl⟩ | ⟨t, rfl⟩)
    · exact ⟨(false, t), (true, ascii "//" ++ t), .inr rfl, rfl, rfl⟩
    · refine ⟨(false, t), (false, ascii "//" ++ t), .inl ?_, rfl, rfl⟩
      exact ⟨(false, ascii "://" ++ t), ⟨rfl, rfl⟩, (false, ascii "://" ++ t), .inr rfl, rfl, rfl⟩
    · refine ⟨(false, t), (false, ascii "//" ++ t), .inl ?_, rfl, rfl⟩
      exact ⟨(false, ascii "s://" ++ t), ⟨rfl, rfl⟩, (false, ascii "://" ++ t), .inl ⟨rfl, rfl⟩,
        rfl, rfl⟩

theorem upRe_search {e : Bytes} : upRe.search e = true ↔ ascii ".." <:+: e :=
  Regex.search_lit

/-! ## The first line -/

theorem takeWhile_eq_of_prefix {p : UInt8 → Bool} {s t : Bytes} (h : s <+: t)
    (hs : ∃ b, b ∈ s ∧ p b = false) : s.takeWhile p = t.takeWhile p := by
  obtain ⟨u, rfl⟩ := h
  induction s with
  | nil => simp at hs
  | cons b s ih =>
    rw [List.cons_append, List.takeWhile_cons, List.takeWhile_cons]
    split
    next hb =>
      obtain ⟨c, hc, hcf⟩ := hs
      rcases List.mem_cons.mp hc with rfl | hc
      · rw [hb] at hcf
        cases hcf
      · rw [ih ⟨c, hc, hcf⟩]
    next => rfl

/-- The bytes before the first LF. -/
def firstLine (s : Bytes) : Bytes := s.takeWhile (· ≠ lf)

/-- A prefix that contains a CRLFCRLF has the same first line. -/
theorem firstLine_eq_of_mem_lf {s t : Bytes} (h : s <+: t) (hlf : lf ∈ s) :
    firstLine s = firstLine t :=
  takeWhile_eq_of_prefix h ⟨lf, hlf, by simp⟩

theorem firstLine_head (raw : Bytes) : firstLine (HTTPRequest.head raw) = firstLine raw := by
  unfold HTTPRequest.head
  cases hpos : raw.find crlfcrlf with
  | none => rfl
  | some pos =>
    obtain ⟨u, hu⟩ := Bytes.prefix_drop_of_find hpos
    -- the LF of the first CRLF is kept
    have hlf : lf ∈ raw.take (pos + 2) := by
      rw [List.take_add, ← hu]
      exact List.mem_append_right _ (by simp [crlfcrlf, lf])
    exact firstLine_eq_of_mem_lf (List.take_prefix _ raw) hlf

theorem parseRequestLine_nil : HTTPRequest.parseRequestLine [] {} = .error badRequest := rfl

theorem parse_eq_firstLine (raw : Bytes) :
    HTTPRequest.parse raw = HTTPRequest.parseRequestLine (firstLine raw) {} := by
  unfold HTTPRequest.parse
  rw [← firstLine_head]
  cases HTTPRequest.head raw with
  | nil => exact parseRequestLine_nil.symm
  | cons b s =>
    show (if firstLine (b :: s) = [] then _ else _) = _
    split
    next h => rw [h, parseRequestLine_nil]
    next => rfl

/-! ## Accepted requests -/

/-- What `parseRequestLine` has checked of an endpoint that it accepts. -/
structure Accepted (endpoint : Bytes) : Prop where
  nonempty : endpoint ≠ []
  not_abs : ¬ ascii "//" <+: endpoint
  not_up : ¬ ascii ".." <:+: endpoint

theorem parse_ok {raw : Bytes} {req : HTTPRequest} (h : HTTPRequest.parse raw = .ok req) :
    Accepted req.endpoint := by
  rw [parse_eq_firstLine] at h
  unfold HTTPRequest.parseRequestLine at h
  dsimp only at h
  split at h
  next => cases h
  next hne =>
    split at h
    next => cases h
    next habs =>
      split at h
      next => cases h
      next hup =>
        cases h
        rw [absUrlRe_search] at habs
        rw [upRe_search] at hup
        exact ⟨fun he => hne (.inr (.inl he)), fun hp => habs (.inl hp), hup⟩

end SisProg.Http
