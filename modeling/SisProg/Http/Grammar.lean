import SisProg.Http.HTTPRequest
import SisProg.Lib.Words

/-!
# The grammar of requests

`HTTPRequest::parse` is a search, a cut, `getline`, three extractions and two regular
expressions. What it accepts is a condition on the words of the first line
(`parse_grammar`): there are three of them at least, and the second is neither an
absolute URL nor mentions a parent directory.
-/

namespace SisProg.Http

open Bytes (ascii)

/-! ## Extracting words -/

theorem extract_of_nil {rl : Bytes} (h : words isspace rl = []) (word : Bytes) :
    extract rl word = (word, []) := by
  unfold extract
  rw [← words_dropWhile] at h
  cases hrl : rl.dropWhile isspace with
  | nil => rfl
  | cons b s =>
    rw [hrl, words_eq_cons_of_head (not_of_dropWhile_eq_cons hrl)] at h
    cases h

theorem extract_of_cons {rl w : Bytes} {ws : List Bytes} (h : words isspace rl = w :: ws)
    (word : Bytes) : ∃ rest, extract rl word = (w, rest) ∧ words isspace rest = ws := by
  unfold extract
  rw [← words_dropWhile] at h
  cases hrl : rl.dropWhile isspace with
  | nil =>
    rw [hrl] at h
    cases h
  | cons b s =>
    have hb := not_of_dropWhile_eq_cons hrl
    rw [hrl, words_eq_cons_of_head hb] at h
    obtain ⟨rfl, rfl⟩ := List.cons.inj h
    exact ⟨s.dropWhile (!isspace ·), by simp [hb], rfl⟩

theorem ne_nil_of_mem_words {p : UInt8 → Bool} {s w : Bytes} (h : w ∈ words p s) : w ≠ [] := by
  simpa using (List.mem_filter.mp h).2

/-! ## The grammar -/

/-- The endpoint begins like an absolute URL, or like a path with a host. -/
def AbsoluteUrl (endpoint : Bytes) : Prop :=
  ascii "//" <+: endpoint ∨ ascii "http://" <+: endpoint ∨ ascii "https://" <+: endpoint

/-- The endpoint has two dots in a row. -/
def TwoDots (endpoint : Bytes) : Prop := ascii ".." <:+: endpoint

instance (endpoint : Bytes) : Decidable (AbsoluteUrl endpoint) :=
  inferInstanceAs (Decidable (_ ∨ _))

instance (endpoint : Bytes) : Decidable (TwoDots endpoint) :=
  inferInstanceAs (Decidable (_ <:+: _))

/-- With fewer than three words on the line, one of the three stays empty. -/
theorem parseRequestLine_of_few {line : Bytes} (h : (words isspace line).length < 3) :
    HTTPRequest.parseRequestLine line {} = .error badRequest := by
  unfold HTTPRequest.parseRequestLine
  match hws : words isspace line with
  | [] =>
    rw [extract_of_nil hws]
    exact if_pos (.inl rfl)
  | [m] =>
    obtain ⟨rest, hm, hrest⟩ := extract_of_cons hws []
    rw [hm]
    dsimp only
    rw [extract_of_nil hrest]
    exact if_pos (.inr (.inl rfl))
  | [m, e] =>
    obtain ⟨rest, hm, hrest⟩ := extract_of_cons hws []
    obtain ⟨rest', he, hrest'⟩ := extract_of_cons hrest []
    rw [hm]
    dsimp only
    rw [he]
    dsimp only
    rw [extract_of_nil hrest']
    exact if_pos (.inr (.inr rfl))
  | m :: e :: v :: ws =>
    rw [hws] at h
    simp only [List.length_cons] at h
    omega

theorem parseRequestLine_of_words {line m e v : Bytes} {ws : List Bytes}
    (h : words isspace line = m :: e :: v :: ws) :
    HTTPRequest.parseRequestLine line {} =
      if AbsoluteUrl e then .error badRequest
      else if TwoDots e then .error forbidden
      else .ok ⟨m, e, v⟩ := by
  obtain ⟨rest, hm, hrest⟩ := extract_of_cons h []
  obtain ⟨rest', he, hrest'⟩ := extract_of_cons hrest []
  obtain ⟨rest'', hv, -⟩ := extract_of_cons hrest' []
  have hne : ∀ w ∈ m :: e :: v :: ws, w ≠ [] := by
    rw [← h]
    exact fun w => ne_nil_of_mem_words
  have hfull : ¬ (m = [] ∨ e = [] ∨ v = []) := by
    rintro (hw | hw | hw)
    · exact hne m (by simp) hw
    · exact hne e (by simp) hw
    · exact hne v (by simp) hw
  unfold HTTPRequest.parseRequestLine
  rw [hm]
  dsimp only
  rw [he]
  dsimp only
  rw [hv]
  dsimp only
  rw [if_neg hfull]
  simp only [absUrlRe_search, upRe_search]
  rfl

theorem three_words_or_few (ws : List Bytes) :
    (∃ m e v ws', ws = m :: e :: v :: ws') ∨ ws.length < 3 := by
  match ws with
  | [] | [_] | [_, _] => exact .inr (by simp)
  | m :: e :: v :: ws' => exact .inl ⟨m, e, v, ws', rfl⟩

theorem ne_of_few {ws : List Bytes} (h : ws.length < 3) (m e v : Bytes) (ws' : List Bytes) :
    ws ≠ m :: e :: v :: ws' := by
  rintro rfl
  simp only [List.length_cons] at h
  omega

/-- There are three words and the line is judged by the second, or there are fewer. -/
theorem parse_cases (raw : Bytes) :
    (∃ m e v ws, words isspace (firstLine raw) = m :: e :: v :: ws ∧
      HTTPRequest.parse raw =
        if AbsoluteUrl e then .error badRequest
        else if TwoDots e then .error forbidden
        else .ok ⟨m, e, v⟩) ∨
    ((words isspace (firstLine raw)).length < 3 ∧ HTTPRequest.parse raw = .error badRequest) := by
  rw [parse_eq_firstLine]
  rcases three_words_or_few (words isspace (firstLine raw)) with ⟨m, e, v, ws, hws⟩ | hfew
  · exact .inl ⟨m, e, v, ws, hws, parseRequestLine_of_words hws⟩
  · exact .inr ⟨hfew, parseRequestLine_of_few hfew⟩

theorem parse_eq_ok_iff {raw : Bytes} {req : HTTPRequest} :
    HTTPRequest.parse raw = .ok req ↔ ∃ ws,
      words isspace (firstLine raw) = req.method :: req.endpoint :: req.version :: ws ∧
      ¬ AbsoluteUrl req.endpoint ∧ ¬ TwoDots req.endpoint := by
  rcases parse_cases raw with ⟨m, e, v, ws, hws, hparse⟩ | ⟨hfew, hparse⟩
  · rw [hparse, hws]
    constructor
    · intro h
      split at h
      next => cases h
      next habs =>
        split at h
        next => cases h
        next hdots =>
          cases h
          exact ⟨ws, rfl, habs, hdots⟩
    · rintro ⟨ws', heq, habs, hdots⟩
      simp only [List.cons.injEq] at heq
      obtain ⟨rfl, rfl, rfl, -⟩ := heq
      rw [if_neg habs, if_neg hdots]
  · rw [hparse]
    constructor
    · intro h
      cases h
    · rintro ⟨ws, heq, -⟩
      exact absurd heq (ne_of_few hfew _ _ _ _)

theorem badRequest_ne_forbidden :
    (.error badRequest : Except Error HTTPRequest) ≠ .error forbidden := by
  decide

theorem parse_eq_forbidden_iff {raw : Bytes} :
    HTTPRequest.parse raw = .error forbidden ↔ ∃ m e v ws,
      words isspace (firstLine raw) = m :: e :: v :: ws ∧ ¬ AbsoluteUrl e ∧ TwoDots e := by
  rcases parse_cases raw with ⟨m, e, v, ws, hws, hparse⟩ | ⟨hfew, hparse⟩
  · rw [hparse, hws]
    constructor
    · intro h
      split at h
      next => exact absurd h badRequest_ne_forbidden
      next habs =>
        split at h
        next hdots => exact ⟨m, e, v, ws, rfl, habs, hdots⟩
        next => cases h
    · rintro ⟨m', e', v', ws', heq, habs, hdots⟩
      simp only [List.cons.injEq] at heq
      obtain ⟨rfl, rfl, rfl, -⟩ := heq
      rw [if_neg habs, if_pos hdots]
  · rw [hparse]
    constructor
    · intro h
      exact absurd h badRequest_ne_forbidden
    · rintro ⟨m, e, v, ws, heq, -⟩
      exact absurd heq (ne_of_few hfew _ _ _ _)

theorem parse_eq_badRequest_iff {raw : Bytes} :
    HTTPRequest.parse raw = .error badRequest ↔
      ∀ m e v ws, words isspace (firstLine raw) = m :: e :: v :: ws → AbsoluteUrl e := by
  rcases parse_cases raw with ⟨m, e, v, ws, hws, hparse⟩ | ⟨hfew, hparse⟩
  · rw [hparse, hws]
    constructor
    · intro h m' e' v' ws' heq
      simp only [List.cons.injEq] at heq
      obtain ⟨rfl, rfl, rfl, -⟩ := heq
      split at h
      next habs => exact habs
      next =>
        split at h
        next => exact absurd h.symm badRequest_ne_forbidden
        next => cases h
    · intro h
      rw [if_pos (h m e v ws rfl)]
  · constructor
    · intro _ m e v ws heq
      exact absurd heq (ne_of_few hfew _ _ _ _)
    · intro _
      exact hparse

/-- What `parse` says of any text is decided by the words of its first line: with
three of them, and a second one that is no absolute URL and has no two dots in a row,
the request is accepted; only if the dots are all that is wrong the status is `403`,
else it is `400`. The cut at the first CRLFCRLF makes no difference: the first line of the
text itself is parsed. -/
theorem parse_grammar (raw : Bytes) :
    (∀ req, HTTPRequest.parse raw = .ok req ↔ ∃ ws,
      words isspace (firstLine raw) = req.method :: req.endpoint :: req.version :: ws ∧
      ¬ AbsoluteUrl req.endpoint ∧ ¬ TwoDots req.endpoint) ∧
    (HTTPRequest.parse raw = .error forbidden ↔ ∃ m e v ws,
      words isspace (firstLine raw) = m :: e :: v :: ws ∧ ¬ AbsoluteUrl e ∧ TwoDots e) ∧
    (HTTPRequest.parse raw = .error badRequest ↔
      ∀ m e v ws, words isspace (firstLine raw) = m :: e :: v :: ws → AbsoluteUrl e) ∧
    HTTPRequest.parseRequestLine (firstLine raw) {} = HTTPRequest.parse raw :=
  ⟨fun _ => parse_eq_ok_iff, parse_eq_forbidden_iff, parse_eq_badRequest_iff,
    (parse_eq_firstLine raw).symm⟩

/-- The line ends at the LF, whatever stands before it: a `\r` is white space. -/
example : HTTPRequest.parse (ascii "GET  /a\t HTTP/1.1 x\r\nGET /b HTTP/1.1\r\n\r\n") =
    .ok ⟨ascii "GET", ascii "/a", ascii "HTTP/1.1"⟩ := by
  decide

end SisProg.Http
