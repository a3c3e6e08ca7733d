import SisProg.Http.FileResponse
import SisProg.Http.Grammar
import SisProg.Http.Serialization

/-!
# What the client receives

`sendResponse` hands the whole text of the response to one `write`, and does not look
at the result. A `write` to a socket may accept less than it is offered, for instance
when a signal interrupts it, and then the rest is never sent
(`response_truncated`). `receives_whole_iff` says that nothing else is missing: the
client has the whole response exactly if that `write` has accepted all of it.
-/

namespace SisProg.Http

open Bytes (ascii)

/-- The result of a `write`: how many bytes were accepted, or `-1` with `EINTR`. -/
inductive Written
  | accepted (n : Nat)
  | interrupted
deriving DecidableEq

/-- What a `write` may do with the bytes it is offered, as long as the connection
stands. -/
def Written.Allowed (offered : Bytes) : Written → Prop
  | .accepted n => 0 < n ∧ n ≤ offered.length
  | .interrupted => True

instance (offered : Bytes) (w : Written) : Decidable (w.Allowed offered) :=
  match w with
  | .accepted _ => inferInstanceAs (Decidable (_ ∧ _))
  | .interrupted => inferInstanceAs (Decidable True)

/-- `write(sockFd, out.c_str(), out.length())`: what reaches the client. -/
def sendResponse (out : Bytes) : Written → Bytes
  | .accepted n => out.take n
  | .interrupted => []

/-- What the client has received when `handleConnection` returns; `order` is that of the
headers. -/
def received (k : Kernel) (reads : List Read) (order : List (Bytes × Bytes)) (w : Written) :
    Bytes :=
  sendResponse ((handleConnection k reads).toString order) w

/-! ## The responses that are sent -/

theorem readOutput_error {output : Bytes} {reads : List Read} {e : Error}
    (h : readOutput output reads = .error e) : e = .runtimeError (ascii "Read error") := by
  induction reads generalizing output with
  | nil => cases h
  | cons r reads ih =>
    cases r with
    | error =>
      cases h
      rfl
    | data buf =>
      cases buf with
      | nil => cases h
      | cons b s => exact ih h

/-- `execute` throws no status. -/
theorem execute_error {spawn : Spawn} {e : Error} (h : execute spawn = .error e) :
    ∃ what, e = .runtimeError what := by
  cases spawn with
  | pipeFailure | forkFailure =>
    cases h
    exact ⟨_, rfl⟩
  | forked child => exact ⟨_, readOutput_error h⟩

/-- The errors with a status are those of `throwStatusOnErrno`. -/
theorem serve_error {k : Kernel} {req : HTTPRequest} {e : Error}
    (h : (serve k req).1 = .error e) : e ∈ statusErrors ∨ ∃ what, e = .runtimeError what := by
  have hmap : ∀ (f : Bytes → HTTPResponse) (spawn : Spawn),
      (execute spawn).map f = .error e → ∃ what, e = .runtimeError what := by
    intro f spawn hs
    cases hx : execute spawn with
    | ok output =>
      rw [hx] at hs
      cases hs
    | error e' =>
      rw [hx] at hs
      cases hs
      exact execute_error hx
  rcases serve_cases k req rfl rfl with ⟨-, e', he', hs⟩ | ⟨-, hs⟩ | ⟨-, -, hs⟩ | ⟨-, -, hs⟩
  · rw [hs] at h
    cases h
    exact .inl he'
  all_goals
    rw [hs] at h
    exact .inr (hmap _ _ h)

theorem parse_error {raw : Bytes} {e : Error} (h : HTTPRequest.parse raw = .error e) :
    e ∈ statusErrors := by
  rcases parse_cases raw with ⟨m, e', v, ws, -, hparse⟩ | ⟨-, hparse⟩
  · rw [hparse] at h
    split at h
    next =>
      cases h
      decide
    next =>
      split at h
      next =>
        cases h
        decide
      next => cases h
  · rw [hparse] at h
    cases h
    decide

theorem clean_errorResponse {reason : Bytes} (h : Clean reason) (status : Nat) :
    CleanResponse (errorResponse status reason) := by
  show CleanResponse (HTTPResponse.build status reason
    [.addHeader (ascii "Content-Type") (ascii "text/plain"), .setBody []])
  exact clean_build h (by decide) ⟨[], by decide⟩

theorem clean_respond {contentType : Bytes} (h : Clean contentType) (execOut : Bytes) :
    CleanResponse (respond contentType execOut) := by
  show CleanResponse (HTTPResponse.build 200 (ascii "OK")
    [.addHeader (ascii "Content-Type") contentType, .setBody execOut])
  refine clean_build (by decide) ?_ ⟨execOut, by simp⟩
  intro c hc
  simp only [List.mem_cons, List.not_mem_nil, or_false] at hc
  rcases hc with rfl | rfl
  · have hname : Clean (ascii "Content-Type") := by decide
    have hcolon : 58 ∉ ascii "Content-Type" := by decide
    have hne : (ascii "Content-Type").map tolower ≠ ascii "content-length" := by decide
    exact ⟨⟨hname, h, hcolon⟩, hne⟩
  · trivial

theorem clean_of_mem_statusErrors {status : Nat} {what : Bytes}
    (h : .httpWithStatus status what ∈ statusErrors) : Clean what := by
  have hall : ∀ e ∈ statusErrors, ∀ status what, e = .httpWithStatus status what → Clean what := by
    intro e he status what heq
    simp only [statusErrors, forbidden, badRequest, List.mem_cons, List.not_mem_nil,
      or_false] at he
    rcases he with rfl | rfl | rfl <;> cases heq <;> decide
  exact hall _ h _ _ rfl

/-- Every response that is sent can be read back. -/
theorem clean_handleConnection (k : Kernel) (reads : List Read) :
    CleanResponse (handleConnection k reads) := by
  rcases handleConnection_cases k reads with
    ⟨req, resp, hserve, hresp⟩ | ⟨status, what, hresp, ⟨raw, hraw⟩ | ⟨req, hreq⟩⟩ | hresp
  · obtain ⟨contentType, execOut, rfl, htype⟩ := serve_ok hserve
    rw [hresp]
    refine clean_respond ?_ execOut
    rcases htype with rfl | rfl <;> decide
  · rw [hresp]
    exact clean_errorResponse (clean_of_mem_statusErrors (parse_error hraw)) status
  · rw [hresp]
    rcases serve_error hreq with hmem | ⟨what', heq⟩
    · exact clean_errorResponse (clean_of_mem_statusErrors hmem) status
    · cases heq
  · rw [hresp]
    exact clean_errorResponse (by decide) 500

/-- For every request and every result of `write`, the client receives the whole text
of the response exactly if `write` has accepted all of it; and what it receives then is
decoded to the response, with the length that is announced. -/
theorem receives_whole_iff (k : Kernel) (reads : List Read) {order : List (Bytes × Bytes)}
    (horder : order.Perm (handleConnection k reads).headers.entries) {w : Written}
    (hw : w.Allowed ((handleConnection k reads).toString order)) :
    (received k reads order w = (handleConnection k reads).toString order ↔
      w = .accepted ((handleConnection k reads).toString order).length) ∧
    (w = .accepted ((handleConnection k reads).toString order).length →
      ∃ d, decode (received k reads order w) = some d ∧
        d.body = (handleConnection k reads).body ∧
        d.headers.lookup (ascii "Content-Length") =
          some (HTTPResponse.decimal d.body.length)) := by
  have hdecode := decode_toString (clean_handleConnection k reads) horder
  have hlookup := (lookup_perm horder (ascii "Content-Length")).trans
    (sized_handleConnection k reads)
  have hne : (handleConnection k reads).toString order ≠ [] := by
    intro hnil
    rw [hnil] at hdecode
    cases hdecode
  unfold received
  generalize (handleConnection k reads).toString order = out at *
  constructor
  · cases w with
    | interrupted =>
      constructor
      · intro h
        exact absurd h.symm hne
      · intro h
        cases h
    | accepted n =>
      show out.take n = out ↔ _
      rw [List.take_eq_self_iff, Written.accepted.injEq]
      exact ⟨fun h => le_antisymm hw.2 h, fun h => h.ge⟩
  · rintro rfl
    have hall : sendResponse out (.accepted out.length) = out := List.take_length
    rw [hall]
    exact ⟨_, hdecode, rfl, hlookup⟩

/-- A request for `notes`, whose contents are `hello`, all in one read. -/
def notesReads : List Read := [.data (ascii "GET /notes HTTP/1.1\r\n\r\n")]

def notesOrder : List (Bytes × Bytes) :=
  [(ascii "Content-Length", ascii "5"), (ascii "Content-Type", ascii "application/octet-stream")]

theorem notesOrder_perm :
    notesOrder.Perm (handleConnection (notesKernel printed) notesReads).headers.entries := by
  decide

theorem receives_whole_notes :
    received (notesKernel printed) notesReads notesOrder (.accepted 83) =
      (handleConnection (notesKernel printed) notesReads).toString notesOrder :=
  (receives_whole_iff (notesKernel printed) notesReads notesOrder_perm (by decide)).1.mpr
    (by decide)

/-- `write` is interrupted in the middle of the body. -/
theorem response_truncated :
    (Written.accepted 80).Allowed
      ((handleConnection (notesKernel printed) notesReads).toString notesOrder) ∧
    received (notesKernel printed) notesReads notesOrder (.accepted 80) =
      ascii "HTTP/1.1 200 OK\r\nContent-Length: 5\r\n" ++
        ascii "Content-Type: application/octet-stream\r\n\r\nhe" ∧
    received (notesKernel printed) notesReads notesOrder (.accepted 80) ≠
      (handleConnection (notesKernel printed) notesReads).toString notesOrder := by
  decide

end SisProg.Http
