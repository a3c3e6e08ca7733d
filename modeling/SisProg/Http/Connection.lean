import SisProg.Http.HTTPServer

/-!
# How TCP cuts a request

The reads of `handleConnection` may cut the client's bytes anywhere, and the loop
stops where it finds a CRLFCRLF, so what it has collected by then depends on the
cuts. The response does not (`division_irrelevant`): the payload is a prefix of the
stream that is the whole stream or contains the first line, and the first line is
all that `HTTPRequest::parse` looks at.
-/

namespace SisProg.Http

/-- The stream `s` as it arrives in successive reads. -/
structure Division (s : Bytes) (bufs : List Bytes) : Prop where
  flatten : bufs.flatten = s
  sized : ∀ buf ∈ bufs, buf ≠ [] ∧ buf.length ≤ bufsize - 1

/-- The payload is a prefix of the stream, and ends it or contains a CRLFCRLF. The
induction is on the reads, with any text collected before them. -/
theorem collect_data (payload : Bytes) {bufs : List Bytes} (h : ∀ buf ∈ bufs, buf ≠ []) :
    ∃ p, collect payload (bufs.map .data) = some p ∧ p <+: payload ++ bufs.flatten ∧
      (p = payload ++ bufs.flatten ∨ crlfcrlf <:+: p) := by
  induction bufs generalizing payload with
  | nil => exact ⟨payload, rfl, by simp, .inl (by simp)⟩
  | cons buf bufs ih =>
    rw [List.map_cons, collect_cons (h buf List.mem_cons_self), List.flatten_cons,
      ← List.append_assoc]
    by_cases hfind : (Bytes.find (payload ++ buf) crlfcrlf).isSome = true
    · exact ⟨_, if_pos hfind, List.prefix_append _ _, .inr (Bytes.find_isSome_iff.mp hfind)⟩
    · rw [if_neg hfind]
      exact ih _ fun buf hbuf => h buf (List.mem_cons_of_mem _ hbuf)

/-- What is collected is parsed as the stream would be. -/
theorem parse_collect {s : Bytes} {bufs : List Bytes} (h : Division s bufs) :
    ∃ payload, collect [] (bufs.map .data) = some payload ∧
      HTTPRequest.parse payload = HTTPRequest.parse s := by
  obtain ⟨p, hp, hprefix, hp'⟩ := collect_data [] fun buf hbuf => (h.sized buf hbuf).1
  rw [List.nil_append, h.flatten] at hprefix hp'
  refine ⟨p, hp, ?_⟩
  rw [parse_eq_firstLine, parse_eq_firstLine]
  rcases hp' with rfl | hcrlf
  · rfl
  · have hlf : lf ∈ p := hcrlf.subset (by decide)
    rw [firstLine_eq_of_mem_lf hprefix hlf]

/-- However the client's bytes are cut, the request is parsed as the whole stream
would be; so any two divisions of a stream get the same response. -/
theorem division_irrelevant {s : Bytes} {bufs : List Bytes} (h : Division s bufs) :
    (∃ payload, collect [] (bufs.map .data) = some payload ∧
      HTTPRequest.parse payload = HTTPRequest.parse s) ∧
    ∀ bufs', Division s bufs' → ∀ k,
      handleConnection k (bufs.map .data) = handleConnection k (bufs'.map .data) := by
  refine ⟨parse_collect h, ?_⟩
  intro bufs' h' k
  obtain ⟨p, hp, hparse⟩ := parse_collect h
  obtain ⟨p', hp', hparse'⟩ := parse_collect h'
  unfold handleConnection
  rw [hp, hp']
  dsimp only
  rw [hparse, hparse']

/-- A request with a body, cut inside the CRLFCRLF. -/
def cutRequest : List Bytes :=
  [Bytes.ascii "GET /a HTTP/1.1\r\n\r", Bytes.ascii "\nbo", Bytes.ascii "dy"]

theorem cutRequest_division :
    Division (Bytes.ascii "GET /a HTTP/1.1\r\n\r\nbody") cutRequest :=
  ⟨by decide, by decide⟩

theorem division_irrelevant_cutRequest :
    ∃ payload, collect [] (cutRequest.map .data) = some payload ∧
      HTTPRequest.parse payload =
        HTTPRequest.parse (Bytes.ascii "GET /a HTTP/1.1\r\n\r\nbody") :=
  (division_irrelevant cutRequest_division).1

end SisProg.Http
