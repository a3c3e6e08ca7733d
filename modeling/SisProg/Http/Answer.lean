import SisProg.Http.Connection
import SisProg.Http.FileResponse
import SisProg.Http.Sending

/-!
# What a client is answered

A connection is answered once, whatever arrives on it and whatever the kernel says to
the calls that are made for it.

* `answers_iff`: which response is sent is decided by the words of the first line, by
  what the path is found to be, and by the program that is run on it.
* `connection_answered`: the text that is sent can be read back, and is one of the few
  kinds of answers that the server has.
-/

namespace SisProg.Http

open Bytes (ascii)

/-! ## What arrives -/

/-- The reads of a connection on which `bufs` arrive; if it is `lost`, the next read
fails, else it finds the end of the stream. -/
def arrival (bufs : List Bytes) (lost : Bool) : List Read :=
  bufs.map .data ++ if lost then [.error] else []

/-- The loop that collects the request gets past `s`. -/
def Arrived (s : Bytes) (lost : Bool) : Prop := lost = false ∨ crlfcrlf <:+: s

theorem arrival_cons (buf : Bytes) (bufs : List Bytes) (lost : Bool) :
    arrival (buf :: bufs) lost = .data buf :: arrival bufs lost := rfl

/-- A stream that is lost before its CRLFCRLF is not parsed. -/
theorem collect_lost (payload : Bytes) {bufs : List Bytes} (hne : ∀ buf ∈ bufs, buf ≠ [])
    (hopen : ¬ crlfcrlf <:+: payload ++ bufs.flatten) :
    collect payload (arrival bufs true) = none := by
  induction bufs generalizing payload with
  | nil => rfl
  | cons buf bufs ih =>
    rw [List.flatten_cons, ← List.append_assoc] at hopen
    have hfind : ¬ (Bytes.find (payload ++ buf) crlfcrlf).isSome = true := by
      intro h
      exact hopen ((Bytes.find_isSome_iff.mp h).trans (List.prefix_append _ _).isInfix)
    rw [arrival_cons, collect_cons (hne buf List.mem_cons_self), if_neg hfind]
    exact ih _ (fun buf hbuf => hne buf (List.mem_cons_of_mem _ hbuf)) hopen

/-- Else what is collected is the stream, or a prefix of it with a CRLFCRLF. -/
theorem collect_arrived (payload : Bytes) {bufs : List Bytes} {lost : Bool}
    (hne : ∀ buf ∈ bufs, buf ≠ []) (hopen : ¬ crlfcrlf <:+: payload)
    (h : Arrived (payload ++ bufs.flatten) lost) :
    ∃ p, collect payload (arrival bufs lost) = some p ∧ p <+: payload ++ bufs.flatten ∧
      (p = payload ++ bufs.flatten ∨ crlfcrlf <:+: p) := by
  induction bufs generalizing payload with
  | nil =>
    rw [List.flatten_nil, List.append_nil] at h ⊢
    rcases h with rfl | hmem
    · exact ⟨payload, rfl, List.prefix_rfl, .inl rfl⟩
    · exact absurd hmem hopen
  | cons buf bufs ih =>
    rw [List.flatten_cons, ← List.append_assoc] at h ⊢
    rw [arrival_cons, collect_cons (hne buf List.mem_cons_self)]
    split
    next hfind =>
      exact ⟨_, rfl, List.prefix_append _ _, .inr (Bytes.find_isSome_iff.mp hfind)⟩
    next hfind =>
      exact ih _ (fun buf hbuf => hne buf (List.mem_cons_of_mem _ hbuf))
        (fun hmem => hfind (Bytes.find_isSome_iff.mpr hmem)) h

theorem parse_arrived {s : Bytes} {bufs : List Bytes} {lost : Bool} (h : Division s bufs)
    (harr : Arrived s lost) :
    ∃ payload, collect [] (arrival bufs lost) = some payload ∧
      HTTPRequest.parse payload = HTTPRequest.parse s := by
  have hcollect := @collect_arrived [] bufs lost (fun buf hbuf => (h.sized buf hbuf).1)
    (by decide)
  rw [List.nil_append, h.flatten] at hcollect
  obtain ⟨p, hp, hprefix, hp'⟩ := hcollect harr
  refine ⟨p, hp, ?_⟩
  rw [parse_eq_firstLine, parse_eq_firstLine]
  rcases hp' with rfl | hcrlf
  · rfl
  · rw [firstLine_eq_of_mem_lf hprefix (hcrlf.subset (by decide))]

/-! ## What is asked for -/

/-- The first line asks for `req`. -/
def Requests (s : Bytes) (req : HTTPRequest) : Prop :=
  ∃ ws, words isspace (firstLine s) = req.method :: req.endpoint :: req.version :: ws ∧
    ¬ AbsoluteUrl req.endpoint ∧ ¬ TwoDots req.endpoint

/-- The first line has fewer than three words, or asks for an absolute URL. -/
def Malformed (s : Bytes) : Prop :=
  ∀ m e v ws, words isspace (firstLine s) = m :: e :: v :: ws → AbsoluteUrl e

/-- The first line asks for a path with two dots in a row. -/
def Climbs (s : Bytes) : Prop :=
  ∃ m e v ws, words isspace (firstLine s) = m :: e :: v :: ws ∧ ¬ AbsoluteUrl e ∧ TwoDots e

theorem asked (s : Bytes) : (∃ req, Requests s req) ∨ Malformed s ∨ Climbs s := by
  rcases three_words_or_few (words isspace (firstLine s)) with ⟨m, e, v, ws, hws⟩ | hfew
  · rcases Decidable.em (AbsoluteUrl e) with habs | habs
    · refine .inr (.inl ?_)
      intro m' e' v' ws' hws'
      rw [hws] at hws'
      simp only [List.cons.injEq] at hws'
      obtain ⟨rfl, rfl, rfl, -⟩ := hws'
      exact habs
    · rcases Decidable.em (TwoDots e) with hdots | hdots
      · exact .inr (.inr ⟨m, e, v, ws, hws, habs, hdots⟩)
      · exact .inl ⟨⟨m, e, v⟩, ws, hws, habs, hdots⟩
  · exact .inr (.inl fun m e v ws hws => absurd hws (ne_of_few hfew m e v ws))

/-! ## What is found -/

/-- What the first `stat` says of the path. -/
def Kernel.found (k : Kernel) (req : HTTPRequest) : Except Errno FileType :=
  k.stat [] (requestPath req).cstr

/-- The program that prints the body, as the kernel runs it, and the type of the body. -/
def program (k : Kernel) (req : HTTPRequest) : Option (Bytes × Spawn) :=
  let path := (requestPath req).cstr
  let index := (indexPath (requestPath req)).cstr
  match k.found req with
  | .ok .regular =>
    some (if isHTML (requestPath req) then textHtml else octetStream,
      k.execute [.stat path] [ascii "cat", path])
  | .ok .directory =>
    match k.stat [.stat path] index with
    | .ok .regular =>
      some (textHtml, k.execute [.stat path, .stat index] [ascii "cat", index])
    | _ => some (octetStream, k.execute [.stat path, .stat index] [ascii "ls", ascii "-l", path])
  | _ => none

/-- What a program prints, if it is started and its pipe can be read to the end. -/
def Spawn.Prints (spawn : Spawn) (output : Bytes) : Prop :=
  ∃ child, spawn = .forked child ∧ .error ∉ child.reads ∧ output = child.execvp.process.output

theorem execute_eq_ok_iff {spawn : Spawn} {output : Bytes} :
    execute spawn = .ok output ↔ spawn.Prints output := by
  constructor
  · intro h
    exact execute_ok h
  · intro h
    obtain ⟨child, rfl, herr, rfl⟩ := h
    exact execute_forked herr

theorem serve_program {k : Kernel} {req : HTTPRequest} {contentType : Bytes} {spawn : Spawn}
    (h : program k req = some (contentType, spawn)) :
    (serve k req).1 = (execute spawn).map (respond contentType) := by
  unfold program Kernel.found at h
  rcases serve_cases k req rfl rfl with ⟨ht, -⟩ | ⟨ht, hs⟩ | ⟨ht, hi, hs⟩ | ⟨ht, hi, hs⟩
  · dsimp only at h
    split at h
    next hreg => cases ht _ hreg
    next hdir => cases ht _ hdir
    next => cases h
  · rw [hs]
    rw [ht] at h
    cases h
    rfl
  · rw [hs]
    simp only [ht, hi] at h
    cases h
    rfl
  · rw [hs]
    simp only [ht] at h
    cases h
    rfl

/-- A path that is no file and no directory is an error. -/
def foundError : Except Errno FileType → Option (Nat × Bytes)
  | .error .enoent => some (404, ascii "Not Found")
  | .error .eacces => some (403, ascii "Forbidden")
  | .error .other => some (400, ascii "Bad Request")
  | .ok .other => some (403, ascii "Forbidden")
  | .ok .regular | .ok .directory => none

theorem serve_foundError {k : Kernel} {req : HTTPRequest} {status : Nat} {reason : Bytes}
    (h : foundError (k.found req) = some (status, reason)) :
    (serve k req).1 = .error (.httpWithStatus status reason) := by
  have hstat : stat k (requestPath req) [] = (.ok (k.found req), [.stat (requestPath req).cstr]) :=
    rfl
  have hserve : serve k req = handleRequest k req [] := rfl
  unfold handleRequest at hserve
  rw [Fallible.bind_ok hstat] at hserve
  rw [hserve]
  match hf : k.found req with
  | .error .enoent | .error .eacces | .error .other | .ok .other =>
    rw [hf] at h
    cases h
    rfl
  | .ok .regular | .ok .directory =>
    rw [hf] at h
    cases h

theorem program_or_foundError (k : Kernel) (req : HTTPRequest) :
    (∃ contentType spawn, program k req = some (contentType, spawn)) ∨
      ∃ status reason, foundError (k.found req) = some (status, reason) := by
  unfold program
  match k.found req with
  | .error .enoent | .error .eacces | .error .other | .ok .other => exact .inr ⟨_, _, rfl⟩
  | .ok .regular => exact .inl ⟨_, _, rfl⟩
  | .ok .directory =>
    dsimp only
    split
    next => exact .inl ⟨_, _, rfl⟩
    next => exact .inl ⟨_, _, rfl⟩

/-! ## The answer -/

/-- The response to a client that has sent `s`, and why it is sent. -/
inductive Answers (k : Kernel) (s : Bytes) (lost : Bool) : HTTPResponse → Prop
  | lost (harr : ¬ Arrived s lost) :
      Answers k s lost (errorResponse 500 (ascii "Internal Server Error"))
  | malformed (harr : Arrived s lost) (h : Malformed s) :
      Answers k s lost (errorResponse 400 (ascii "Bad Request"))
  | climbs (harr : Arrived s lost) (h : Climbs s) :
      Answers k s lost (errorResponse 403 (ascii "Forbidden"))
  | notServed {req : HTTPRequest} {status : Nat} {reason : Bytes} (harr : Arrived s lost)
      (hreq : Requests s req) (h : foundError (k.found req) = some (status, reason)) :
      Answers k s lost (errorResponse status reason)
  | served {req : HTTPRequest} {contentType output : Bytes} {spawn : Spawn}
      (harr : Arrived s lost) (hreq : Requests s req)
      (h : program k req = some (contentType, spawn)) (hprints : spawn.Prints output) :
      Answers k s lost (respond contentType output)
  | broken {req : HTTPRequest} {contentType : Bytes} {spawn : Spawn} (harr : Arrived s lost)
      (hreq : Requests s req) (h : program k req = some (contentType, spawn))
      (hprints : ¬ ∃ output, spawn.Prints output) :
      Answers k s lost (errorResponse 500 (ascii "Internal Server Error"))

theorem answers_total (k : Kernel) (s : Bytes) (lost : Bool) : ∃ resp, Answers k s lost resp := by
  rcases Decidable.em (lost = false ∨ crlfcrlf <:+: s) with harr | harr
  · rcases asked s with ⟨req, hreq⟩ | hbad | hup
    · rcases program_or_foundError k req with ⟨contentType, spawn, h⟩ | ⟨status, reason, h⟩
      · rcases Classical.em (∃ output, spawn.Prints output) with ⟨output, hprints⟩ | hprints
        · exact ⟨_, .served harr hreq h hprints⟩
        · exact ⟨_, .broken harr hreq h hprints⟩
      · exact ⟨_, .notServed harr hreq h⟩
    · exact ⟨_, .malformed harr hbad⟩
    · exact ⟨_, .climbs harr hup⟩
  · exact ⟨_, .lost harr⟩

/-- What is sent for the response or the exception of the `try` block. -/
def outcome : Except Error HTTPResponse → HTTPResponse
  | .ok resp => resp
  | .error (.httpWithStatus status what) => errorResponse status what
  | .error (.runtimeError _) => internalServerError

/-- The answer to a stream that arrives depends on how it is parsed. -/
theorem handleConnection_arrived {k : Kernel} {s : Bytes} {bufs : List Bytes} {lost : Bool}
    (h : Division s bufs) (harr : Arrived s lost) :
    handleConnection k (arrival bufs lost) =
      outcome ((HTTPRequest.parse s).bind fun req => (serve k req).1) := by
  obtain ⟨payload, hcollect, hparse⟩ := parse_arrived h harr
  have hpayload : handleConnection k (arrival bufs lost) =
      outcome ((HTTPRequest.parse payload).bind fun req => (serve k req).1) := by
    unfold handleConnection
    rw [hcollect]
    rfl
  rw [hpayload, hparse]

theorem handleConnection_of_answers {k : Kernel} {s : Bytes} {bufs : List Bytes} {lost : Bool}
    {resp : HTTPResponse} (h : Division s bufs) (hans : Answers k s lost resp) :
    handleConnection k (arrival bufs lost) = resp := by
  have hparsed : ∀ req, Requests s req → HTTPRequest.parse s = .ok req := fun req hreq =>
    parse_eq_ok_iff.mpr hreq
  cases hans with
  | lost harr =>
    simp only [Arrived, not_or, Bool.not_eq_false] at harr
    obtain ⟨rfl, hopen⟩ := harr
    rw [← h.flatten] at hopen
    have hnone := collect_lost [] (fun buf hbuf => (h.sized buf hbuf).1) hopen
    unfold handleConnection
    rw [hnone]
    rfl
  | malformed harr hbad =>
    rw [handleConnection_arrived h harr, parse_eq_badRequest_iff.mpr hbad]
    rfl
  | climbs harr hup =>
    rw [handleConnection_arrived h harr, parse_eq_forbidden_iff.mpr hup]
    rfl
  | @notServed req status reason harr hreq hfound =>
    rw [handleConnection_arrived h harr, hparsed req hreq]
    simp only [Except.bind, serve_foundError hfound, outcome]
  | @served req contentType output spawn harr hreq hprog hprints =>
    rw [handleConnection_arrived h harr, hparsed req hreq]
    simp only [Except.bind, serve_program hprog, execute_eq_ok_iff.mpr hprints, Except.map,
      outcome]
  | @broken req contentType spawn harr hreq hprog hprints =>
    rw [handleConnection_arrived h harr, hparsed req hreq]
    cases hx : execute spawn with
    | ok output => exact absurd ⟨output, execute_eq_ok_iff.mp hx⟩ hprints
    | error e =>
      obtain ⟨what, rfl⟩ := execute_error hx
      simp only [Except.bind, serve_program hprog, hx, Except.map]
      rfl

/-- However the client's bytes are cut, and whether or not the connection is then lost,
the response that is sent is the one for which there is a reason. -/
theorem answers_iff {k : Kernel} {s : Bytes} {bufs : List Bytes} {lost : Bool}
    {resp : HTTPResponse} (h : Division s bufs) :
    handleConnection k (arrival bufs lost) = resp ↔ Answers k s lost resp := by
  constructor
  · intro hresp
    obtain ⟨resp', hans⟩ := answers_total k s lost
    rw [← hresp, handleConnection_of_answers h hans]
    exact hans
  · intro hans
    exact handleConnection_of_answers h hans

/-- The file `notes`, asked for in two pieces on a connection that is lost after them. -/
theorem answers_iff_notes :
    Answers (notesKernel printed) (ascii "GET /notes HTTP/1.1\r\n\r\n") true
      (respond octetStream (ascii "hello")) :=
  have hdiv : Division (ascii "GET /notes HTTP/1.1\r\n\r\n")
      [ascii "GET /notes HTTP", ascii "/1.1\r\n\r\n"] := ⟨by decide, by decide⟩
  (answers_iff hdiv).mp rfl

/-! ## On the wire -/

/-- The statuses of the server. -/
def statuses : List (Int × Bytes) :=
  [(200, ascii "OK"), (400, ascii "Bad Request"), (403, ascii "Forbidden"),
    (404, ascii "Not Found"), (500, ascii "Internal Server Error")]

/-- An answer as a client takes it apart. -/
structure Answer (d : Decoded) : Prop where
  status : (d.statusCode, d.statusText) ∈ statuses
  names : (d.headers.map Prod.fst).Perm [ascii "Content-Type", ascii "Content-Length"]
  contentLength :
    d.headers.lookup (ascii "Content-Length") = some (HTTPResponse.decimal d.body.length)
  served : d.statusCode = 200 → d.headers.lookup (ascii "Content-Type") = some textHtml ∨
    d.headers.lookup (ascii "Content-Type") = some octetStream
  refused : d.statusCode ≠ 200 →
    d.headers.lookup (ascii "Content-Type") = some (ascii "text/plain") ∧ d.body = []

/-- A response whose text is an answer, in whatever order its headers are written. -/
structure Answering (resp : HTTPResponse) : Prop where
  clean : CleanResponse resp
  status : (resp.statusCode, resp.statusText) ∈ statuses
  names : resp.headers.entries.map Prod.fst = [ascii "Content-Length", ascii "Content-Type"]
  sized : resp.Sized
  served : resp.statusCode = 200 → resp.headers.get (ascii "Content-Type") = some textHtml ∨
    resp.headers.get (ascii "Content-Type") = some octetStream
  refused : resp.statusCode ≠ 200 →
    resp.headers.get (ascii "Content-Type") = some (ascii "text/plain") ∧ resp.body = []

theorem answering_respond {contentType : Bytes}
    (h : contentType = textHtml ∨ contentType = octetStream) (execOut : Bytes) :
    Answering (respond contentType execOut) where
  clean := by
    refine clean_respond ?_ execOut
    rcases h with rfl | rfl <;> decide
  status := List.mem_cons_self
  names := rfl
  sized := sized_setBody _ _
  served _ := by
    rw [contentType_respond, Option.some.injEq, Option.some.injEq]
    exact h
  refused hne := absurd rfl hne

theorem answering_errorResponse {status : Nat} {reason : Bytes}
    (h : ((status : Int), reason) ∈ statuses) (hne : (status : Int) ≠ 200) :
    Answering (errorResponse status reason) where
  clean := by
    have hclean : ∀ p ∈ statuses, Clean p.2 := by decide
    exact clean_errorResponse (hclean _ h) status
  status := h
  names := rfl
  sized := sized_setBody _ _
  served heq := absurd heq hne
  refused _ := by
    refine ⟨?_, rfl⟩
    show (HeaderMap.set _ (ascii "Content-Length") _).get (ascii "Content-Type") = _
    rw [HeaderMap.get_set_of_ne _ _ (by decide)]
    exact HeaderMap.get_set_self _ _ _

theorem answering_of_mem_statusErrors {status : Nat} {what : Bytes}
    (h : .httpWithStatus status what ∈ statusErrors) : Answering (errorResponse status what) := by
  have hall : ∀ e ∈ statusErrors, ∀ s w, e = .httpWithStatus s w →
      ((s : Int), w) ∈ statuses ∧ (s : Int) ≠ 200 := by
    intro e he s w heq
    subst heq
    simp only [statusErrors, forbidden, badRequest, List.mem_cons, Error.httpWithStatus.injEq,
      List.not_mem_nil, or_false] at he
    rcases he with ⟨rfl, rfl⟩ | ⟨rfl, rfl⟩ | ⟨rfl, rfl⟩ <;> decide
  obtain ⟨hmem, hne⟩ := hall _ h status what rfl
  exact answering_errorResponse hmem hne

theorem answering_handleConnection (k : Kernel) (reads : List Read) :
    Answering (handleConnection k reads) := by
  rcases handleConnection_cases k reads with
    ⟨req, resp, hserve, hresp⟩ | ⟨status, what, hresp, ⟨raw, hraw⟩ | ⟨req, hreq⟩⟩ | hresp
  · obtain ⟨contentType, execOut, rfl, htype⟩ := serve_ok hserve
    rw [hresp]
    exact answering_respond htype execOut
  · rw [hresp]
    exact answering_of_mem_statusErrors (parse_error hraw)
  · rw [hresp]
    rcases serve_error hreq with hmem | ⟨what', heq⟩
    · exact answering_of_mem_statusErrors hmem
    · cases heq
  · rw [hresp]
    exact answering_errorResponse (by decide) (by decide)

/-- Whatever is read from the client, whatever the kernel answers and in whatever order
the headers are written, the text that is sent is taken apart to an answer: one of the
five statuses, the two headers, the length of the body, and no body with an error. -/
theorem connection_answered (k : Kernel) (reads : List Read) {order : List (Bytes × Bytes)}
    (horder : order.Perm (handleConnection k reads).headers.entries) :
    ∃ d, decode ((handleConnection k reads).toString order) = some d ∧ Answer d ∧
      d.body = (handleConnection k reads).body := by
  have hans := answering_handleConnection k reads
  have hlookup := fun name => lookup_perm horder name
  refine ⟨_, decode_toString hans.clean horder, ⟨hans.status, ?_, ?_, ?_, ?_⟩, rfl⟩
  · have hnames := horder.map Prod.fst
    rw [hans.names] at hnames
    exact hnames.trans (List.Perm.swap _ _ _)
  · exact (hlookup _).trans hans.sized
  · intro hok
    rw [hlookup]
    exact hans.served hok
  · intro hne
    rw [hlookup]
    exact hans.refused hne

theorem connection_answered_lost :
    ∃ d, decode ((handleConnection (notesKernel printed) [.error]).toString
        [(ascii "Content-Type", ascii "text/plain"), (ascii "Content-Length", ascii "0")]) =
        some d ∧ Answer d ∧ d.body = [] :=
  connection_answered (notesKernel printed) [.error] (by decide)

end SisProg.Http
