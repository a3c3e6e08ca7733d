import SisProg.Http.Execute
import SisProg.Http.HTTPResponse
import SisProg.Lib.Fallible

/-!
# The HTTP server

`handleConnection` reads a request, `handleRequest` answers it with a file, the
index of a directory, or its listing. The system calls of `handleRequest` are
answered by a `Kernel`, which sees the calls made before: the file system may change
between them. The calls are recorded with what the kernel gets, which is each path
up to its first NUL.
-/

namespace SisProg.Http

open Bytes (ascii)

/-! ## System calls -/

inductive Errno
  | enoent
  | eacces
  | other
deriving DecidableEq

/-- What `S_ISREG` and `S_ISDIR` say of `st_mode`. -/
inductive FileType
  | regular
  | directory
  | other
deriving DecidableEq

inductive Call
  | stat (path : Bytes)
  | execute (argv : List Bytes)
deriving DecidableEq

/-- How the calls are answered, given those made before. -/
structure Kernel where
  stat : List Call → Bytes → Except Errno FileType
  execute : List Call → List Bytes → Spawn

/-- Code that makes system calls, and may throw. -/
abbrev Handler := ExceptT Error (StateM (List Call))

def stat (k : Kernel) (path : Bytes) : Handler (Except Errno FileType) :=
  fun calls => (.ok (k.stat calls path.cstr), calls ++ [.stat path.cstr])

def runProgram (k : Kernel) (argv : List Bytes) : Handler Bytes :=
  fun calls => (execute (k.execute calls (argv.map Bytes.cstr)),
    calls ++ [.execute (argv.map Bytes.cstr)])

/-! ## Requests -/

def throwStatusOnErrno {α : Type} : Errno → Handler α
  | .enoent => throw (.httpWithStatus 404 (ascii "Not Found"))
  | .eacces => throw forbidden
  | .other => throw badRequest

/-- `std::tolower` in the C locale. -/
def tolower (b : UInt8) : UInt8 := if 65 ≤ b ∧ b ≤ 90 then b + 32 else b

/-- The loop compares the last bytes of `path` with those of the suffix. -/
def isHTML (path : Bytes) : Bool :=
  let suffix := ascii ".html"
  if path.length < suffix.length then false
  else (path.drop (path.length - suffix.length)).map tolower == suffix

/-- The path after `path.erase(0, 1)`. -/
def requestPath (req : HTTPRequest) : Bytes :=
  if req.endpoint.drop 1 = [] then ascii "." else req.endpoint.drop 1

def indexPath (path : Bytes) : Bytes := path ++ ascii "/index.html"

def respond (contentType execOut : Bytes) : HTTPResponse :=
  (({} : HTTPResponse).addHeader (ascii "Content-Type") contentType).setBody execOut

def octetStream : Bytes := ascii "application/octet-stream"

def textHtml : Bytes := ascii "text/html"

def handleRequest (k : Kernel) (req : HTTPRequest) : Handler HTTPResponse := do
  let path := requestPath req
  match ← stat k path with
  | .error errno => throwStatusOnErrno errno
  | .ok .regular =>
    let execOut ← runProgram k [ascii "cat", path]
    return respond (if isHTML path then textHtml else octetStream) execOut
  | .ok .directory =>
    match ← stat k (indexPath path) with
    | .ok .regular =>
      let execOut ← runProgram k [ascii "cat", indexPath path]
      return respond textHtml execOut
    | _ =>
      let execOut ← runProgram k [ascii "ls", ascii "-l", path]
      return respond octetStream execOut
  | .ok .other => throw forbidden

/-- The response or the error, and the calls made. -/
def serve (k : Kernel) (req : HTTPRequest) : Except Error HTTPResponse × List Call :=
  (handleRequest k req).run.run []

/-! ## Connections -/

def bufsize : Nat := 4096

/-- The loop that collects the request: it stops after the read that completes a
CRLFCRLF, at end of file, or at an error (`none`). -/
def collect (requestPayload : Bytes) : List Read → Option Bytes
  | [] | .data [] :: _ => some requestPayload
  | .data buf :: reads =>
      let requestPayload := requestPayload ++ buf
      if (requestPayload.find crlfcrlf).isSome then some requestPayload
      else collect requestPayload reads
  | .error :: _ => none

theorem collect_cons {payload buf : Bytes} {reads : List Read} (h : buf ≠ []) :
    collect payload (.data buf :: reads) =
      if ((payload ++ buf).find crlfcrlf).isSome then some (payload ++ buf)
      else collect (payload ++ buf) reads := by
  cases buf with
  | nil => exact absurd rfl h
  | cons b s => rfl

/-- The response of `sendError`, with an empty body. -/
def errorResponse (status : Nat) (reason : Bytes) : HTTPResponse :=
  (({ statusCode := status, statusText := reason } : HTTPResponse).addHeader
    (ascii "Content-Type") (ascii "text/plain")).setBody []

def internalServerError : HTTPResponse := errorResponse 500 (ascii "Internal Server Error")

/-- The response that is sent. -/
def handleConnection (k : Kernel) (reads : List Read) : HTTPResponse :=
  match collect [] reads with
  | none => internalServerError
  | some requestPayload =>
    match (HTTPRequest.parse requestPayload).bind fun req => (serve k req).1 with
    | .ok resp => resp
    | .error (.httpWithStatus status what) => errorResponse status what
    | .error (.runtimeError _) => internalServerError

/-! ## The runs of `handleRequest` -/

theorem runProgram_bind (k : Kernel) (argv : List Bytes) (calls : List Call)
    (f : Bytes → HTTPResponse) :
    (runProgram k argv >>= fun execOut => (return f execOut : Handler HTTPResponse)) calls =
      ((execute (k.execute calls (argv.map Bytes.cstr))).map f,
        calls ++ [.execute (argv.map Bytes.cstr)]) := by
  cases h : execute (k.execute calls (argv.map Bytes.cstr)) with
  | error e =>
    refine Fallible.bind_error ?_
    rw [runProgram, h]
  | ok output =>
    refine Fallible.bind_ok ?_
    rw [runProgram, h]

/-- The errors of `throwStatusOnErrno`. -/
def statusErrors : List Error := [.httpWithStatus 404 (ascii "Not Found"), forbidden, badRequest]

/-- The four ways through `handleRequest`: it throws after the first `stat`, it runs
`cat` on a regular file or on the index of a directory, or it lists a directory. -/
theorem serve_cases (k : Kernel) (req : HTTPRequest) {path index : Bytes}
    (hpath : path = (requestPath req).cstr) (hindex : index = (indexPath (requestPath req)).cstr) :
    ((∀ t, k.stat [] path = .ok t → t = .other) ∧
      ∃ e ∈ statusErrors, serve k req = (.error e, [.stat path])) ∨
    (k.stat [] path = .ok .regular ∧ serve k req =
      ((execute (k.execute [.stat path] [ascii "cat", path])).map
        (respond (if isHTML (requestPath req) then textHtml else octetStream)),
        [.stat path, .execute [ascii "cat", path]])) ∨
    (k.stat [] path = .ok .directory ∧ k.stat [.stat path] index = .ok .regular ∧
      serve k req =
        ((execute (k.execute [.stat path, .stat index] [ascii "cat", index])).map
          (respond textHtml), [.stat path, .stat index, .execute [ascii "cat", index]])) ∨
    (k.stat [] path = .ok .directory ∧ k.stat [.stat path] index ≠ .ok .regular ∧
      serve k req =
        ((execute (k.execute [.stat path, .stat index] [ascii "ls", ascii "-l", path])).map
          (respond octetStream),
          [.stat path, .stat index, .execute [ascii "ls", ascii "-l", path]])) := by
  have hstat : stat k (requestPath req) [] = (.ok (k.stat [] path), [.stat path]) := by
    rw [hpath]
    rfl
  have hstat' : stat k (indexPath (requestPath req)) [.stat path] =
      (.ok (k.stat [.stat path] index), [.stat path, .stat index]) := by
    rw [hindex]
    rfl
  have hserve : serve k req = handleRequest k req [] := rfl
  unfold handleRequest at hserve
  rw [Fallible.bind_ok hstat] at hserve
  cases ht : k.stat [] path with
  | error errno =>
    refine .inl ⟨by simp, ?_⟩
    rw [hserve, ht]
    cases errno <;> exact ⟨_, by decide, rfl⟩
  | ok t =>
    rw [ht] at hserve
    cases t with
    | other => exact .inl ⟨by simp, forbidden, by decide, hserve⟩
    | regular =>
      refine .inr (.inl ⟨rfl, ?_⟩)
      rw [hserve, hpath]
      exact runProgram_bind k _ _ _
    | directory =>
      dsimp only at hserve
      rw [Fallible.bind_ok hstat'] at hserve
      cases hi : k.stat [.stat path] index with
      | error errno =>
        rw [hi] at hserve
        refine .inr (.inr (.inr ⟨rfl, by simp, ?_⟩))
        rw [hserve, hpath]
        exact runProgram_bind k _ _ _
      | ok t =>
        rw [hi] at hserve
        cases t with
        | regular =>
          refine .inr (.inr (.inl ⟨rfl, rfl, ?_⟩))
          rw [hserve, hindex]
          exact runProgram_bind k _ _ _
        | directory | other =>
          refine .inr (.inr (.inr ⟨rfl, by simp, ?_⟩))
          rw [hserve, hpath]
          exact runProgram_bind k _ _ _

/-! ## What is sent -/

/-- A response of `handleRequest` is HTML or a stream of bytes, and what the program
printed is its body. -/
theorem serve_ok {k : Kernel} {req : HTTPRequest} {resp : HTTPResponse}
    (h : (serve k req).1 = .ok resp) :
    ∃ contentType execOut, resp = respond contentType execOut ∧
      (contentType = textHtml ∨ contentType = octetStream) := by
  have hmap : ∀ contentType (r : Except Error Bytes),
      r.map (respond contentType) = .ok resp → ∃ execOut, resp = respond contentType execOut := by
    intro contentType r hr
    cases r with
    | error e => cases hr
    | ok execOut =>
      cases hr
      exact ⟨execOut, rfl⟩
  rcases serve_cases k req rfl rfl with ⟨-, e, -, hs⟩ | ⟨-, hs⟩ | ⟨-, -, hs⟩ | ⟨-, -, hs⟩
  · rw [hs] at h
    cases h
  · rw [hs] at h
    obtain ⟨execOut, hresp⟩ := hmap _ _ h
    refine ⟨_, execOut, hresp, ?_⟩
    split
    next => exact .inl rfl
    next => exact .inr rfl
  · rw [hs] at h
    obtain ⟨execOut, hresp⟩ := hmap _ _ h
    exact ⟨_, execOut, hresp, .inl rfl⟩
  · rw [hs] at h
    obtain ⟨execOut, hresp⟩ := hmap _ _ h
    exact ⟨_, execOut, hresp, .inr rfl⟩

/-- The header tells the length of the body. -/
def HTTPResponse.Sized (resp : HTTPResponse) : Prop :=
  resp.headers.get (ascii "Content-Length") = some (HTTPResponse.decimal resp.body.length)

theorem sized_setBody (resp : HTTPResponse) (data : Bytes) : (resp.setBody data).Sized :=
  HeaderMap.get_set_self _ _ _

theorem contentType_respond (contentType execOut : Bytes) :
    (respond contentType execOut).headers.get (ascii "Content-Type") = some contentType := by
  show (HeaderMap.set _ (ascii "Content-Length") _).get (ascii "Content-Type") = _
  rw [HeaderMap.get_set_of_ne _ _ (by decide)]
  exact HeaderMap.get_set_self _ _ _

/-- What `handleConnection` sends: the response of `handleRequest`, the error with a
status that it or the parser has thrown, or `500`. -/
theorem handleConnection_cases (k : Kernel) (reads : List Read) :
    (∃ req resp, (serve k req).1 = .ok resp ∧ handleConnection k reads = resp) ∨
    (∃ status what, handleConnection k reads = errorResponse status what ∧
      ((∃ raw, HTTPRequest.parse raw = .error (.httpWithStatus status what)) ∨
        ∃ req, (serve k req).1 = .error (.httpWithStatus status what))) ∨
    handleConnection k reads = internalServerError := by
  unfold handleConnection
  cases collect [] reads with
  | none => exact .inr (.inr rfl)
  | some requestPayload =>
    cases hp : HTTPRequest.parse requestPayload with
    | error e =>
      cases e with
      | httpWithStatus status what => exact .inr (.inl ⟨status, what, by simp [hp, Except.bind],
          .inl ⟨requestPayload, hp⟩⟩)
      | runtimeError what => exact .inr (.inr (by simp [hp, Except.bind]))
    | ok req =>
      cases hs : (serve k req).1 with
      | ok resp => exact .inl ⟨req, resp, hs, by simp [hp, hs, Except.bind]⟩
      | error e =>
        cases e with
        | httpWithStatus status what => exact .inr (.inl ⟨status, what,
            by simp [hp, hs, Except.bind], .inr ⟨req, hs⟩⟩)
        | runtimeError what => exact .inr (.inr (by simp [hp, hs, Except.bind]))

/-- Whatever is read from the client and whatever the kernel answers, the response
that is sent tells the length of its body. -/
theorem sized_handleConnection (k : Kernel) (reads : List Read) :
    (handleConnection k reads).Sized := by
  rcases handleConnection_cases k reads with
    ⟨req, resp, hserve, hresp⟩ | ⟨status, what, hresp, -⟩ | hresp
  · obtain ⟨contentType, execOut, rfl, -⟩ := serve_ok hserve
    rw [hresp]
    exact sized_setBody _ _
  · rw [hresp]
    exact sized_setBody _ _
  · rw [hresp]
    exact sized_setBody _ _

end SisProg.Http
