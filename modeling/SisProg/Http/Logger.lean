import SisProg.Http.Answer
import SisProg.Lib.Printf

/-!
# The log of the HTTP server

`Logger::log` formats a message into a buffer of `BUFSIZE` bytes and then makes a string of
the number of bytes that `vsnprintf` returns, which is the length of the whole message, also
where it did not fit: a message of `BUFSIZE` bytes or more is not logged as it is, and from
`BUFSIZE + 1` on the string is made of bytes behind the buffer.

* `Logger.msg_iff`: the messages that are logged as they are, and those that read behind the buffer.
* `logged_as_sent`: what `handleConnection` logs fits, whatever the client sends, and tells
  which response was sent.
-/

namespace SisProg.Http

open Bytes (ascii)

inductive LogLevel
  | debug
  | info
  | warning
  | error
deriving DecidableEq

namespace Logger

def bufsize : Nat := 512

def logLevelToString : LogLevel → Bytes
  | .debug => ascii "DEBUG"
  | .info => ascii "INFO"
  | .warning => ascii "WARNING"
  | .error => ascii "ERROR"

/-- An array of `BUFSIZE` bytes. -/
structure Buffer where
  bytes : Bytes
  sized : bytes.length = bufsize

/-- `vsnprintf(buffer, sizeof(buffer), fmt, args)`, where `text` is what the format stands
for. It has `INT_MAX` bytes at most, as `vsnprintf` fails beyond. -/
def vsnprintf (buffer : Buffer) (text : Bytes) : Buffer × Nat :=
  ({ bytes := text.take (bufsize - 1) ++ 0 :: buffer.bytes.drop ((text.take (bufsize - 1)).length + 1)
     sized := by
      have hle : (text.take (bufsize - 1)).length + 1 ≤ bufsize := by
        rw [List.length_take]
        exact Nat.add_le_add_right (Nat.min_le_left _ _) 1
      rw [List.length_append, List.length_cons, List.length_drop, buffer.sized, Nat.add_comm _ 1,
        ← Nat.add_assoc, Nat.add_sub_cancel' hle] },
    text.length)

/-- `std::string msg(buffer, msgLen)`, `none` if it reads behind the buffer. -/
def msg (buffer : Buffer) (text : Bytes) : Option Bytes :=
  let (buffer, msgLen) := vsnprintf buffer text
  if msgLen ≤ bufsize then some (buffer.bytes.take msgLen) else none

/-- The line around a message. -/
def line (time : Bytes) (level : LogLevel) (file : Bytes) (lineNo : Nat) (msg : Bytes) : Bytes :=
  time ++ ascii " [" ++ logLevelToString level ++ ascii "] " ++ file ++ ascii ":" ++
    Printf.unsignedDecimal lineNo ++ ascii " - " ++ msg ++ ascii "\n"

/-- What `log` writes. -/
def log (time : Bytes) (level : LogLevel) (file : Bytes) (lineNo : Nat) (buffer : Buffer)
    (text : Bytes) : Option Bytes :=
  (msg buffer text).map (line time level file lineNo)

/-- The message is read from within the buffer exactly if it has `BUFSIZE` bytes at most, and
is logged as it is exactly if it has fewer. -/
theorem msg_iff (buffer : Buffer) {text : Bytes} (hnul : 0 ∉ text) :
    (msg buffer text = none ↔ bufsize < text.length) ∧
      (msg buffer text = some text ↔ text.length < bufsize) := by
  have hmsg : msg buffer text = if text.length ≤ bufsize then
      some ((vsnprintf buffer text).1.bytes.take text.length) else none := rfl
  refine ⟨?_, ?_, ?_⟩
  · rw [hmsg]
    split
    next hle => simpa using hle
    next hgt => simpa using hgt
  · intro hsome
    rw [hmsg] at hsome
    split at hsome
    next hle =>
      refine Nat.lt_of_le_of_ne hle fun heq => hnul ?_
      -- the last byte would be the NUL that ends the buffer
      have htake := Option.some.inj hsome
      rw [heq, ← (vsnprintf buffer text).1.sized, List.take_length] at htake
      rw [← htake]
      simp [vsnprintf]
    next => cases hsome
  · intro hlt
    have hle : text.length ≤ bufsize - 1 := Nat.le_sub_one_of_lt hlt
    rw [hmsg, if_pos hlt.le]
    simp only [vsnprintf]
    rw [List.take_of_length_le hle, List.take_left]

theorem log_of_short (time : Bytes) (level : LogLevel) (file : Bytes) (lineNo : Nat)
    (buffer : Buffer) {text : Bytes} (h : text.length < bufsize ∧ 0 ∉ text) :
    log time level file lineNo buffer text = some (line time level file lineNo text) := by
  rw [log, ((msg_iff buffer h.2).2).mpr h.1]
  rfl

end Logger

/-! ## What a connection logs -/

/-- The message of `handleConnection`, if it logs one. -/
def connectionLog (k : Kernel) (reads : List Read) : Option (LogLevel × Bytes) :=
  match collect [] reads with
  | none => some (.error, ascii "Error reading")
  | some requestPayload =>
    match (HTTPRequest.parse requestPayload).bind fun req => (serve k req).1 with
    | .ok _ => none
    | .error (.httpWithStatus status what) =>
      some (.warning, ascii "Invalid HTTP Request: " ++ Printf.unsignedDecimal status ++
        ascii " " ++ what.cstr)
    | .error (.runtimeError what) => some (.error, ascii "Unexpected error: " ++ what.cstr)

/-- What `execute` throws. -/
def executeErrors : List Error :=
  [.runtimeError (ascii "Pipe failure"), .runtimeError (ascii "Fork failure"),
    .runtimeError (ascii "Read error")]

theorem execute_error_mem {spawn : Spawn} {e : Error} (h : execute spawn = .error e) :
    e ∈ executeErrors := by
  cases spawn with
  | pipeFailure | forkFailure =>
    cases h
    decide
  | forked child =>
    by_cases herr : Read.error ∈ child.reads
    · rw [execute_forked_error herr] at h
      cases h
      decide
    · rw [execute_forked herr] at h
      cases h

theorem serve_error_mem {k : Kernel} {req : HTTPRequest} {e : Error}
    (h : (serve k req).1 = .error e) : e ∈ statusErrors ++ executeErrors := by
  have hmap : ∀ (f : Bytes → HTTPResponse) (spawn : Spawn),
      (execute spawn).map f = .error e → e ∈ executeErrors := by
    intro f spawn hs
    cases hx : execute spawn with
    | ok output =>
      rw [hx] at hs
      cases hs
    | error e' =>
      rw [hx] at hs
      cases hs
      exact execute_error_mem hx
  rcases serve_cases k req rfl rfl with ⟨-, e', he', hs⟩ | ⟨-, hs⟩ | ⟨-, -, hs⟩ | ⟨-, -, hs⟩
  · rw [hs] at h
    cases h
    exact List.mem_append_left _ he'
  all_goals
    rw [hs] at h
    exact List.mem_append_right _ (hmap _ _ h)

/-- What is thrown in `handleConnection`. -/
theorem thrown_mem {k : Kernel} {payload : Bytes} {e : Error}
    (h : ((HTTPRequest.parse payload).bind fun req => (serve k req).1) = .error e) :
    e ∈ statusErrors ++ executeErrors := by
  cases hp : HTTPRequest.parse payload with
  | error e' =>
    rw [hp] at h
    cases h
    exact List.mem_append_left _ (parse_error hp)
  | ok req =>
    rw [hp] at h
    exact serve_error_mem h

/-- A message tells which response was sent. -/
inductive LoggedAsSent (resp : HTTPResponse) : Option (LogLevel × Bytes) → Prop
  | served (h : resp.statusCode = 200) : LoggedAsSent resp none
  | refused {status : Nat} (h : resp.statusCode = status)
      (hstatus : (status, resp.statusText) ∈ [(400, ascii "Bad Request"), (403, ascii "Forbidden"),
        (404, ascii "Not Found")]) :
      LoggedAsSent resp (some (.warning, ascii "Invalid HTTP Request: " ++
        Printf.unsignedDecimal status ++ ascii " " ++ resp.statusText))
  | failed {what : Bytes} (h : resp = internalServerError)
      (hwhat : what ∈ [ascii "Error reading", ascii "Unexpected error: Pipe failure",
        ascii "Unexpected error: Fork failure", ascii "Unexpected error: Read error"]) :
      LoggedAsSent resp (some (.error, what))

theorem loggedAsSent (k : Kernel) (reads : List Read) :
    LoggedAsSent (handleConnection k reads) (connectionLog k reads) := by
  unfold handleConnection connectionLog
  cases collect [] reads with
  | none => exact .failed rfl (by decide)
  | some payload =>
    dsimp only
    cases hresult : (HTTPRequest.parse payload).bind fun req => (serve k req).1 with
    | ok resp =>
      cases hp : HTTPRequest.parse payload with
      | error e =>
        rw [hp] at hresult
        cases hresult
      | ok req =>
        rw [hp] at hresult
        obtain ⟨contentType, execOut, rfl, -⟩ := serve_ok hresult
        exact .served rfl
    | error e =>
      have hmem := thrown_mem hresult
      simp only [statusErrors, executeErrors, forbidden, badRequest, List.mem_append,
        List.mem_cons, List.not_mem_nil, or_false] at hmem
      rcases hmem with (rfl | rfl | rfl) | rfl | rfl | rfl
      · exact .refused rfl (by decide)
      · exact .refused rfl (by decide)
      · exact .refused rfl (by decide)
      · exact .failed rfl (by decide)
      · exact .failed rfl (by decide)
      · exact .failed rfl (by decide)

theorem LoggedAsSent.short {resp : HTTPResponse} {level : LogLevel} {text : Bytes}
    (h : LoggedAsSent resp (some (level, text))) : text.length < Logger.bufsize ∧ 0 ∉ text := by
  cases h with
  | refused h hstatus =>
    simp only [List.mem_cons, Prod.mk.injEq, List.not_mem_nil, or_false] at hstatus
    rcases hstatus with ⟨rfl, htext⟩ | ⟨rfl, htext⟩ | ⟨rfl, htext⟩
    · rw [htext]
      decide
    · rw [htext]
      decide
    · rw [htext]
      decide
  | failed h hwhat =>
    have hall : ∀ what ∈ [ascii "Error reading", ascii "Unexpected error: Pipe failure",
        ascii "Unexpected error: Fork failure", ascii "Unexpected error: Read error"],
        what.length < Logger.bufsize ∧ 0 ∉ what := by
      decide
    exact hall _ hwhat

/-- Whatever the client sends and whatever the kernel answers: nothing is logged with a
response of `200`, a warning has the status and the reason that are sent, an error comes with
`500`; and the line has the whole message, whatever the buffer held. A message that is longer
than the buffer, if its length is an `int`, would be read from behind it, and one that just fills
it would lose its last byte. -/
theorem logged_as_sent (k : Kernel) (reads : List Read) :
    LoggedAsSent (handleConnection k reads) (connectionLog k reads) ∧
      (∀ level text, connectionLog k reads = some (level, text) → ∀ time file lineNo buffer,
        Logger.log time level file lineNo buffer text =
          some (Logger.line time level file lineNo text)) ∧
      ∀ buffer text, 0 ∉ text → text.length ≤ Printf.intMax →
        (Logger.msg buffer text = none ↔ Logger.bufsize < text.length) ∧
          (Logger.msg buffer text = some text ↔ text.length < Logger.bufsize) := by
  have hlogged := loggedAsSent k reads
  refine ⟨hlogged, fun level text hlog time file lineNo buffer => ?_, ?_⟩
  · rw [hlog] at hlogged
    exact Logger.log_of_short time level file lineNo buffer hlogged.short
  · intro buffer text hnul _
    exact Logger.msg_iff buffer hnul

end SisProg.Http
