import SisProg.Lib.Bytes
import SisProg.Lib.Machine

/-!
# The relay, the FIFO and the logger child

For every chunk that it reads from a client, `RelayServer::handleClientData`
opens the FIFO with `O_WRONLY | O_NONBLOCK`, writes the chunk and closes the FIFO
again. The logger child opens the FIFO once, copies what it reads to
`logger.log`, and exits when `read` returns `0`: that is when it has read
everything and the relay does not have the FIFO open at that moment.

So the first chunk ends the logger. Every later open fails with `ENXIO`, which the
relay ignores, or the chunk is written to a FIFO whose reader is about to exit
(`secondChunk_lost`). `logging_loses_nothing` says which runs lose nothing: those in
which the logger is still listening at every open. The older `relay.c` keeps a
descriptor of the FIFO open, and its logger never reads `0`.

The kernel's rules for a FIFO are these. A nonblocking open for writing succeeds
when a process has the FIFO open for reading or is blocked in such an open; a
blocking open for reading returns once a writer has opened the FIFO, even if it
has closed it since; `read` on an empty FIFO returns `0` when nobody has it open
for writing, and blocks otherwise; a write without a reader raises `SIGPIPE`; the
contents are dropped when nobody has the FIFO open.
-/

namespace SisProg.Relay

/-- `BUFSIZ` of `stdio.h`. -/
def bufsiz : Nat := 8192

/-- Where the logger child of `forkLogger` is. `opening b` is blocked in `open`,
and `b` tells whether a writer has opened the FIFO since. -/
inductive Logger
  | forked
  | opening (writerSeen : Bool)
  | reading
  | writing (buf : Bytes)
  | eof
  | exited
deriving DecidableEq

/-- Where `handleClientData` is with the chunk `buf`; `between` chunks the relay
is in its `select` loop. `SIGPIPE` kills it. -/
inductive Handler
  | between
  | writePipe (buf : Bytes)
  | openFifo (buf : Bytes)
  | writeFifo (buf : Bytes)
  | closeFifo
  | killed
deriving DecidableEq

/-- The relay and the logger, with the contents of the pipe to the receiver, of
the FIFO and of `logger.log`. -/
structure Logging where
  relay : Handler
  logger : Logger
  pipe : Bytes
  fifo : Bytes
  log : Bytes
deriving DecidableEq

inductive LogAct
  | chunk (buf : Bytes)
  | writePipe (buf : Bytes)
  | openFifo (buf : Bytes)
  | writeFifo (buf : Bytes)
  | closeFifo
  | loggerOpen
  | loggerOpened
  | loggerRead (k : Nat)
  | loggerEof
  | loggerWrite (buf : Bytes)
  | loggerExit
deriving DecidableEq

/-- The logger counts as a reader of the FIFO. -/
def Logger.reads : Logger → Bool
  | .opening _ | .reading | .writing _ | .eof => true
  | .forked | .exited => false

/-- The logger counts as a reader, and will read what is written now. -/
def Logger.listening : Logger → Bool
  | .opening _ | .reading | .writing _ => true
  | .forked | .eof | .exited => false

/-- The bytes that the logger has read and not yet written to the log. -/
def Logger.held : Logger → Bytes
  | .writing buf => buf
  | _ => []

/-- A writer opens the FIFO. -/
def Logger.meetWriter : Logger → Logger
  | .opening _ => .opening true
  | l => l

/-- The relay has the FIFO open for writing. -/
def Handler.writes : Handler → Bool
  | .writeFifo _ | .closeFifo => true
  | _ => false

/-- The chunk that the relay has yet to write to the FIFO. -/
def Handler.unsent : Handler → Bytes
  | .writePipe buf | .openFifo buf | .writeFifo buf => buf
  | _ => []

namespace Logging

def enabled (s : Logging) : LogAct → Prop
  | .chunk buf => s.relay = .between ∧ buf ≠ [] ∧ buf.length ≤ bufsiz
  | .writePipe buf => s.relay = .writePipe buf
  | .openFifo buf => s.relay = .openFifo buf
  | .writeFifo buf => s.relay = .writeFifo buf
  | .closeFifo => s.relay = .closeFifo
  | .loggerOpen => s.logger = .forked
  | .loggerOpened => s.logger = .opening true
  | .loggerRead k => s.logger = .reading ∧ 0 < k ∧ k ≤ bufsiz ∧ k ≤ s.fifo.length
  | .loggerEof => s.logger = .reading ∧ s.fifo = [] ∧ s.relay.writes = false
  | .loggerWrite buf => s.logger = .writing buf
  | .loggerExit => s.logger = .eof

def next (s : Logging) : LogAct → Logging
  | .chunk buf => { s with relay := .writePipe buf }
  | .writePipe buf => { s with relay := .openFifo buf, pipe := s.pipe ++ buf }
  | .openFifo buf =>
      -- `if (loggerFd >= 0)`: a failed open is ignored
      if s.logger.reads then
        { s with relay := .writeFifo buf, logger := s.logger.meetWriter }
      else { s with relay := .between }
  | .writeFifo buf =>
      if s.logger.reads then { s with relay := .closeFifo, fifo := s.fifo ++ buf }
      else { s with relay := .killed }
  | .closeFifo =>
      { s with relay := .between, fifo := if s.logger.reads then s.fifo else [] }
  | .loggerOpen => { s with logger := .opening s.relay.writes }
  | .loggerOpened => { s with logger := .reading }
  | .loggerRead k => { s with logger := .writing (s.fifo.take k), fifo := s.fifo.drop k }
  | .loggerEof => { s with logger := .eof }
  | .loggerWrite buf => { s with logger := .reading, log := s.log ++ buf }
  | .loggerExit =>
      { s with logger := .exited, fifo := if s.relay.writes then s.fifo else [] }

instance (s : Logging) (a : LogAct) : Decidable (s.enabled a) := by
  cases a <;> unfold enabled <;> infer_instance

/-- The bytes on their way to the log, and those that are there. -/
def delivered (s : Logging) : Bytes := s.log ++ s.logger.held ++ s.fifo

end Logging

/-- The relay and the logger after `forkLogger`. -/
def Logging.start : Logging := ⟨.between, .forked, [], [], []⟩

def logging : Machine Logging LogAct where
  init s := s = .start
  enabled := Logging.enabled
  next := Logging.next

instance (s : Logging) (a : LogAct) : Decidable (logging.enabled s a) :=
  inferInstanceAs (Decidable (s.enabled a))

/-- The chunk that a step reads from a client. -/
def LogAct.received : LogAct → Bytes
  | .chunk buf => buf
  | _ => []

/-- The concatenation of the chunks read during a run. -/
def received (as : List LogAct) : Bytes := as.flatMap LogAct.received

theorem received_append (as bs : List LogAct) :
    received (as ++ bs) = received as ++ received bs :=
  List.flatMap_append

theorem received_snoc (as : List LogAct) (a : LogAct) :
    received (as ++ [a]) = received as ++ a.received := by
  simp [received]

/-- The condition on a step: the relay opens the FIFO while the logger listens. -/
def OpenWhileListening (s : Logging) : LogAct → Prop
  | .openFifo _ => s.logger.listening = true
  | _ => True

instance (s : Logging) (a : LogAct) : Decidable (OpenWhileListening s a) := by
  cases a <;> unfold OpenWhileListening <;> infer_instance

instance (s : Logging) (a : LogAct) :
    Decidable ((logging.restrict OpenWhileListening).enabled s a) :=
  inferInstanceAs (Decidable (s.enabled a ∧ OpenWhileListening s a))

theorem Logger.reads_of_listening {l : Logger} (h : l.listening = true) : l.reads = true := by
  cases l <;> first | rfl | cases h

@[simp] theorem Logger.listening_meetWriter (l : Logger) :
    l.meetWriter.listening = l.listening := by
  cases l <;> rfl

@[simp] theorem Logger.held_meetWriter (l : Logger) : l.meetWriter.held = l.held := by
  cases l <;> rfl

/-! ## Runs that lose nothing -/

/-- What holds as long as the relay opens the FIFO only while the logger listens:
every chunk read is on its way; a logger that has seen the end of file leaves an
empty FIFO; and while the relay has the FIFO open the logger listens. -/
structure Sound (s : Logging) (sent : Bytes) : Prop where
  alive : s.relay ≠ .killed
  conserved : s.delivered ++ s.relay.unsent = sent
  drained : s.logger.listening = false → s.fifo = []
  open_listening : s.relay.writes = true → s.logger.listening = true

theorem sound_start : Sound .start [] := by
  constructor <;> simp [Logging.start, Logging.delivered, Logger.held, Handler.unsent,
    Handler.writes]

/-- A step that reads `new`, and after which all bytes are still on their way. -/
theorem Sound.step {s t : Logging} {sent new : Bytes} (h : Sound s sent)
    (hconserved : t.delivered ++ t.relay.unsent = s.delivered ++ s.relay.unsent ++ new)
    (halive : t.relay ≠ .killed) (hdrained : t.logger.listening = false → t.fifo = [])
    (hopen : t.relay.writes = true → t.logger.listening = true) : Sound t (sent ++ new) where
  alive := halive
  conserved := by rw [hconserved, h.conserved]
  drained := hdrained
  open_listening := hopen

/-! While the logger listens, the FIFO is open for reading. -/

theorem next_openFifo {s : Logging} (hl : s.logger.listening = true) (buf : Bytes) :
    s.next (.openFifo buf) =
      { s with relay := .writeFifo buf, logger := s.logger.meetWriter } :=
  if_pos (Logger.reads_of_listening hl)

theorem next_writeFifo {s : Logging} (hl : s.logger.listening = true) (buf : Bytes) :
    s.next (.writeFifo buf) = { s with relay := .closeFifo, fifo := s.fifo ++ buf } :=
  if_pos (Logger.reads_of_listening hl)

theorem next_closeFifo {s : Logging} (hl : s.logger.listening = true) :
    s.next .closeFifo = { s with relay := .between } := by
  simp [Logging.next, Logger.reads_of_listening hl]

theorem sound_next {s : Logging} {a : LogAct} {sent : Bytes} (h : Sound s sent)
    (he : s.enabled a) (hc : OpenWhileListening s a) :
    Sound (s.next a) (sent ++ a.received) := by
  have hsound := h
  obtain ⟨relay, logger, pipe, fifo, log⟩ := s
  obtain ⟨halive, -, hdrained, hopen⟩ := h
  cases a with
  | chunk buf =>
    obtain ⟨rfl, -⟩ := (he : relay = _ ∧ _)
    refine hsound.step ?_ nofun hdrained nofun
    simp [Logging.next, Logging.delivered, Handler.unsent, LogAct.received]
  | writePipe buf =>
    obtain rfl : relay = _ := he
    refine hsound.step ?_ nofun hdrained nofun
    simp [Logging.next, Logging.delivered, Handler.unsent, LogAct.received]
  | openFifo buf =>
    obtain rfl : relay = _ := he
    have hl : logger.listening = true := hc
    rw [next_openFifo hl]
    refine hsound.step ?_ nofun (by simp [hl]) (by simp [hl])
    simp [Logging.delivered, Handler.unsent, LogAct.received]
  | writeFifo buf =>
    obtain rfl : relay = _ := he
    have hl : logger.listening = true := hopen rfl
    rw [next_writeFifo hl]
    refine hsound.step ?_ nofun (by simp [hl]) (by simp [hl])
    simp [Logging.delivered, Handler.unsent, LogAct.received]
  | closeFifo =>
    obtain rfl : relay = _ := he
    have hl : logger.listening = true := hopen rfl
    rw [next_closeFifo hl]
    refine hsound.step ?_ nofun hdrained nofun
    simp [Logging.delivered, Handler.unsent, LogAct.received]
  | loggerOpen | loggerOpened =>
    obtain rfl : logger = _ := he
    refine hsound.step ?_ halive nofun fun _ => rfl
    simp [Logging.next, Logging.delivered, Logger.held, LogAct.received]
  | loggerRead k =>
    obtain ⟨rfl, -⟩ := (he : logger = _ ∧ _)
    refine hsound.step ?_ halive nofun fun _ => rfl
    simp [Logging.next, Logging.delivered, Logger.held, LogAct.received]
  | loggerEof =>
    obtain ⟨rfl, rfl, hw⟩ := (he : logger = _ ∧ fifo = _ ∧ relay.writes = false)
    refine hsound.step ?_ halive (fun _ => rfl) (by simp [Logging.next, hw])
    simp [Logging.next, Logging.delivered, Logger.held, LogAct.received]
  | loggerWrite buf =>
    obtain rfl : logger = _ := he
    refine hsound.step ?_ halive nofun fun _ => rfl
    simp [Logging.next, Logging.delivered, Logger.held, LogAct.received]
  | loggerExit =>
    obtain rfl : logger = _ := he
    -- a logger that has seen the end of file leaves nothing behind
    obtain rfl : fifo = [] := hdrained rfl
    have hw : relay.writes = false := by
      cases h : relay.writes with
      | false => rfl
      | true => cases hopen h
    refine hsound.step ?_ halive (by simp [Logging.next]) (by simp [Logging.next, hw])
    simp [Logging.next, Logging.delivered, Logger.held, LogAct.received]

theorem sound_inv {s : Logging} {as : List LogAct}
    (h : (logging.restrict OpenWhileListening).Exec .start as s) : Sound s (received as) := by
  induction h with
  | nil => exact sound_start
  | snoc _ he ih =>
    rw [received_snoc]
    exact sound_next ih he.1 he.2

/-! ## Any other run can lose a chunk -/

/-- What holds in every run: a chunk on its way is not empty, and nothing is
delivered that has not been read from a client. -/
structure Accounted (s : Logging) (sent : Bytes) : Prop where
  pending : ∀ buf, s.relay = .writePipe buf ∨ s.relay = .openFifo buf → buf ≠ []
  length_le : s.delivered.length + s.relay.unsent.length ≤ sent.length

/-- How many bytes are on their way to the log, or there. -/
def Logging.afloat (s : Logging) : Nat := s.delivered.length + s.relay.unsent.length

theorem afloat_eq (s : Logging) :
    s.afloat = s.log.length + s.logger.held.length + s.fifo.length + s.relay.unsent.length := by
  rw [Logging.afloat, Logging.delivered, List.length_append, List.length_append]

/-- No step adds a byte that it has not read from a client. -/
theorem afloat_next {s : Logging} {a : LogAct} (he : s.enabled a) :
    (s.next a).afloat ≤ s.afloat + a.received.length := by
  obtain ⟨relay, logger, pipe, fifo, log⟩ := s
  rw [afloat_eq, afloat_eq]
  cases a with
  | chunk buf =>
    obtain ⟨rfl, -⟩ := (he : relay = _ ∧ _)
    exact Nat.le_refl _
  | writePipe buf =>
    obtain rfl : relay = _ := he
    exact Nat.le_refl _
  | openFifo buf =>
    obtain rfl : relay = _ := he
    simp only [Logging.next]
    split
    · simp [Handler.unsent]
    · exact Nat.le_add_right _ _
  | writeFifo buf =>
    obtain rfl : relay = _ := he
    simp only [Logging.next]
    split
    · simp [Handler.unsent, LogAct.received, Nat.add_assoc]
    · exact Nat.le_add_right _ _
  | closeFifo =>
    obtain rfl : relay = _ := he
    simp only [Logging.next]
    split
    · exact Nat.le_refl _
    · exact Nat.add_le_add_right (Nat.le_add_right _ _) _
  | loggerOpen | loggerOpened =>
    obtain rfl : logger = _ := he
    exact Nat.le_refl _
  | loggerRead k =>
    obtain ⟨rfl, -, -, hk⟩ := (he : logger = _ ∧ _ ∧ _ ∧ k ≤ fifo.length)
    simp [Logging.next, Logger.held, LogAct.received]
    omega
  | loggerEof =>
    obtain ⟨rfl, -⟩ := (he : logger = _ ∧ _)
    exact Nat.le_refl _
  | loggerWrite buf =>
    obtain rfl : logger = _ := he
    simp [Logging.next, Logger.held, LogAct.received]
  | loggerExit =>
    obtain rfl : logger = _ := he
    simp only [Logging.next]
    split
    · exact Nat.le_refl _
    · exact Nat.add_le_add_right (Nat.le_add_right _ _) _

theorem accounted_next {s : Logging} {a : LogAct} {sent : Bytes} (h : Accounted s sent)
    (he : s.enabled a) : Accounted (s.next a) (sent ++ a.received) := by
  refine ⟨fun buf hbuf => ?_, ?_⟩
  · cases a with
    | chunk buf' =>
      obtain rfl : buf' = buf := by simpa [Logging.next] using hbuf
      exact he.2.1
    | writePipe buf' =>
      obtain rfl : buf' = buf := by simpa [Logging.next] using hbuf
      exact h.pending buf' (.inl he)
    | openFifo | writeFifo =>
      simp only [Logging.next] at hbuf
      split at hbuf <;> simp at hbuf
    | closeFifo => simp [Logging.next] at hbuf
    | _ => exact h.pending buf hbuf
  · rw [List.length_append]
    exact (afloat_next he).trans (Nat.add_le_add_right h.length_le _)

theorem accounted_inv {s : Logging} {as : List LogAct} (h : logging.Exec .start as s) :
    Accounted s (received as) := by
  induction h with
  | nil => exact ⟨by simp [Logging.start], Nat.le_refl 0⟩
  | snoc _ he ih =>
    rw [received_snoc]
    exact accounted_next ih he

/-- After an open of the FIFO without a listening logger, the chunk can be lost. -/
theorem lost_of_not_listening {s : Logging} {as : List LogAct} {buf : Bytes}
    (h : logging.Exec .start as s) (hr : s.relay = .openFifo buf)
    (hl : s.logger.listening = false) :
    ∃ bs t, logging.Exec s bs t ∧ t.relay = .between ∧ received bs = [] ∧
      t.delivered ≠ received as := by
  obtain ⟨relay, logger, pipe, fifo, log⟩ := s
  obtain rfl : relay = .openFifo buf := hr
  obtain ⟨hpend, hle⟩ := accounted_inv h
  have hpos : 0 < buf.length := List.length_pos_iff.mpr (hpend buf (.inr rfl))
  -- a state that has delivered no more than this one is short of `buf`
  have hlost : ∀ t : Logging, t.delivered.length ≤ log.length + logger.held.length + fifo.length →
      t.delivered ≠ received as := by
    intro t ht heq
    rw [heq] at ht
    simp only [Logging.delivered, Handler.unsent, List.length_append] at hle
    omega
  have hopen : logging.enabled ⟨.openFifo buf, logger, pipe, fifo, log⟩ (.openFifo buf) := rfl
  cases logger with
  | opening b | reading | writing b => cases hl
  | forked | exited =>
    -- `ENXIO`
    exact ⟨_, _, Machine.Exec.single hopen, rfl, rfl, hlost _ (by
      simp [logging, Logging.next, Logging.delivered, Logger.reads, Logger.held])⟩
  | eof =>
    -- the chunk is written to the FIFO, and dropped when the logger exits
    refine ⟨[.openFifo buf, .writeFifo buf, .closeFifo, .loggerExit],
      ⟨.between, .exited, pipe, [], log⟩, ?_, rfl, rfl, hlost _ (by
        simp [Logging.delivered, Logger.held])⟩
    exact .cons hopen (.cons rfl (.cons rfl (.cons rfl .nil)))

/-- In a run in which the logger listens whenever the relay opens the FIFO, no
byte is lost; and once the relay is about to open it while the logger does not
listen, some continuation leaves the relay between chunks with bytes missing. -/
theorem logging_loses_nothing (as : List LogAct) (s : Logging) :
    ((logging.restrict OpenWhileListening).Exec .start as s → s.relay = .between →
      s.delivered = received as) ∧
    (∀ buf, logging.Exec .start as s → s.relay = .openFifo buf → s.logger.listening = false →
      ∃ bs t, logging.Exec s bs t ∧ t.relay = .between ∧ t.delivered ≠ received (as ++ bs)) := by
  refine ⟨?_, ?_⟩
  · intro h hs
    have hcons := (sound_inv h).conserved
    rw [hs] at hcons
    exact (List.append_nil _).symm.trans hcons
  · intro buf h hr hl
    obtain ⟨bs, t, hrun, ht, hbs, hlost⟩ := lost_of_not_listening h hr hl
    refine ⟨bs, t, hrun, ht, ?_⟩
    rw [received_append, hbs, List.append_nil]
    exact hlost

/-- A chunk, logged while the logger listens. -/
def oneChunk : List LogAct :=
  [.loggerOpen, .chunk [1], .writePipe [1], .openFifo [1], .loggerOpened, .writeFifo [1],
    .closeFifo, .loggerRead 1, .loggerWrite [1], .loggerEof]

/-- Two chunks. The FIFO is open again before the logger has read its end. -/
def bothLogged : List LogAct :=
  oneChunk.dropLast ++ [.chunk [2], .writePipe [2], .openFifo [2], .writeFifo [2], .closeFifo,
    .loggerRead 1, .loggerWrite [2], .loggerEof]

theorem bothLogged_runs :
    ((logging.restrict OpenWhileListening).run .start bothLogged).isSome := by
  decide

theorem logging_loses_nothing_bothLogged :
    received bothLogged = [1, 2] ∧
    (((logging.restrict OpenWhileListening).run .start bothLogged).get
      bothLogged_runs).delivered = received bothLogged :=
  ⟨by decide, (logging_loses_nothing _ _).1 (Machine.exec_run_get bothLogged_runs) (by decide)⟩

/-- The second chunk comes after the logger has read the end of the FIFO that the
first chunk's close left behind. -/
def twoChunks : List LogAct :=
  oneChunk ++ [.loggerExit, .chunk [2], .writePipe [2], .openFifo [2]]

theorem twoChunks_runs : (logging.run .start twoChunks).isSome := by
  decide

theorem secondChunk_lost :
    ∃ s, logging.Exec .start twoChunks s ∧ s.relay = .between ∧
      received twoChunks = [1, 2] ∧ s.delivered = [1] :=
  ⟨_, Machine.exec_run_get twoChunks_runs, by decide, by decide, by decide⟩

end SisProg.Relay
