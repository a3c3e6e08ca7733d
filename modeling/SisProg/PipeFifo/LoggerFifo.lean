import SisProg.Lib.Termination
import SisProg.Relay.LogPart

/-!
# The log of the C relay

`relay.c`, in `pipe-fifo` and in `temp/relay`, opens the FIFO with `O_RDWR | O_NONBLOCK`
before its loop and keeps it open (`fifoFd`), and opens it so again for each chunk. So
somebody always has it open for writing and for reading: the logger never reads `0`, the
relay is never killed by `SIGPIPE`, and what is in the FIFO stays there. What can be lost is
a chunk for which there is no room, since the result of `write` is ignored, or no
descriptor.

`log_kept` says which bytes reach the log: those that the writes have accepted, all of them,
in order. They are all that was received exactly in the runs whose writes were whole.
-/

namespace SisProg.PipeFifo

open Relay

/-- `PIPE_BUF`: a write up to this length is not cut. -/
def pipeBuf : Nat := 4096

/-- A nonblocking `write` of `len` bytes to a FIFO that holds `held` of `capacity` bytes can
accept `n`, where `0` stands for `EAGAIN`. -/
structure Accepts (capacity held len n : Nat) : Prop where
  le_len : n ≤ len
  le_capacity : n ≠ 0 → held + n ≤ capacity
  atomic : len ≤ pipeBuf → n = 0 ∨ n = len

instance (capacity held len n : Nat) : Decidable (Accepts capacity held len n) :=
  decidable_of_iff (n ≤ len ∧ (n ≠ 0 → held + n ≤ capacity) ∧ (len ≤ pipeBuf → n = 0 ∨ n = len))
    ⟨fun h => ⟨h.1, h.2.1, h.2.2⟩, fun h => ⟨h.le_len, h.le_capacity, h.atomic⟩⟩

/-- The steps, as in `LogAct`. The open for a chunk may fail, and the write accepts `n`
bytes. At the end of file of a client the chunk is empty. -/
inductive FifoAct
  | chunk (buf : Bytes)
  | writePipe (buf : Bytes)
  | openFifo (buf : Bytes) (opened : Bool)
  | writeFifo (buf : Bytes) (n : Nat)
  | closeFifo
  | loggerOpen
  | loggerOpened
  | loggerRead (k : Nat)
  | loggerEof
  | loggerWrite (buf : Bytes)
  | loggerExit
deriving DecidableEq

/-- How many descriptors are open for writing: `fifoFd`, and that of a chunk. -/
def writers (s : Logging) : Nat := 1 + s.relay.writes.toNat

section

variable (capacity : Nat)

def fifoEnabled (s : Logging) : FifoAct → Prop
  | .chunk buf => s.relay = .between ∧ buf.length ≤ bufsiz
  | .writePipe buf => s.relay = .writePipe buf
  | .openFifo buf _ => s.relay = .openFifo buf
  | .writeFifo buf n => s.relay = .writeFifo buf ∧ Accepts capacity s.fifo.length buf.length n
  | .closeFifo => s.relay = .closeFifo
  | .loggerOpen => s.logger = .forked
  | .loggerOpened => s.logger = .opening true
  | .loggerRead k => s.logger = .reading ∧ 0 < k ∧ k ≤ bufsiz ∧ k ≤ s.fifo.length
  | .loggerEof => s.logger = .reading ∧ s.fifo = [] ∧ writers s = 0
  | .loggerWrite buf => s.logger = .writing buf
  | .loggerExit => s.logger = .eof

instance (s : Logging) (a : FifoAct) : Decidable (fifoEnabled capacity s a) := by
  cases a <;> unfold fifoEnabled <;> infer_instance

def fifoNext (s : Logging) : FifoAct → Logging
  | .chunk buf => { s with relay := .writePipe buf }
  | .writePipe buf => { s with relay := .openFifo buf, pipe := s.pipe ++ buf }
  | .openFifo buf opened =>
      if opened then { s with relay := .writeFifo buf, logger := s.logger.meetWriter }
      else { s with relay := .between }
  -- the relay has the FIFO open for reading as well
  | .writeFifo buf n => { s with relay := .closeFifo, fifo := s.fifo ++ buf.take n }
  | .closeFifo => { s with relay := .between }
  | .loggerOpen => { s with logger := .opening (decide (0 < writers s)) }
  | .loggerOpened => { s with logger := .reading }
  | .loggerRead k => { s with logger := .writing (s.fifo.take k), fifo := s.fifo.drop k }
  | .loggerEof => { s with logger := .eof }
  | .loggerWrite buf => { s with logger := .reading, log := s.log ++ buf }
  | .loggerExit => { s with logger := .exited }

/-- The relay at the top of its loop; a logger that has tried to open the FIFO has met
`fifoFd`. -/
def fifoLogging : Machine Logging FifoAct where
  init s := s = ⟨.between, .forked, [], [], []⟩ ∨ s = ⟨.between, .opening true, [], [], []⟩
  enabled := fifoEnabled capacity
  next := fifoNext

end

instance (capacity : Nat) (s : Logging) (a : FifoAct) :
    Decidable ((fifoLogging capacity).enabled s a) :=
  inferInstanceAs (Decidable (fifoEnabled capacity s a))

namespace FifoAct

def received : FifoAct → Bytes
  | .chunk buf => buf
  | _ => []

/-- What the FIFO accepts in a step. -/
def accepted : FifoAct → Bytes
  | .writeFifo buf n => buf.take n
  | _ => []

/-- How many bytes of a chunk are dropped in a step. -/
def dropped : FifoAct → Nat
  | .openFifo buf false => buf.length
  | .writeFifo buf n => buf.length - n
  | _ => 0

/-- The open succeeds, or there is nothing to write, and the write accepts all of it. -/
def Whole : FifoAct → Prop
  | .openFifo buf opened => opened = true ∨ buf = []
  | .writeFifo buf n => n = buf.length
  | _ => True

end FifoAct

/-- What the clients have sent. -/
def fifoReceived (as : List FifoAct) : Bytes := as.flatMap FifoAct.received

/-- What the FIFO has accepted. -/
def fifoAccepted (as : List FifoAct) : Bytes := as.flatMap FifoAct.accepted

/-- How many bytes were dropped. -/
def fifoDropped : List FifoAct → Nat
  | [] => 0
  | a :: as => a.dropped + fifoDropped as

theorem fifoDropped_snoc (as : List FifoAct) (a : FifoAct) :
    fifoDropped (as ++ [a]) = fifoDropped as + a.dropped := by
  induction as with
  | nil => simp [fifoDropped]
  | cons b as ih =>
    rw [List.cons_append, fifoDropped, fifoDropped, ih]
    omega

theorem fifoReceived_snoc (as : List FifoAct) (a : FifoAct) :
    fifoReceived (as ++ [a]) = fifoReceived as ++ a.received := by
  simp [fifoReceived]

theorem fifoAccepted_snoc (as : List FifoAct) (a : FifoAct) :
    fifoAccepted (as ++ [a]) = fifoAccepted as ++ a.accepted := by
  simp [fifoAccepted]

/-! ## What holds in every run -/

variable {capacity : Nat} {s s₀ : Logging} {as : List FifoAct} {a : FifoAct}

/-- The logger goes on, and the relay lives. -/
structure Lasting (s : Logging) : Prop where
  logger : s.logger = .forked ∨ s.logger.listening = true
  met : s.logger ≠ .opening false
  alive : s.relay ≠ .killed

theorem lasting_of_init (h : (fifoLogging capacity).init s) : Lasting s := by
  rcases h with rfl | rfl
  · exact ⟨.inl rfl, by simp, by simp⟩
  · exact ⟨.inr rfl, by simp, by simp⟩

theorem writers_pos (s : Logging) : 0 < writers s := Nat.lt_of_lt_of_le Nat.zero_lt_one
  (Nat.le_add_right 1 _)

theorem Lasting.next (h : Lasting s) (he : fifoEnabled capacity s a) : Lasting (fifoNext s a) := by
  obtain ⟨hlogger, hmet, halive⟩ := h
  cases a with
  | chunk | writePipe | writeFifo | closeFifo => exact ⟨hlogger, hmet, by simp [fifoNext]⟩
  | openFifo buf opened =>
    cases opened with
    | false => exact ⟨hlogger, hmet, by simp [fifoNext]⟩
    | true =>
      refine ⟨?_, ?_, by simp [fifoNext]⟩
      · show s.logger.meetWriter = .forked ∨ s.logger.meetWriter.listening = true
        rw [Logger.listening_meetWriter]
        refine hlogger.imp_left ?_
        intro hforked
        rw [hforked]
        rfl
      · show s.logger.meetWriter ≠ .opening false
        cases s.logger <;> simp [Logger.meetWriter]
  | loggerOpen =>
    refine ⟨.inr rfl, ?_, halive⟩
    simp [fifoNext, writers_pos]
  | loggerOpened | loggerRead | loggerWrite =>
    exact ⟨.inr rfl, by simp [fifoNext], halive⟩
  | loggerEof => exact absurd he.2.2 (Nat.ne_of_gt (writers_pos s))
  | loggerExit =>
    have heof : s.logger = .eof := he
    rw [heof] at hlogger
    simp [Logger.listening] at hlogger

/-- What is on its way to the log grows by what the FIFO accepts. -/
theorem delivered_next (he : fifoEnabled capacity s a) :
    (fifoNext s a).delivered = s.delivered ++ a.accepted := by
  cases a with
  | openFifo buf opened =>
    cases opened <;> simp [fifoNext, Logging.delivered, FifoAct.accepted]
  | writeFifo buf n => simp [fifoNext, Logging.delivered, FifoAct.accepted]
  | loggerOpen | loggerOpened | loggerEof | loggerExit =>
    have hlogger := he
    simp only [fifoEnabled] at hlogger
    simp [fifoNext, Logging.delivered, FifoAct.accepted, Logger.held, hlogger]
  | loggerRead k =>
    obtain ⟨hlogger, -⟩ := he
    simp [fifoNext, Logging.delivered, FifoAct.accepted, Logger.held, hlogger]
  | loggerWrite buf =>
    have hlogger : s.logger = .writing buf := he
    simp [fifoNext, Logging.delivered, FifoAct.accepted, Logger.held, hlogger]
  | chunk | writePipe | closeFifo => simp [fifoNext, Logging.delivered, FifoAct.accepted]

/-- Each byte of a chunk is still to be written, accepted, or dropped. -/
theorem unsent_next (he : fifoEnabled capacity s a) :
    (fifoNext s a).relay.unsent.length + a.accepted.length + a.dropped =
      s.relay.unsent.length + a.received.length := by
  cases a with
  | chunk buf =>
    simp [fifoNext, Handler.unsent, FifoAct.accepted, FifoAct.dropped, FifoAct.received, he.1]
  | writePipe buf | closeFifo =>
    have hrelay := he
    simp only [fifoEnabled] at hrelay
    simp [fifoNext, Handler.unsent, FifoAct.accepted, FifoAct.dropped, FifoAct.received, hrelay]
  | openFifo buf opened =>
    have hrelay : s.relay = .openFifo buf := he
    cases opened <;>
      simp [fifoNext, Handler.unsent, FifoAct.accepted, FifoAct.dropped, FifoAct.received, hrelay]
  | writeFifo buf n =>
    obtain ⟨hrelay, hacc⟩ := he
    have hle := hacc.le_len
    simp [fifoNext, Handler.unsent, FifoAct.accepted, FifoAct.dropped, FifoAct.received, hrelay]
    omega
  | loggerOpen | loggerOpened | loggerRead | loggerEof | loggerWrite | loggerExit =>
    simp [fifoNext, FifoAct.accepted, FifoAct.dropped, FifoAct.received]

/-- A whole step drops nothing of its chunk, and the order is kept. -/
theorem accepted_next (he : fifoEnabled capacity s a) (hwhole : a.Whole) :
    s.relay.unsent ++ a.received = a.accepted ++ (fifoNext s a).relay.unsent := by
  cases a with
  | chunk buf => simp [fifoNext, Handler.unsent, FifoAct.accepted, FifoAct.received, he.1]
  | writePipe buf | closeFifo =>
    have hrelay := he
    simp only [fifoEnabled] at hrelay
    simp [fifoNext, Handler.unsent, FifoAct.accepted, FifoAct.received, hrelay]
  | openFifo buf opened =>
    have hrelay : s.relay = .openFifo buf := he
    cases opened with
    | true => simp [fifoNext, Handler.unsent, FifoAct.accepted, FifoAct.received, hrelay]
    | false =>
      have hnil : buf = [] := by simpa [FifoAct.Whole] using hwhole
      simp [fifoNext, Handler.unsent, FifoAct.accepted, FifoAct.received, hrelay, hnil]
  | writeFifo buf n =>
    have hn : n = buf.length := hwhole
    simp [fifoNext, Handler.unsent, FifoAct.accepted, FifoAct.received, he.1, hn]
  | loggerOpen | loggerOpened | loggerRead | loggerEof | loggerWrite | loggerExit =>
    simp [fifoNext, FifoAct.accepted, FifoAct.received]

theorem whole_iff (he : fifoEnabled capacity s a) : a.Whole ↔ a.dropped = 0 := by
  cases a with
  | openFifo buf opened => cases opened <;> simp [FifoAct.Whole, FifoAct.dropped]
  | writeFifo buf n =>
    have hle := he.2.le_len
    simp only [FifoAct.Whole, FifoAct.dropped]
    omega
  | _ => simp [FifoAct.Whole, FifoAct.dropped]

theorem pipe_fifoNext (he : fifoEnabled capacity s a) :
    (fifoNext s a).pipe ++ unpiped (fifoNext s a).relay =
      s.pipe ++ unpiped s.relay ++ a.received := by
  cases a with
  | chunk buf => simp [fifoNext, unpiped, FifoAct.received, he.1]
  | writePipe buf | closeFifo =>
    have hrelay := he
    simp only [fifoEnabled] at hrelay
    simp [fifoNext, unpiped, FifoAct.received, hrelay]
  | openFifo buf opened =>
    have hrelay : s.relay = .openFifo buf := he
    cases opened <;> simp [fifoNext, unpiped, FifoAct.received, hrelay]
  | writeFifo buf n => simp [fifoNext, unpiped, FifoAct.received, he.1]
  | loggerOpen | loggerOpened | loggerRead | loggerEof | loggerWrite | loggerExit =>
    simp [fifoNext, unpiped, FifoAct.received]

/-- What a run has done with the chunks. -/
structure Carried (s : Logging) (as : List FifoAct) : Prop where
  lasting : Lasting s
  delivered : s.delivered = fifoAccepted as
  pipe : s.pipe ++ unpiped s.relay = fifoReceived as
  length : (fifoAccepted as).length + s.relay.unsent.length + fifoDropped as =
    (fifoReceived as).length
  whole : (∀ a ∈ as, a.Whole) → fifoAccepted as ++ s.relay.unsent = fifoReceived as
  dropped : fifoDropped as = 0 → ∀ a ∈ as, a.Whole

theorem carried_init {capacity : Nat} {s : Logging} (h : (fifoLogging capacity).init s) :
    Carried s [] := by
  have hlasting := lasting_of_init h
  rcases h with rfl | rfl
  · exact ⟨hlasting, rfl, rfl, rfl, fun _ => rfl, by simp⟩
  · exact ⟨hlasting, rfl, rfl, rfl, fun _ => rfl, by simp⟩

theorem Carried.next (h : Carried s as) (he : fifoEnabled capacity s a) :
    Carried (fifoNext s a) (as ++ [a]) := by
  refine ⟨h.lasting.next he, ?_, ?_, ?_, ?_, ?_⟩
  · rw [delivered_next he, h.delivered, fifoAccepted_snoc]
  · rw [pipe_fifoNext he, h.pipe, fifoReceived_snoc]
  · have hlength := h.length
    have hunsent := unsent_next he
    rw [fifoAccepted_snoc, fifoReceived_snoc, fifoDropped_snoc, List.length_append,
      List.length_append]
    omega
  · intro hwhole
    have hbefore := h.whole fun b hb => hwhole b (List.mem_append_left _ hb)
    rw [fifoAccepted_snoc, fifoReceived_snoc, ← hbefore, List.append_assoc, List.append_assoc,
      accepted_next he (hwhole a (by simp))]
  · intro hsum b hb
    rw [fifoDropped_snoc] at hsum
    rcases List.mem_append.mp hb with hb | hb
    · exact h.dropped (Nat.eq_zero_of_add_eq_zero_right hsum) b hb
    · rw [List.mem_singleton.mp hb, whole_iff he]
      exact Nat.eq_zero_of_add_eq_zero_left hsum

theorem carried (hs : (fifoLogging capacity).init s₀) (h : (fifoLogging capacity).Exec s₀ as s) :
    Carried s as := by
  induction h with
  | nil => exact carried_init hs
  | snoc _ he ih => exact ih.next he

/-! ## What reaches the log -/

/-- A step of the logger. -/
def FifoAct.OfLogger : FifoAct → Prop
  | .loggerOpen | .loggerOpened | .loggerRead _ | .loggerEof | .loggerWrite _ | .loggerExit => True
  | _ => False

/-- The logger runs, and the relay does not. -/
def draining (capacity : Nat) : Machine Logging FifoAct :=
  (fifoLogging capacity).restrict fun _ a => a.OfLogger

/-- The logger waits in `read`, and has logged all that it was given. -/
def Drained (s : Logging) : Prop := s.logger = .reading ∧ s.fifo = []

/-- How far the logger is from it. -/
def toLog (s : Logging) : Nat :=
  2 * s.fifo.length + match s.logger with
    | .forked => 2
    | .opening _ | .writing _ => 1
    | _ => 0

theorem draining_decreases : (draining capacity).Decreases Lasting toLog := by
  intro s a hs he
  obtain ⟨he, hlogger⟩ := he
  refine ⟨hs.next he, ?_⟩
  show toLog (fifoNext s a) < toLog s
  cases a with
  | loggerOpen =>
    have hforked : s.logger = .forked := he
    simp [toLog, fifoNext, hforked]
  | loggerOpened =>
    have hopening : s.logger = .opening true := he
    simp [toLog, fifoNext, hopening]
  | loggerRead k =>
    obtain ⟨hreading, hpos, -, hle⟩ := he
    simp only [toLog, fifoNext, hreading, List.length_drop]
    omega
  | loggerEof => exact absurd he.2.2 (Nat.ne_of_gt (writers_pos s))
  | loggerWrite buf =>
    have hwriting : s.logger = .writing buf := he
    simp [toLog, fifoNext, hwriting]
  | loggerExit =>
    have heof : s.logger = .eof := he
    have hlasting := hs.logger
    rw [heof] at hlasting
    simp [Logger.listening] at hlasting
  | chunk | writePipe | openFifo | writeFifo | closeFifo => exact hlogger.elim

theorem draining_enabled (hs : Lasting s) (h : ¬ Drained s) :
    ∃ a, (draining capacity).enabled s a := by
  have hlogger := hs.logger
  have hmet := hs.met
  cases hl : s.logger with
  | forked => exact ⟨.loggerOpen, hl, trivial⟩
  | opening met =>
    rw [hl] at hmet
    cases met with
    | true => exact ⟨.loggerOpened, hl, trivial⟩
    | false => exact absurd rfl hmet
  | reading =>
    have hne : s.fifo ≠ [] := fun hnil => h ⟨hl, hnil⟩
    have hpos : 0 < s.fifo.length := List.length_pos_iff.mpr hne
    exact ⟨.loggerRead 1, ⟨hl, Nat.zero_lt_one, by decide, hpos⟩, trivial⟩
  | writing buf => exact ⟨.loggerWrite buf, hl, trivial⟩
  | eof | exited =>
    rw [hl] at hlogger
    simp [Logger.listening] at hlogger

theorem accepted_of_draining {t : Logging} (h : (draining capacity).Exec s as t) :
    fifoAccepted as = [] ∧ t.relay = s.relay := by
  induction h with
  | nil => exact ⟨rfl, rfl⟩
  | @snoc as t a _ he ih =>
    obtain ⟨haccepted, hrelay⟩ := ih
    obtain ⟨-, hlogger⟩ := he
    rw [fifoAccepted_snoc, haccepted]
    cases a with
    | loggerOpen | loggerOpened | loggerRead | loggerEof | loggerWrite | loggerExit =>
      exact ⟨rfl, hrelay⟩
    | chunk | writePipe | openFifo | writeFifo | closeFifo => exact hlogger.elim

theorem drained_log {t : Logging} (h : Drained t) : t.delivered = t.log := by
  obtain ⟨hlogger, hfifo⟩ := h
  simp [Logging.delivered, Logger.held, hlogger, hfifo]

/-- In every run the logger goes on and the relay is not killed; what is in the log or on its
way to it is what the FIFO has accepted, in order; the logger, left alone, logs it all; and
between chunks it is what was received exactly if every chunk was written as a whole. The
pipe always gets everything. -/
theorem log_kept (hs : (fifoLogging capacity).init s₀) (h : (fifoLogging capacity).Exec s₀ as s) :
    Lasting s ∧ s.delivered = fifoAccepted as ∧ s.pipe ++ unpiped s.relay = fifoReceived as ∧
      (∃ bs t, (draining capacity).Exec s bs t ∧ t.log = fifoAccepted as ∧ Drained t) ∧
      (s.relay = .between → (s.delivered = fifoReceived as ↔ ∀ a ∈ as, a.Whole)) := by
  have hcarried := carried hs h
  refine ⟨hcarried.lasting, hcarried.delivered, hcarried.pipe, ?_, ?_⟩
  · obtain ⟨bs, t, hrun, ht⟩ :=
      draining_decreases.exists_final (fun s => draining_enabled) hcarried.lasting
    refine ⟨bs, t, hrun, ?_, ht⟩
    have hafter := (carried hs (h.append hrun.of_restrict)).delivered
    rw [drained_log ht] at hafter
    rw [hafter, fifoAccepted, List.flatMap_append]
    have hnone := (accepted_of_draining hrun).1
    unfold fifoAccepted at hnone ⊢
    rw [hnone, List.append_nil]
  · intro hbetween
    have hunsent : s.relay.unsent = [] := by
      rw [hbetween]
      rfl
    constructor
    · intro heq
      have hlength := hcarried.length
      rw [← hcarried.delivered, heq, hunsent, List.length_nil] at hlength
      exact hcarried.dropped (by omega)
    · intro hwhole
      have hall := hcarried.whole hwhole
      rw [hunsent, List.append_nil] at hall
      rw [hcarried.delivered, hall]

/-- A FIFO with room for four bytes takes the first chunk; the second is dropped. -/
def fullFifo : List FifoAct :=
  [.chunk [1, 2, 3], .writePipe [1, 2, 3], .openFifo [1, 2, 3] true, .writeFifo [1, 2, 3] 3,
    .closeFifo, .chunk [4, 5], .writePipe [4, 5], .openFifo [4, 5] true, .writeFifo [4, 5] 0,
    .closeFifo, .loggerOpen, .loggerOpened, .loggerRead 2, .loggerWrite [1, 2]]

theorem fullFifo_runs :
    ((fifoLogging 4).run ⟨.between, .forked, [], [], []⟩ fullFifo).isSome := by
  decide

theorem log_kept_fullFifo :
    (((fifoLogging 4).run ⟨.between, .forked, [], [], []⟩ fullFifo).get fullFifo_runs).delivered =
        [1, 2, 3] ∧
      ∃ bs t, (draining 4).Exec
        (((fifoLogging 4).run ⟨.between, .forked, [], [], []⟩ fullFifo).get fullFifo_runs) bs t ∧
        t.log = [1, 2, 3] ∧ Drained t := by
  obtain ⟨-, hdelivered, -, hlogged, -⟩ := log_kept (.inl rfl) (Machine.exec_run_get fullFifo_runs)
  exact ⟨hdelivered, hlogged⟩

end SisProg.PipeFifo
