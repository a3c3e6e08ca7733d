import SisProg.Relay.Logging

/-!
# What the log has in any run

Chunks are lost while the logger has not opened the FIFO, and from the moment on at which it
has read `0`. In between none is. So the log is always one piece of what was received, with
nothing missing inside (`log_part`). The pipe to the receiver gets everything.
-/

namespace SisProg.Relay

variable {s t : Logging} {a : LogAct} {as : List LogAct} {sent : Bytes}

/-- The chunk that the relay has yet to write to the pipe. -/
def unpiped : Handler → Bytes
  | .writePipe buf => buf
  | _ => []

theorem pipe_next_unpiped (he : s.enabled a) :
    (s.next a).pipe ++ unpiped (s.next a).relay = s.pipe ++ unpiped s.relay ++ a.received := by
  cases a with
  | chunk buf => simp [Logging.next, unpiped, LogAct.received, he.1]
  | writePipe buf =>
    have hrelay : s.relay = .writePipe buf := he
    simp [Logging.next, unpiped, LogAct.received, hrelay]
  | openFifo buf =>
    have hrelay : s.relay = .openFifo buf := he
    simp only [Logging.next]
    split <;> simp [unpiped, LogAct.received, hrelay]
  | writeFifo buf =>
    have hrelay : s.relay = .writeFifo buf := he
    simp only [Logging.next]
    split <;> simp [unpiped, LogAct.received, hrelay]
  | closeFifo =>
    have hrelay : s.relay = .closeFifo := he
    simp [Logging.next, unpiped, LogAct.received, hrelay]
  | loggerOpen | loggerOpened | loggerRead | loggerEof | loggerWrite | loggerExit =>
    simp [Logging.next, LogAct.received]

theorem pipe_all (h : logging.Exec .start as s) : s.pipe ++ unpiped s.relay = received as := by
  induction h with
  | nil => rfl
  | snoc _ he ih => rw [received_snoc, ← ih, ← pipe_next_unpiped he]; rfl

/-! ## One piece -/

/-- The bytes that are in the log, or will be. -/
def Logging.kept (s : Logging) : Bytes := if s.logger.listening then s.delivered else s.log

/-- What was received before the logger opened the FIFO, what it has got since, and, if it
listens no more, what came after. -/
structure Piece (s : Logging) (sent missed late : Bytes) : Prop where
  sent : sent = missed ++ s.kept ++ late ++ s.relay.unsent
  listening : s.logger.listening = true → late = []
  forked : s.logger = .forked → s.delivered = [] ∧ s.relay.writes = false ∧ late = []

theorem piece_start : Piece .start [] [] [] :=
  ⟨rfl, fun _ => rfl, fun _ => ⟨rfl, rfl, rfl⟩⟩

theorem kept_of_listening (h : s.logger.listening = true) : s.kept = s.delivered := if_pos h

theorem kept_of_not_listening (h : s.logger.listening = false) : s.kept = s.log := by
  simp [Logging.kept, h]

/-- A step of the relay that does not end with a chunk. -/
theorem Piece.relay {missed late new : Bytes} (h : Piece s sent missed late)
    (hlistening : t.logger.listening = s.logger.listening)
    (hforked : t.logger = .forked → s.logger = .forked ∧ t.relay.writes = false)
    (hlog : t.log = s.log) (hdelivered : t.delivered = s.delivered)
    (hunsent : t.relay.unsent = s.relay.unsent ++ new) :
    Piece t (sent ++ new) missed late where
  sent := by
    have hkept : t.kept = s.kept := by
      unfold Logging.kept
      rw [hlistening, hdelivered, hlog]
    rw [hkept, hunsent, h.sent, ← List.append_assoc]
  listening hl := h.listening (hlistening ▸ hl)
  forked hf := by
    obtain ⟨hbefore, hwrites⟩ := hforked hf
    obtain ⟨hnil, -, hlate⟩ := h.forked hbefore
    exact ⟨hdelivered.trans hnil, hwrites, hlate⟩

/-- The chunk is lost: the logger has not opened the FIFO, or listens no more. -/
theorem Piece.lost {missed late : Bytes} (h : Piece s sent missed late)
    (hnot : s.logger.listening = false) (hlogger : t.logger = s.logger) (hlog : t.log = s.log)
    (hunsent : t.relay.unsent = [])
    (hforked : s.logger = .forked → t.delivered = s.delivered ∧ t.relay.writes = false) :
    ∃ missed' late', Piece t sent missed' late' := by
  have hnot' : t.logger.listening = false := by rw [hlogger, hnot]
  have hsent := h.sent
  rw [kept_of_not_listening hnot] at hsent
  rcases Decidable.em (s.logger = .forked) with hf | hf
  · obtain ⟨hdelivered, hwrites⟩ := hforked hf
    have hnil := (h.forked hf).1
    refine ⟨sent, [], ?_, fun _ => rfl, fun _ => ⟨hdelivered.trans hnil, hwrites, rfl⟩⟩
    have hlognil : s.log = [] := by
      simp only [Logging.delivered, List.append_assoc, List.append_eq_nil_iff] at hnil
      exact hnil.1
    rw [kept_of_not_listening hnot', hlog, hlognil, hunsent]
    simp
  · refine ⟨missed, late ++ s.relay.unsent, ?_, ?_, ?_⟩
    · rw [kept_of_not_listening hnot', hlog, hunsent, List.append_nil, ← List.append_assoc]
      exact hsent
    · intro hl
      rw [hnot'] at hl
      cases hl
    · intro ht
      exact absurd (hlogger ▸ ht) hf

/-- The logger goes from one state to another, both of which listen. -/
theorem Piece.logger {missed late : Bytes} (h : Piece s sent missed late)
    (hrelay : t.relay = s.relay) (hbefore : s.logger.listening = true)
    (hafter : t.logger.listening = true) (hdelivered : t.delivered = s.delivered) :
    Piece t sent missed late where
  sent := by
    rw [kept_of_listening hafter, hdelivered, hrelay, ← kept_of_listening hbefore]
    exact h.sent
  listening _ := h.listening hbefore
  forked hf := by
    rw [hf] at hafter
    cases hafter

theorem not_listening_of_not_reads (h : s.logger.reads = false) : s.logger.listening = false := by
  cases hl : s.logger <;> simp_all [Logger.reads, Logger.listening]

theorem piece_next {missed late : Bytes} (h : Piece s sent missed late) (he : s.enabled a) :
    ∃ missed' late', Piece (s.next a) (sent ++ a.received) missed' late' := by
  cases a with
  | chunk buf =>
    refine ⟨missed, late, h.relay rfl (fun hf => ⟨hf, rfl⟩) rfl rfl ?_⟩
    simp [Logging.next, Handler.unsent, LogAct.received, he.1]
  | writePipe buf =>
    have hrelay : s.relay = .writePipe buf := he
    refine ⟨missed, late, h.relay rfl (fun hf => ⟨hf, rfl⟩) rfl rfl ?_⟩
    simp [Logging.next, Handler.unsent, LogAct.received, hrelay]
  | openFifo buf =>
    have hrelay : s.relay = .openFifo buf := he
    show ∃ missed' late', Piece _ (sent ++ []) missed' late'
    rw [List.append_nil]
    cases hreads : s.logger.reads with
    | true =>
      have hnext : s.next (.openFifo buf) =
          { s with relay := .writeFifo buf, logger := s.logger.meetWriter } := if_pos hreads
      have hmeet : s.logger.meetWriter ≠ .forked := by
        cases hl : s.logger with
        | forked =>
          rw [hl] at hreads
          cases hreads
        | _ => simp [Logger.meetWriter]
      rw [hnext, ← List.append_nil sent]
      refine ⟨missed, late, h.relay (Logger.listening_meetWriter _) (fun hf => absurd hf hmeet) rfl
        ?_ ?_⟩
      · simp [Logging.delivered]
      · simp [Handler.unsent, hrelay]
    | false =>
      have hnext : s.next (.openFifo buf) = { s with relay := .between } := by
        simp [Logging.next, hreads]
      rw [hnext]
      exact h.lost (not_listening_of_not_reads hreads) rfl rfl rfl fun _ => ⟨rfl, rfl⟩
  | writeFifo buf =>
    have hrelay : s.relay = .writeFifo buf := he
    show ∃ missed' late', Piece _ (sent ++ []) missed' late'
    rw [List.append_nil]
    have hforked : s.logger ≠ .forked := by
      intro hf
      have hwrites := (h.forked hf).2.1
      rw [hrelay] at hwrites
      cases hwrites
    cases hreads : s.logger.reads with
    | true =>
      have hnext : s.next (.writeFifo buf) =
          { s with relay := .closeFifo, fifo := s.fifo ++ buf } := if_pos hreads
      rw [hnext]
      cases hl : s.logger.listening with
      | true =>
        have hsent := h.sent
        rw [kept_of_listening hl, h.listening hl, hrelay] at hsent
        refine ⟨missed, [], ?_, fun _ => rfl, fun hf => absurd hf hforked⟩
        have hkept : Logging.kept ⟨.closeFifo, s.logger, s.pipe, s.fifo ++ buf, s.log⟩ =
            s.delivered ++ buf := by
          simp [Logging.kept, Logging.delivered, hl]
        rw [hkept, hsent]
        simp [Handler.unsent]
      | false => exact h.lost hl rfl rfl rfl fun hf => absurd hf hforked
    | false =>
      have hnext : s.next (.writeFifo buf) = { s with relay := .killed } := by
        simp [Logging.next, hreads]
      rw [hnext]
      exact h.lost (not_listening_of_not_reads hreads) rfl rfl rfl fun hf => absurd hf hforked
  | closeFifo =>
    have hrelay : s.relay = .closeFifo := he
    show ∃ missed' late', Piece _ (sent ++ []) missed' late'
    rw [List.append_nil]
    cases hl : s.logger.listening with
    | true =>
      rw [next_closeFifo hl, ← List.append_nil sent]
      refine ⟨missed, late, h.relay rfl (fun hf => ⟨hf, rfl⟩) rfl rfl ?_⟩
      simp [Handler.unsent, hrelay]
    | false =>
      refine h.lost hl rfl rfl rfl ?_
      intro hf
      have hwrites := (h.forked hf).2.1
      rw [hrelay] at hwrites
      cases hwrites
  | loggerOpen =>
    have hforked : s.logger = .forked := he
    have hsent := h.sent
    obtain ⟨hnil, -, hlate⟩ := h.forked hforked
    simp only [Logging.delivered, hforked, Logger.held, List.append_nil,
      List.append_eq_nil_iff] at hnil
    rw [kept_of_not_listening (by rw [hforked]; rfl), hnil.1, hlate] at hsent
    show ∃ missed' late', Piece _ (sent ++ []) missed' late'
    refine ⟨missed, [], ?_, fun _ => rfl, by intro hf; cases hf⟩
    simp [Logging.kept, Logging.next, Logging.delivered, Logger.listening, Logger.held, hnil, hsent]
  | loggerOpened =>
    have hopening : s.logger = .opening true := he
    show ∃ missed' late', Piece _ (sent ++ []) missed' late'
    rw [List.append_nil]
    refine ⟨missed, late, h.logger rfl (by rw [hopening]; rfl) rfl ?_⟩
    simp [Logging.next, Logging.delivered, Logger.held, hopening]
  | loggerRead k =>
    obtain ⟨hreading, -⟩ := he
    show ∃ missed' late', Piece _ (sent ++ []) missed' late'
    rw [List.append_nil]
    refine ⟨missed, late, h.logger rfl (by rw [hreading]; rfl) rfl ?_⟩
    simp [Logging.next, Logging.delivered, Logger.held, hreading]
  | loggerEof =>
    obtain ⟨hreading, hfifo, -⟩ := he
    have hl : s.logger.listening = true := by
      rw [hreading]
      rfl
    have hsent := h.sent
    rw [kept_of_listening hl, h.listening hl] at hsent
    show ∃ missed' late', Piece _ (sent ++ []) missed' late'
    refine ⟨missed, [], ?_, fun _ => rfl, by intro hf; cases hf⟩
    rw [hsent]
    simp [Logging.kept, Logging.next, Logging.delivered, Logger.listening, Logger.held, hreading,
      hfifo]
  | loggerWrite buf =>
    have hwriting : s.logger = .writing buf := he
    show ∃ missed' late', Piece _ (sent ++ []) missed' late'
    rw [List.append_nil]
    refine ⟨missed, late, h.logger rfl (by rw [hwriting]; rfl) rfl ?_⟩
    simp [Logging.next, Logging.delivered, Logger.held, hwriting]
  | loggerExit =>
    have heof : s.logger = .eof := he
    have hsent := h.sent
    rw [kept_of_not_listening (by rw [heof]; rfl)] at hsent
    show ∃ missed' late', Piece _ (sent ++ []) missed' late'
    rw [List.append_nil]
    exact ⟨missed, late, hsent, (by intro hl; cases hl), by intro hf; cases hf⟩

theorem piece (h : logging.Exec .start as s) :
    ∃ missed late, Piece s (received as) missed late := by
  induction h with
  | nil => exact ⟨[], [], piece_start⟩
  | snoc _ he ih =>
    obtain ⟨missed, late, hpiece⟩ := ih
    rw [received_snoc]
    exact piece_next hpiece he

/-- A logger that has read `0` logs nothing more. -/
theorem log_of_ended (hs : s.logger = .eof ∨ s.logger = .exited) (h : logging.Exec s as t) :
    t.log = s.log ∧ (t.logger = .eof ∨ t.logger = .exited) := by
  induction h with
  | nil => exact ⟨rfl, hs⟩
  | @snoc as u a _ he ih =>
    obtain ⟨hlog, hended⟩ := ih
    have hmeet : u.logger.meetWriter = u.logger := by
      rcases hended with heof | hexited
      · rw [heof]
        rfl
      · rw [hexited]
        rfl
    -- the logger has one step left, and the relay's steps do not touch the log
    cases a with
    | chunk | writePipe | closeFifo => exact ⟨hlog, hended⟩
    | openFifo buf =>
      simp only [logging, Logging.next, hmeet]
      split <;> exact ⟨hlog, hended⟩
    | writeFifo buf =>
      simp only [logging, Logging.next]
      split <;> exact ⟨hlog, hended⟩
    | loggerExit => exact ⟨hlog, .inr rfl⟩
    | loggerOpen | loggerOpened | loggerWrite =>
      have hlogger := he
      simp only [logging, Logging.enabled] at hlogger
      rw [hlogger] at hended
      simp at hended
    | loggerRead | loggerEof =>
      have hlogger := he.1
      rw [hlogger] at hended
      simp at hended

/-- A chunk comes before the logger is there, the next one is logged. -/
def lateLogger : List LogAct :=
  [.chunk [1], .writePipe [1], .openFifo [1], .loggerOpen, .chunk [2], .writePipe [2],
    .openFifo [2], .loggerOpened, .writeFifo [2], .closeFifo, .loggerRead 1, .loggerWrite [2],
    .loggerEof, .chunk [3], .writePipe [3]]

theorem lateLogger_runs : (logging.run .start lateLogger).isSome := by decide

end SisProg.Relay
