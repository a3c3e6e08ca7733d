import SisProg.Lib.Termination
import SisProg.Relay.Receiver

/-!
# What the relay leaves behind

When the relay ends, the kernel closes its descriptors, and its children are to read the end
of their files and exit. But the logger has a copy of `pipeFd[1]`, so that the receiver waits
for the logger. And the logger waits in its `open` for a writer of the FIFO, which nobody
will be any more.

`children_end_iff`: both children exit exactly if the relay has had the FIFO open while the
logger was in its `open`. Otherwise both are blocked for ever. A relay that ends before the
first chunk leaves them behind (`children_end_iff_unused`).
-/

namespace SisProg.Relay

variable {capacity : Nat} {s t : Receiving} {a : RecvAct} {as bs : List RecvAct}

/-- The `open` of the logger has returned, or will. -/
def Logger.admitted : Logger → Bool
  | .forked | .opening false => false
  | .opening true | .reading | .writing _ | .eof | .exited => true

/-- The relay opens the FIFO while the logger is in its `open`, or has it open when the
logger calls `open`. -/
def Meets (s : Receiving) : RecvAct → Prop
  | .server (.openFifo _) => ∃ b, s.server.logger = .opening b
  | .server .loggerOpen => s.server.relay.writes = true
  | _ => False

theorem admitted_next (he : s.enabled capacity a) :
    (s.next a).server.logger.admitted = true ↔ s.server.logger.admitted = true ∨ Meets s a := by
  cases a with
  | server a =>
    cases a with
    | openFifo buf =>
      show (s.server.next (.openFifo buf)).logger.admitted = true ↔
        _ ∨ ∃ b, s.server.logger = .opening b
      cases hlogger : s.server.logger with
      | opening b =>
        simp [Logging.next, hlogger, Logger.reads, Logger.meetWriter, Logger.admitted]
      | forked | reading | writing | eof | exited =>
        simp [Logging.next, hlogger, Logger.reads, Logger.meetWriter, Logger.admitted]
    | loggerOpen =>
      have hlogger : s.server.logger = .forked := he
      show (Logger.opening s.server.relay.writes).admitted = true ↔
        _ ∨ s.server.relay.writes = true
      rw [hlogger]
      cases s.server.relay.writes <;> simp [Logger.admitted]
    | writeFifo buf =>
      simp only [Receiving.next, Logging.next, Meets, or_false]
      split <;> rfl
    | loggerOpened | loggerWrite | loggerExit =>
      have hlogger : s.server.logger = _ := he
      simp [Receiving.next, Logging.next, Meets, Logger.admitted, hlogger]
    | loggerRead | loggerEof =>
      obtain ⟨hlogger, -⟩ := (he : s.server.logger = _ ∧ _)
      simp [Receiving.next, Logging.next, Meets, Logger.admitted, hlogger]
    | chunk | writePipe | closeFifo => exact (or_iff_left id).symm
  | terminate | read | write | eof | exit => exact (or_iff_left id).symm

theorem admitted_iff (h : (receiving capacity).Exec .start as s) :
    s.server.logger.admitted = true ↔ (receiving capacity).Happened Meets .start as := by
  induction h with
  | nil => exact iff_of_false (by decide) Machine.not_happened_nil
  | snoc hrun he ih => rw [Machine.happened_snoc hrun, ← ih, ← admitted_next he]; rfl

/-- Until then nothing is logged. -/
theorem log_eq_nil (h : (receiving capacity).Reachable s)
    (hs : s.server.logger.admitted = false) : s.server.log = [] := by
  refine h.induct (P := fun s => s.server.logger.admitted = false → s.server.log = []) ?_ ?_ hs
  · rintro s rfl _
    rfl
  · intro s a _ ih he hnot
    have hbefore : s.server.logger.admitted = false := by
      by_contra hne
      have hadmitted := (admitted_next he).mpr (.inl (eq_true_of_ne_false hne))
      rw [show (s.next a).server.logger.admitted = false from hnot] at hadmitted
      cases hadmitted
    have hlog := ih hbefore
    cases a with
    | server a =>
      cases a with
      | openFifo | writeFifo =>
        simp only [receiving, Receiving.next, Logging.next]
        split <;> exact hlog
      | loggerWrite buf =>
        rw [show s.server.logger = .writing buf from he] at hbefore
        cases hbefore
      | _ => exact hlog
    | _ => exact hlog

/-! ## After the end of the relay -/

/-- How far the logger is from its exit. -/
def Logger.rank : Logger → Nat
  | .exited => 0
  | .eof => 1
  | .reading => 2
  | .writing _ | .opening _ => 3
  | .forked => 4

def Receiver.rank : Receiver → Nat
  | .exited => 0
  | .eof => 1
  | .reading => 2
  | .writing _ => 3

/-- The steps that are left when the relay has ended. -/
def Receiving.left (s : Receiving) : Nat :=
  s.server.logger.rank + 2 * s.server.fifo.length + (s.receiver.rank + 2 * s.server.pipe.length)

/-- A read takes some bytes, and is followed by a write. -/
theorem read_lt {len k : Nat} (hpos : 0 < k) (hle : k ≤ len) :
    3 + 2 * (len - k) < 2 + 2 * len := by
  omega

/-- What the logger does, when nobody will write to the FIFO. -/
theorem logger_left_lt {l : Logging} {a : LogAct} (he : l.enabled a) (hdead : l.relay = .killed) :
    (l.next a).relay = .killed ∧ (l.next a).pipe = l.pipe ∧
      (l.next a).logger.rank + 2 * (l.next a).fifo.length <
        l.logger.rank + 2 * l.fifo.length := by
  cases a with
  | chunk | writePipe | openFifo | writeFifo | closeFifo =>
    simp [Logging.enabled, hdead] at he
  | loggerOpen | loggerOpened | loggerWrite =>
    refine ⟨hdead, rfl, Nat.add_lt_add_right ?_ _⟩
    rw [show l.logger = _ from he]
    exact Nat.lt_succ_self _
  | loggerRead k =>
    obtain ⟨hlogger, hpos, -, hle⟩ := he
    refine ⟨hdead, rfl, ?_⟩
    simp only [Logging.next, List.length_drop, hlogger]
    exact read_lt hpos hle
  | loggerEof =>
    refine ⟨hdead, rfl, Nat.add_lt_add_right ?_ _⟩
    rw [he.1]
    exact Nat.lt_succ_self _
  | loggerExit =>
    refine ⟨hdead, rfl, ?_⟩
    rw [show l.logger = .eof from he]
    have hfifo : (l.next .loggerExit).fifo.length ≤ l.fifo.length := by
      simp only [Logging.next]
      split
      · exact Nat.le_refl _
      · exact Nat.zero_le _
    exact Nat.add_lt_add_of_lt_of_le Nat.one_pos (Nat.mul_le_mul_left 2 hfifo)

theorem left_decreases :
    (receiving capacity).Decreases (fun s => s.server.relay = .killed) Receiving.left := by
  intro s a hdead he
  cases a with
  | server a =>
    obtain ⟨hkilled, hpipe, hlt⟩ := logger_left_lt he hdead
    refine ⟨hkilled, ?_⟩
    show _ + (s.receiver.rank + 2 * (s.server.next a).pipe.length) < _
    rw [hpipe]
    exact Nat.add_lt_add_right hlt _
  | terminate => exact absurd hdead he
  | read k =>
    obtain ⟨hreceiver, hpos, -, hle⟩ := he
    refine ⟨hdead, Nat.add_lt_add_left ?_ _⟩
    simp only [receiving, Receiving.next, List.length_drop, hreceiver]
    exact read_lt hpos hle
  | write buf k =>
    refine ⟨hdead, Nat.add_lt_add_left (Nat.add_lt_add_right ?_ _) _⟩
    rw [he.1]
    exact Nat.lt_succ_self _
  | eof =>
    refine ⟨hdead, Nat.add_lt_add_left (Nat.add_lt_add_right ?_ _) _⟩
    rw [he.1]
    exact Nat.lt_succ_self _
  | exit =>
    refine ⟨hdead, Nat.add_lt_add_left (Nat.add_lt_add_right ?_ _) _⟩
    rw [show s.receiver = .eof from he]
    exact Nat.lt_succ_self _

/-- The relay has ended, so that nobody meets the logger and nothing is relayed. -/
theorem dead_step (he : s.enabled capacity a) (hdead : s.server.relay = .killed) :
    ¬ Meets s a ∧ a.relayed = [] := by
  cases a with
  | server a =>
    cases a with
    | chunk | writePipe | openFifo | writeFifo | closeFifo =>
      simp [Receiving.enabled, Logging.enabled, hdead] at he
    | loggerOpen => simp [Meets, hdead, Handler.writes, RecvAct.relayed, LogAct.written]
    | _ => exact ⟨id, rfl⟩
  | _ => exact ⟨id, rfl⟩

theorem dead_run (hs : s.server.relay = .killed) (h : (receiving capacity).Exec s bs t) :
    t.server.logger.admitted = s.server.logger.admitted ∧ relayed bs = [] := by
  induction h with
  | nil => exact ⟨rfl, rfl⟩
  | snoc hrun he ih =>
    obtain ⟨hnot, hrelayed⟩ := dead_step he (left_decreases.run hs hrun).1
    refine ⟨?_, by rw [relayed_snoc, ih.2, hrelayed]; rfl⟩
    rw [← ih.1, Bool.eq_iff_iff]
    exact (admitted_next he).trans (or_iff_left hnot)

/-! ## Where it stops -/

def Receiving.Stopped (capacity : Nat) (s : Receiving) : Prop := ∀ a, ¬ s.enabled capacity a

theorem logger_stopped (hstop : s.Stopped capacity) (hdead : s.server.relay = .killed) :
    s.server.logger = .exited ∨ s.server.logger = .opening false := by
  cases hlogger : s.server.logger with
  | exited => exact .inl rfl
  | opening b =>
    cases b with
    | false => exact .inr rfl
    | true => exact absurd hlogger (hstop (.server .loggerOpened))
  | forked => exact absurd hlogger (hstop (.server .loggerOpen))
  | writing buf => exact absurd hlogger (hstop (.server (.loggerWrite buf)))
  | eof => exact absurd hlogger (hstop (.server .loggerExit))
  | reading =>
    cases hfifo : s.server.fifo with
    | nil => exact absurd ⟨hlogger, hfifo, by rw [hdead]; rfl⟩ (hstop (.server .loggerEof))
    | cons b fifo =>
      refine absurd ⟨hlogger, Nat.one_pos, by decide, ?_⟩ (hstop (.server (.loggerRead 1)))
      rw [hfifo]
      exact Nat.succ_pos _

theorem receiver_stopped (hstop : s.Stopped capacity) (hdead : s.server.relay = .killed) :
    s.receiver = .exited ∨
      s.receiver = .reading ∧ s.server.pipe = [] ∧ s.server.logger ≠ .exited := by
  cases hreceiver : s.receiver with
  | exited => exact .inl rfl
  | eof => exact absurd hreceiver (hstop .exit)
  | writing buf =>
    exact absurd ⟨hreceiver, Nat.le_add_right _ _⟩ (hstop (.write buf (s.cout ++ buf).length))
  | reading =>
    cases hpipe : s.server.pipe with
    | nil =>
      refine .inr ⟨rfl, rfl, fun hexited => ?_⟩
      exact hstop .eof ⟨hreceiver, hpipe, hdead, hexited⟩
    | cons b pipe =>
      refine absurd ⟨hreceiver, Nat.one_pos, by decide, ?_⟩ (hstop (.read 1))
      rw [hpipe]
      exact Nat.succ_pos _

/-- A logger that was let in exits, and then the receiver. -/
theorem stopped_of_admitted (hstop : t.Stopped capacity) (hdead : t.server.relay = .killed)
    (hadmitted : t.server.logger.admitted = true) :
    t.server.logger = .exited ∧ t.receiver = .exited := by
  rcases logger_stopped hstop hdead with hlogger | hlogger
  · refine ⟨hlogger, ?_⟩
    rcases receiver_stopped hstop hdead with hexited | ⟨-, -, hne⟩
    · exact hexited
    · exact absurd hlogger hne
  · rw [hlogger] at hadmitted
    cases hadmitted

/-- A logger that was not let in blocks, and the receiver with it. -/
theorem stopped_of_not_admitted (h : (receiving capacity).Exec .start as t)
    (hstop : t.Stopped capacity) (hdead : t.server.relay = .killed)
    (hnot : t.server.logger.admitted = false) :
    t.server.logger = .opening false ∧ t.server.log = [] ∧ t.receiver = .reading ∧
      t.server.pipe = [] ∧ t.output ++ t.cout = relayed as := by
  have hinv := delivering_inv h
  have hlogger : t.server.logger = .opening false := by
    refine (logger_stopped hstop hdead).resolve_left fun hexited => ?_
    rw [hexited] at hnot
    cases hnot
  refine ⟨hlogger, log_eq_nil (h.reachable rfl) hnot, ?_⟩
  rcases receiver_stopped hstop hdead with hexited | ⟨hreading, hpipe, -⟩
  · -- the receiver exits only after the logger
    have hclosed := (hinv.ended (.inr hexited)).2.2
    rw [hlogger] at hclosed
    cases hclosed
  · have hcons := hinv.conserved (by simp [hreading])
    rw [hreading, hpipe] at hcons
    exact ⟨hreading, hpipe, by simpa [Receiver.held] using hcons⟩

/-- When the relay has ended, at whatever point, its children take a bounded number of steps.
If the relay has ever had the FIFO open while the logger was in its `open`, both exit.
Otherwise the logger stays blocked in `open`, with nothing logged, and the receiver in its
`read`, because of the logger's copy of the write end. It has then read everything that was
relayed, and what the buffer of `std::cout` holds is never written. -/
theorem children_end_iff (h : (receiving capacity).Exec .start as s)
    (hdead : s.server.relay = .killed) :
    (∃ bs t, (receiving capacity).Exec s bs t ∧ t.Stopped capacity) ∧
      ∀ bs t, (receiving capacity).Exec s bs t → bs.length ≤ s.left ∧
        (t.Stopped capacity →
          ((receiving capacity).Happened Meets .start as →
            t.server.logger = .exited ∧ t.receiver = .exited) ∧
          (¬ (receiving capacity).Happened Meets .start as →
            t.server.logger = .opening false ∧ t.server.log = [] ∧ t.receiver = .reading ∧
              t.server.pipe = [] ∧ t.output ++ t.cout = relayed as)) := by
  refine ⟨left_decreases.exists_stopped hdead, fun bs t hrun =>
    ⟨left_decreases.length_le hdead hrun, fun hstop => ?_⟩⟩
  have hkilled := (left_decreases.run hdead hrun).1
  obtain ⟨hadmitted, hrelayed⟩ := dead_run hdead hrun
  rw [← admitted_iff h, ← hadmitted]
  refine ⟨stopped_of_admitted hstop hkilled, fun hnot => ?_⟩
  have hend := stopped_of_not_admitted (h.append hrun) hstop hkilled (eq_false_of_ne_true hnot)
  rwa [relayed, List.flatMap_append, show bs.flatMap RecvAct.relayed = [] from hrelayed,
    List.append_nil] at hend

/-- The relay ends before the first chunk. -/
theorem unused_stopped : Receiving.Stopped bufsiz
    ⟨⟨.killed, .opening false, [], [], []⟩, .reading, [], []⟩ := by
  intro a
  cases a with
  | server a => cases a <;> simp [Receiving.enabled, Logging.enabled]
  | read k => exact fun he => absurd he.2.1 (Nat.not_lt_of_le he.2.2.2)
  | _ => simp [Receiving.enabled, Logging.PipeClosed]

theorem not_happened_unused : ¬ (receiving bufsiz).Happened Meets .start [.terminate] := by
  intro h
  exact (((Machine.happened_snoc .nil).mp h).resolve_left Machine.not_happened_nil).elim

theorem children_end_iff_unused :
    ∃ t, (receiving bufsiz).Exec .start [.terminate, .server .loggerOpen] t ∧
      t.server.logger = .opening false ∧ t.receiver = .reading := by
  have hdead : (receiving bufsiz).Exec .start [.terminate] (Receiving.start.next .terminate) :=
    .single (by decide)
  have hopen : (receiving bufsiz).enabled (Receiving.start.next .terminate) (.server .loggerOpen) :=
    rfl
  have hend := (children_end_iff hdead rfl).2 _ _ (.single hopen)
  obtain ⟨hlogger, -, hreading, -⟩ := (hend.2 unused_stopped).2 not_happened_unused
  exact ⟨_, hdead.snoc hopen, hlogger, hreading⟩

end SisProg.Relay
