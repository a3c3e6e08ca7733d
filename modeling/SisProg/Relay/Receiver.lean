import SisProg.Relay.Logging

/-!
# The receiver child

`forkReceiver` forks a child that copies the pipe to `std::cout` until `read`
returns `0`, and then calls `_exit(0)`. Its system is the relay with the logger, as
in the module before, and the pipe, the child and the buffer of `std::cout` on top
of it. The pipe ends when nobody has it open for writing: when the relay has ended,
and the logger as well, which got a copy of `pipeFd[1]` from `fork`.

`_exit` does not flush `std::cout`. What its buffer holds at that moment is lost,
and nothing else is: `receiver_delivers_iff`. A chunk that fits the buffer never
reaches the output if it is the last (`lastChunk_lost`). The receiver of the older
`relay.c` calls `write` and ends with `exit`.

The stream is any buffered stream. A call of its `write` passes some of the bytes
that it holds on to the output, and keeps the rest if it fits the buffer. With no
buffer at all everything is passed on (`unbuffered_delivers`).
-/

namespace SisProg.Relay

/-- Where the child of `forkReceiver` is. -/
inductive Receiver
  | reading
  | writing (buf : Bytes)
  | eof
  | exited
deriving DecidableEq

/-- The bytes that the receiver has read and not yet given to `std::cout`. -/
def Receiver.held : Receiver → Bytes
  | .writing buf => buf
  | _ => []

/-- The relay with both of its children. `cout` is what the buffer of the receiver's
`std::cout` holds, and `output` what has reached its standard output. -/
structure Receiving where
  server : Logging
  receiver : Receiver
  cout : Bytes
  output : Bytes
deriving DecidableEq

/-- A step of the relay or the logger, the end of the relay, or a step of the
receiver. In `write buf k` the stream passes `k` bytes on. -/
inductive RecvAct
  | server (a : LogAct)
  | terminate
  | read (k : Nat)
  | write (buf : Bytes) (k : Nat)
  | eof
  | exit
deriving DecidableEq

/-- Nobody has the pipe open for writing. -/
def Logging.PipeClosed (s : Logging) : Prop := s.relay = .killed ∧ s.logger = .exited

instance (s : Logging) : Decidable s.PipeClosed := inferInstanceAs (Decidable (_ ∧ _))

namespace Receiving

variable (capacity : Nat)

def enabled (s : Receiving) : RecvAct → Prop
  | .server a => s.server.enabled a
  | .terminate => s.server.relay ≠ .killed
  | .read k => s.receiver = .reading ∧ 0 < k ∧ k ≤ bufsiz ∧ k ≤ s.server.pipe.length
  | .write buf k => s.receiver = .writing buf ∧ (s.cout ++ buf).length ≤ k + capacity
  | .eof => s.receiver = .reading ∧ s.server.pipe = [] ∧ s.server.PipeClosed
  | .exit => s.receiver = .eof

def next (s : Receiving) : RecvAct → Receiving
  | .server a => { s with server := s.server.next a }
  -- the kernel closes what the relay has open
  | .terminate =>
      { s with server :=
        { s.server with
          relay := .killed
          fifo := if s.server.logger.reads then s.server.fifo else [] } }
  | .read k =>
      { s with
        server := { s.server with pipe := s.server.pipe.drop k }
        receiver := .writing (s.server.pipe.take k) }
  | .write buf k =>
      { s with
        receiver := .reading
        cout := (s.cout ++ buf).drop k
        output := s.output ++ (s.cout ++ buf).take k }
  | .eof => { s with receiver := .eof }
  -- `_exit` leaves the buffer as it is
  | .exit => { s with receiver := .exited, cout := [] }

instance (s : Receiving) (a : RecvAct) : Decidable (s.enabled capacity a) := by
  cases a <;> unfold enabled <;> infer_instance

end Receiving

/-- The processes after `forkLogger`. -/
def Receiving.start : Receiving := ⟨.start, .reading, [], []⟩

/-- The relay and its children, when the buffer of `std::cout` has room for
`capacity` bytes. -/
def receiving (capacity : Nat) : Machine Receiving RecvAct where
  init s := s = .start
  enabled := Receiving.enabled capacity
  next := Receiving.next

/-- What a step of the relay writes to the pipe. -/
def LogAct.written : LogAct → Bytes
  | .writePipe buf => buf
  | _ => []

def RecvAct.relayed : RecvAct → Bytes
  | .server a => a.written
  | _ => []

/-- The chunks that the relay has written to the pipe, one after the other. -/
def relayed (as : List RecvAct) : Bytes := as.flatMap RecvAct.relayed

theorem relayed_snoc (as : List RecvAct) (a : RecvAct) :
    relayed (as ++ [a]) = relayed as ++ a.relayed := by
  simp [relayed]

/-- The condition on a step: when the receiver exits, the buffer of `std::cout` is
empty. -/
def ExitsFlushed (s : Receiving) : RecvAct → Prop
  | .exit => s.cout = []
  | _ => True

instance (s : Receiving) (a : RecvAct) : Decidable (ExitsFlushed s a) := by
  cases a <;> unfold ExitsFlushed <;> infer_instance

instance (capacity : Nat) (s : Receiving) (a : RecvAct) :
    Decidable ((receiving capacity).enabled s a) :=
  inferInstanceAs (Decidable (s.enabled capacity a))

instance (capacity : Nat) (s : Receiving) (a : RecvAct) :
    Decidable (((receiving capacity).restrict ExitsFlushed).enabled s a) :=
  inferInstanceAs (Decidable (s.enabled capacity a ∧ ExitsFlushed s a))

variable {capacity : Nat}

/-! ## What becomes of the bytes -/

theorem pipe_next {s : Logging} (a : LogAct) : (s.next a).pipe = s.pipe ++ a.written := by
  cases a with
  | writePipe buf => rfl
  | openFifo buf | writeFifo buf =>
    simp only [Logging.next]
    split <;> exact (List.append_nil _).symm
  | _ => exact (List.append_nil _).symm

theorem not_enabled_of_pipeClosed {s : Logging} (h : s.PipeClosed) (a : LogAct) :
    ¬ s.enabled a := by
  obtain ⟨hr, hl⟩ := h
  cases a <;> simp [Logging.enabled, hr, hl]

/-- Until the receiver exits, the bytes that were relayed are in the output, the
buffer, the hands of the receiver and the pipe, in this order; and after the end of
file no process does anything that another could see. -/
structure Delivering (s : Receiving) (sent : Bytes) : Prop where
  conserved : s.receiver ≠ .exited →
    s.output ++ s.cout ++ s.receiver.held ++ s.server.pipe = sent
  ended : s.receiver = .eof ∨ s.receiver = .exited → s.server.pipe = [] ∧ s.server.PipeClosed

theorem delivering_next {s : Receiving} {a : RecvAct} {sent : Bytes} (h : Delivering s sent)
    (he : s.enabled capacity a) : Delivering (s.next a) (sent ++ a.relayed) := by
  cases a with
  | server a =>
    have hrun : ¬ (s.receiver = .eof ∨ s.receiver = .exited) :=
      fun hend => not_enabled_of_pipeClosed (h.ended hend).2 a he
    refine ⟨?_, fun hend => absurd hend hrun⟩
    intro hne
    show _ ++ (s.server.next a).pipe = _ ++ a.written
    rw [pipe_next, ← h.conserved hne, List.append_assoc _ _ a.written]
    rfl
  | terminate =>
    refine ⟨?_, fun hend => absurd (h.ended hend).2.1 he⟩
    intro hne
    rw [← h.conserved hne]
    exact (List.append_nil _).symm
  | read k =>
    obtain ⟨hr, -⟩ := he
    have hcons := h.conserved (by simp [hr])
    refine ⟨fun _ => ?_, by simp [Receiving.next]⟩
    rw [← hcons, hr]
    simp [Receiving.next, Receiver.held, RecvAct.relayed]
  | write buf k =>
    obtain ⟨hr, -⟩ := he
    have hcons := h.conserved (by simp [hr])
    refine ⟨fun _ => ?_, by simp [Receiving.next]⟩
    rw [← hcons, hr]
    simp only [Receiving.next, Receiver.held, RecvAct.relayed, List.append_nil]
    rw [List.append_assoc s.output, List.take_append_drop, ← List.append_assoc]
  | eof =>
    obtain ⟨hr, hpipe, hclosed⟩ := he
    have hcons := h.conserved (by simp [hr])
    refine ⟨fun _ => ?_, fun _ => ⟨hpipe, hclosed⟩⟩
    rw [← hcons, hr]
    simp [Receiving.next, Receiver.held, RecvAct.relayed]
  | exit => exact ⟨fun hne => absurd rfl hne, fun _ => h.ended (.inl he)⟩

theorem delivering_inv {s : Receiving} {as : List RecvAct}
    (h : (receiving capacity).Exec .start as s) : Delivering s (relayed as) := by
  induction h with
  | nil => exact ⟨fun _ => rfl, by simp [Receiving.start]⟩
  | snoc _ he ih =>
    rw [relayed_snoc]
    exact delivering_next ih he

theorem length_cout_le {s : Receiving} {as : List RecvAct}
    (h : (receiving capacity).Exec .start as s) : s.cout.length ≤ capacity := by
  refine h.induct (P := fun s => s.cout.length ≤ capacity) (Nat.zero_le _) ?_
  intro s a hs he
  cases a with
  | write buf k =>
    show ((s.cout ++ buf).drop k).length ≤ capacity
    rw [List.length_drop]
    exact Nat.sub_le_iff_le_add'.mpr he.2
  | exit => exact Nat.zero_le _
  | _ => exact hs

/-- Nothing happens after the exit. -/
theorem receiver_ne_exited {s : Receiving} {a : RecvAct} {sent : Bytes} (h : Delivering s sent)
    (he : s.enabled capacity a) : s.receiver ≠ .exited := by
  intro hr
  obtain ⟨-, hclosed⟩ := h.ended (.inr hr)
  cases a with
  | server a => exact not_enabled_of_pipeClosed hclosed a he
  | terminate => exact he hclosed.1
  | read k | write buf k | eof | exit => simp [Receiving.enabled, hr] at he

theorem exit_of_exited {s : Receiving} {a : RecvAct} {sent : Bytes} (h : Delivering s sent)
    (he : s.enabled capacity a) (hx : (s.next a).receiver = .exited) : a = .exit := by
  have hne := receiver_ne_exited h he
  cases a with
  | exit => rfl
  | server a | terminate => exact absurd hx hne
  | read k | write buf k | eof => cases hx

/-- A receiver at the end of the file has every byte in the output or in the buffer. -/
theorem output_append_cout {s : Receiving} {as : List RecvAct}
    (h : (receiving capacity).Exec .start as s) (hs : s.receiver = .eof) :
    s.output ++ s.cout = relayed as := by
  have hinv := delivering_inv h
  have hcons := hinv.conserved (by simp [hs])
  rw [hs, (hinv.ended (.inl hs)).1] at hcons
  simpa [Receiver.held] using hcons

theorem relayed_exit (as : List RecvAct) : relayed (as ++ [.exit]) = relayed as := by
  rw [relayed_snoc]
  exact List.append_nil _

theorem exec_exited {s : Receiving} {as : List RecvAct}
    (h : (receiving capacity).Exec .start as s) (hs : s.receiver = .exited) :
    ∃ bs t, as = bs ++ [.exit] ∧ (receiving capacity).Exec .start bs t ∧ t.receiver = .eof ∧
      s = t.next .exit := by
  rcases List.eq_nil_or_concat' as with rfl | ⟨bs, a, rfl⟩
  · generalize hnil : ([] : List RecvAct) = as at h
    cases h with
    | nil => cases hs
    | snoc => simp at hnil
  · obtain ⟨t, hrun, he, rfl⟩ := h.of_snoc
    obtain rfl := exit_of_exited (delivering_inv hrun) he hs
    exact ⟨bs, t, rfl, hrun, he, rfl⟩

theorem exec_flushed {s : Receiving} {as : List RecvAct}
    (h : (receiving capacity).Exec .start as s) (hs : s.receiver ≠ .exited) :
    ((receiving capacity).restrict ExitsFlushed).Exec .start as s := by
  induction h with
  | nil => exact .nil
  | @snoc as s a hrun he ih =>
    have hflushed : ExitsFlushed s a := by
      cases a with
      | exit => exact absurd rfl hs
      | _ => trivial
    exact (ih (receiver_ne_exited (delivering_inv hrun) he)).snoc ⟨he, hflushed⟩

/-- A stream without a buffer delivers everything. -/
theorem unbuffered_delivers {s : Receiving} {as : List RecvAct}
    (h : (receiving 0).Exec .start as s) (hs : s.receiver = .exited) :
    s.output = relayed as := by
  obtain ⟨bs, t, rfl, hrun, heof, rfl⟩ := exec_exited h hs
  have hcout : t.cout = [] := List.eq_nil_of_length_eq_zero (Nat.le_zero.mp (length_cout_le hrun))
  rw [relayed_exit, ← output_append_cout hrun heof, hcout, List.append_nil]
  rfl

/-- When the receiver has exited, its output is a first part of what was relayed; and
it is all of it exactly if the buffer of `std::cout` was empty at the exit. -/
theorem receiver_delivers_iff {s : Receiving} {as : List RecvAct}
    (h : (receiving capacity).Exec .start as s) (hs : s.receiver = .exited) :
    s.output <+: relayed as ∧
    (s.output = relayed as ↔
      ((receiving capacity).restrict ExitsFlushed).Exec .start as s) := by
  obtain ⟨bs, t, rfl, hrun, heof, rfl⟩ := exec_exited h hs
  have hsum := output_append_cout hrun heof
  rw [relayed_exit]
  refine ⟨⟨t.cout, hsum⟩, ?_, ?_⟩
  · intro hall
    have hcout : t.cout = [] := by
      rw [← hsum] at hall
      exact List.append_right_eq_self.mp hall.symm
    exact (exec_flushed hrun (by simp [heof])).snoc ⟨heof, hcout⟩
  · intro hflushed
    obtain ⟨u, hu, ⟨hueof, hucout⟩, hnext⟩ := hflushed.of_snoc
    have houtput : (t.next .exit).output = (u.next .exit).output :=
      congrArg Receiving.output hnext
    have husum := output_append_cout hu.of_restrict hueof
    rw [(hucout : u.cout = []), List.append_nil] at husum
    exact houtput.trans husum

/-- One chunk, and then the relay and the logger end. -/
def oneRelayed : List RecvAct :=
  oneChunk.map .server ++ [.server .loggerExit, .terminate, .read 1]

/-- The stream passes the chunk on. -/
def flushedRun : List RecvAct := oneRelayed ++ [.write [1] 1, .eof, .exit]

theorem flushedRun_runs : ((receiving bufsiz).run .start flushedRun).isSome := by
  decide

theorem receiver_delivers_flushed :
    ((receiving bufsiz).restrict ExitsFlushed).Exec .start flushedRun
      (((receiving bufsiz).run .start flushedRun).get flushedRun_runs) :=
  (receiver_delivers_iff (Machine.exec_run_get flushedRun_runs) (by decide)).2.mp (by decide)

/-- The stream keeps the chunk in its buffer. -/
def bufferedRun : List RecvAct := oneRelayed ++ [.write [1] 0, .eof, .exit]

theorem bufferedRun_runs : ((receiving bufsiz).run .start bufferedRun).isSome := by
  decide

theorem lastChunk_lost :
    ∃ s, (receiving bufsiz).Exec .start bufferedRun s ∧ s.receiver = .exited ∧
      relayed bufferedRun = [1] ∧ s.output = [] :=
  ⟨_, Machine.exec_run_get bufferedRun_runs, by decide, by decide, by decide⟩

end SisProg.Relay
