import SisProg.Lib.Bytes
import SisProg.Lib.Termination
import Mathlib.Logic.Function.Basic

/-!
# Two processes and two pipes

`main` of `pipe.c` makes two pipes and forks. Each process closes the ends that it does not
use, writes to the other one, reads what the other has written, closes two descriptors and
prints. The parent closes the two that it has already closed, and keeps its own ends until
it exits. It does not wait for the child, and neither puts a NUL behind what it has read.

`exchange_completes`: in every interleaving both read the whole message and exit. What is
printed is the message exactly if the memory of `readBuff` had a NUL behind it.
-/

namespace SisProg.Provjera4

open Bytes (ascii)

def bufferSize : Nat := 1024

inductive Process
  | parent
  | child
deriving DecidableEq

inductive Pipe
  | pipeFd1
  | pipeFd2
deriving DecidableEq

/-- The descriptors `[0]` and `[1]` of a pipe. -/
inductive End
  | read
  | write
deriving DecidableEq

/-- Where a process is, after `fork`. -/
inductive Pc
  | closeFirst
  | closeSecond
  | write
  | read
  | closeThird
  | closeFourth
  | print
  | exited
  | killed
deriving DecidableEq

namespace Process

def other : Process → Process
  | .parent => .child
  | .child => .parent

def writeBuff : Process → Bytes
  | .parent => ascii "to child"
  | .child => ascii "to parent"

/-- The pipe that the process writes to. -/
def pipe : Process → Pipe
  | .parent => .pipeFd1
  | .child => .pipeFd2

def format : Process → Bytes
  | .parent => ascii "parent: "
  | .child => ascii "child: "

/-- What the process closes before it writes, and after it has read. -/
def closes : Process → Pc → Option (Pipe × End)
  | .parent, .closeFirst => some (.pipeFd1, .read)
  | .parent, .closeSecond => some (.pipeFd2, .write)
  | .child, .closeFirst => some (.pipeFd1, .write)
  | .child, .closeSecond => some (.pipeFd2, .read)
  | _, .closeThird => some (.pipeFd1, .read)
  | _, .closeFourth => some (.pipeFd2, .write)
  | _, _ => none

end Process

/-- How far a process is. -/
def Pc.rank : Pc → Nat
  | .closeFirst => 0
  | .closeSecond => 1
  | .write => 2
  | .read => 3
  | .closeThird => 4
  | .closeFourth => 5
  | .print => 6
  | .exited => 7
  | .killed => 8

/-- The statement that follows. -/
def Pc.succ : Pc → Pc
  | .closeFirst => .closeSecond
  | .closeSecond => .write
  | .write => .read
  | .read => .closeThird
  | .closeThird => .closeFourth
  | .closeFourth => .print
  | .print => .exited
  | .exited => .exited
  | .killed => .killed

/-- `received` is what the read has put at the front of `readBuff`. A line of the output is
`none` if `printf` has read beyond the array. -/
structure State where
  pc : Process → Pc
  isOpen : Process → Pipe × End → Bool
  data : Pipe → Bytes
  received : Process → Option Bytes
  out : List (Process × Option Bytes)

def start : State where
  pc _ := .closeFirst
  isOpen _ _ := true
  data _ := []
  received _ := none
  out := []

/-- `printf` of a format with one `%s` and a newline, for an array that holds `mem`. -/
def printed (format mem : Bytes) : Option Bytes :=
  if 0 ∈ mem then some (format ++ mem.cstr ++ ascii "\n") else none

namespace State

/-- Somebody has the descriptor open. -/
def held (s : State) (fd : Pipe × End) : Bool := s.isOpen .parent fd || s.isOpen .child fd

/-- A process is ready, unless it has ended, or reads from an empty pipe that somebody can
write to. -/
def Ready (s : State) (w : Process) : Prop :=
  match s.pc w with
  | .exited | .killed => False
  | .read =>
    s.isOpen w (w.other.pipe, .read) = true → s.data w.other.pipe = [] →
      s.held (w.other.pipe, .write) = false
  | _ => True

instance (s : State) (w : Process) : Decidable (s.Ready w) := by
  unfold Ready
  cases s.pc w <;> infer_instance

/-- The process goes on with the next statement. -/
def advance (s : State) (w : Process) : State :=
  { s with pc := Function.update s.pc w (s.pc w).succ }

/-- `close`; it fails on a descriptor that is not open. -/
def close (s : State) (w : Process) (fd : Option (Pipe × End)) : State :=
  { s with isOpen := Function.update s.isOpen w fun fd' => s.isOpen w fd' && fd ≠ some fd' }

/-- `exit` closes what is open. -/
def exit (s : State) (w : Process) (pc : Pc) : State :=
  { s with pc := Function.update s.pc w pc, isOpen := Function.update s.isOpen w fun _ => false }

/-- `write`: without a reader it raises `SIGPIPE`. -/
def write (s : State) (w : Process) : State :=
  if s.isOpen w (w.pipe, .write) then
    if s.held (w.pipe, .read) then
      { s.advance w with data := Function.update s.data w.pipe (s.data w.pipe ++ w.writeBuff) }
    else s.exit w .killed
  else s.advance w

/-- `read`. A negative result is not noticed, since `nread` is a `size_t`. -/
def read (s : State) (w : Process) : State :=
  if s.isOpen w (w.other.pipe, .read) then
    { s.advance w with
      data := Function.update s.data w.other.pipe ((s.data w.other.pipe).drop bufferSize)
      received := Function.update s.received w (some ((s.data w.other.pipe).take bufferSize)) }
  else s.advance w

/-- What `readBuff` holds, when its memory held `mem`. -/
def readBuff (s : State) (mem : Bytes) (w : Process) : Bytes :=
  let buf := (s.received w).getD []
  buf ++ mem.drop buf.length

variable (mem : Process → Bytes)

def next (s : State) (w : Process) : State :=
  match s.pc w with
  | .closeFirst | .closeSecond | .closeThird | .closeFourth =>
    (s.close w (w.closes (s.pc w))).advance w
  | .write => s.write w
  | .read => s.read w
  | .print =>
    { s.exit w .exited with out := s.out ++ [(w, printed w.format (s.readBuff (mem w) w))] }
  | .exited | .killed => s

end State

/-- The processes after `fork`; `mem` is what the memory of each `readBuff` holds. A step is
named by the process that takes it. -/
def exchange (mem : Process → Bytes) : Machine State Process where
  init s := s = start
  enabled := State.Ready
  next := State.next mem

instance (mem : Process → Bytes) (s : State) (w : Process) :
    Decidable ((exchange mem).enabled s w) :=
  inferInstanceAs (Decidable (s.Ready w))

variable {m : Process → Bytes} {s : State} {w : Process} {as : List Process}

/-! ## A message on its way -/

theorem other_other (w : Process) : w.other.other = w := by cases w <;> rfl

theorem ne_other (w : Process) : w.other ≠ w := by cases w <;> decide

theorem held_of_isOpen {fd : Pipe × End} (h : s.isOpen w fd = true) : s.held fd = true := by
  cases w <;> simp [State.held, h]

theorem pipe_other_ne (w : Process) : w.other.pipe ≠ w.pipe := by cases w <;> decide

/-- The descriptors that the message needs stay open until it is read. -/
theorem closes_ne {pc : Pc} (hpc : pc.succ.rank ≤ 3) (w : Process) :
    w.closes pc ≠ some (w.pipe, .write) ∧ w.closes pc ≠ some (w.other.pipe, .read) := by
  cases pc <;> first | exact absurd hpc (by decide) | (cases w <;> decide)

/-- How the message of `w` stands, of which the other process is the reader. -/
structure Message (w : Process) (s : State) : Prop where
  writable : (s.pc w).rank ≤ 3 → s.isOpen w (w.pipe, .write) = true
  readable : (s.pc w.other).rank ≤ 3 → s.isOpen w.other (w.pipe, .read) = true
  order : 4 ≤ (s.pc w.other).rank → 3 ≤ (s.pc w).rank
  data : s.data w.pipe =
    if 3 ≤ (s.pc w).rank ∧ (s.pc w.other).rank ≤ 3 then w.writeBuff else []
  received : s.received w.other = if 4 ≤ (s.pc w.other).rank then some w.writeBuff else none

theorem message_start (w : Process) : Message w start :=
  ⟨fun _ => rfl, fun _ => rfl, fun h => absurd h (by decide : ¬ 4 ≤ 0), rfl, rfl⟩

/-- The writer goes on, and leaves the pipe alone. -/
theorem Message.writer {t : State} (h : Message w s)
    (hpc : t.pc = Function.update s.pc w (s.pc w).succ)
    (hopen : (s.pc w).succ.rank ≤ 3 → t.isOpen w (w.pipe, .write) = true)
    (hother : t.isOpen w.other = s.isOpen w.other)
    (hrank : 3 ≤ (s.pc w).succ.rank ↔ 3 ≤ (s.pc w).rank)
    (hdata : t.data w.pipe = s.data w.pipe) (hreceived : t.received w.other = s.received w.other) :
    Message w t := by
  have hw : t.pc w = (s.pc w).succ := by rw [hpc, Function.update_self]
  have ho : t.pc w.other = s.pc w.other := by rw [hpc, Function.update_of_ne (ne_other w)]
  refine ⟨?_, ?_, ?_, ?_, ?_⟩
  · rwa [hw]
  · rw [ho, hother]
    exact h.readable
  · rw [hw, ho, hrank]
    exact h.order
  · rw [hdata, h.data, hw, ho]
    exact if_congr (and_congr_left' hrank.symm) rfl rfl
  · rw [hreceived, h.received, ho]

/-- The reader goes on, and has not read. -/
theorem Message.reader {t : State} (h : Message w s)
    (hpc : t.pc = Function.update s.pc w.other (s.pc w.other).succ)
    (hopen : (s.pc w.other).succ.rank ≤ 3 → t.isOpen w.other (w.pipe, .read) = true)
    (hother : t.isOpen w = s.isOpen w)
    (hrank : 4 ≤ (s.pc w.other).succ.rank ↔ 4 ≤ (s.pc w.other).rank)
    (hdata : t.data w.pipe = s.data w.pipe) (hreceived : t.received w.other = s.received w.other) :
    Message w t := by
  have hw : t.pc w = s.pc w := by rw [hpc, Function.update_of_ne (ne_other w).symm]
  have ho : t.pc w.other = (s.pc w.other).succ := by rw [hpc, Function.update_self]
  have hrank' : (s.pc w.other).succ.rank ≤ 3 ↔ (s.pc w.other).rank ≤ 3 := by
    rw [← Nat.not_lt, ← Nat.not_lt]
    exact not_congr hrank
  refine ⟨?_, ?_, ?_, ?_, ?_⟩
  · rw [hw, hother]
    exact h.writable
  · rwa [ho]
  · rw [hw, ho, hrank]
    exact h.order
  · rw [hdata, h.data, hw, ho]
    exact if_congr (and_congr_right' hrank'.symm) rfl rfl
  · rw [hreceived, h.received, ho]
    exact if_congr hrank.symm rfl rfl

/-! ## A step -/

theorem forall_of_both {P : Process → Prop} (w : Process) (h : P w) (h' : P w.other) (v : Process) :
    P v := by
  cases w <;> cases v <;> assumption

/-- The write is accepted: the reader has not read, since there was nothing to read. -/
theorem next_write (h : ∀ w, Message w s) (hpc : s.pc w = .write) :
    s.next m w =
      { s.advance w with data := Function.update s.data w.pipe w.writeBuff } := by
  have hwritable : s.isOpen w (w.pipe, .write) = true := (h w).writable (by rw [hpc]; decide)
  have hrank : (s.pc w.other).rank ≤ 3 := by
    refine Nat.not_lt.mp fun hlt => ?_
    have hle := (h w).order hlt
    rw [hpc] at hle
    exact absurd hle (by decide)
  have hreadable := (h w).readable hrank
  have hdata : s.data w.pipe = [] := by
    rw [(h w).data, if_neg (fun hle => absurd (hpc ▸ hle.1) (by decide))]
  simp only [State.next, hpc, State.write, if_pos hwritable,
    if_pos (held_of_isOpen hreadable), hdata, List.nil_append]

/-- The read returns the message: somebody has the pipe open for writing, so that it would
wait otherwise. -/
theorem next_read (h : ∀ w, Message w s) (hpc : s.pc w = .read) (he : s.Ready w) :
    3 ≤ (s.pc w.other).rank ∧
      s.next m w =
        { s.advance w with
          data := Function.update s.data w.other.pipe []
          received := Function.update s.received w (some w.other.writeBuff) } := by
  have hmsg := h w.other
  have hrank : (s.pc w.other.other).rank ≤ 3 := by rw [other_other, hpc]; decide
  have hreadable := hmsg.readable hrank
  rw [other_other] at hreadable
  simp only [State.Ready, hpc] at he
  have hdata := hmsg.data
  have hwritten : 3 ≤ (s.pc w.other).rank := by
    by_contra hnot
    rw [if_neg fun hle => hnot hle.1] at hdata
    have hheld := held_of_isOpen (hmsg.writable (Nat.le_of_not_le hnot))
    rw [he hreadable hdata] at hheld
    cases hheld
  rw [if_pos ⟨hwritten, hrank⟩] at hdata
  have hlength : w.other.writeBuff.length ≤ bufferSize := by cases w <;> decide
  refine ⟨hwritten, ?_⟩
  simp only [State.next, hpc, State.read, if_pos hreadable, hdata, List.drop_of_length_le hlength,
    List.take_of_length_le hlength]

theorem pc_next (h : ∀ w, Message w s) (he : s.Ready w) :
    (s.next m w).pc = Function.update s.pc w (s.pc w).succ := by
  cases hpc : s.pc w with
  | write => rw [next_write h hpc]; simp [State.advance, hpc]
  | read => rw [(next_read h hpc he).2]; simp [State.advance, hpc]
  | closeFirst | closeSecond | closeThird | closeFourth =>
    simp [State.next, State.advance, State.close, hpc]
  | print => simp [State.next, State.exit, hpc, Pc.succ]
  | exited | killed => simp [State.Ready, hpc] at he

/-- What the process does to its own message. -/
theorem Message.next_self (h : ∀ w, Message w s) (he : s.Ready w) :
    Message w (s.next m w) := by
  have hpc' := pc_next (m := m) h he
  cases hpc : s.pc w with
  | closeFirst | closeSecond | closeThird | closeFourth =>
    refine (h w).writer hpc' ?_ ?_ (by rw [hpc]; decide) ?_ ?_
    · intro hle
      have hne := (closes_ne hle w).1
      have hwritable := (h w).writable (by rw [hpc] at hle ⊢; exact Nat.le_of_succ_le hle)
      rw [hpc] at hne
      simp [State.next, State.close, State.advance, hpc, hwritable, hne]
    all_goals simp [State.next, State.close, State.advance, hpc, ne_other]
  | write =>
    have hw : (s.next m w).pc w = .read := by rw [hpc', Function.update_self, hpc]; rfl
    have ho : (s.next m w).pc w.other = s.pc w.other := by
      rw [hpc', Function.update_of_ne (ne_other w)]
    have hle : (s.pc w).rank ≤ 3 := by rw [hpc]; decide
    have hrank : (s.pc w.other).rank ≤ 3 := by
      refine Nat.not_lt.mp fun hlt => ?_
      have hle := (h w).order hlt
      rw [hpc] at hle
      exact absurd hle (by decide)
    refine ⟨fun _ => ?_, fun _ => ?_, fun _ => by rw [hw]; decide, ?_, ?_⟩
    · rw [next_write h hpc]
      exact (h w).writable hle
    · rw [next_write h hpc]
      exact (h w).readable hrank
    · rw [hw, ho, if_pos ⟨Nat.le_refl 3, hrank⟩, next_write h hpc]
      exact Function.update_self ..
    · rw [ho, ← (h w).received, next_write h hpc]
      rfl
  | read =>
    obtain ⟨-, hnext⟩ := next_read (m := m) h hpc he
    refine (h w).writer hpc' (fun hle => absurd hle (by rw [hpc]; decide)) ?_
      (by rw [hpc]; decide) ?_ ?_
    · rw [hnext]
      rfl
    · rw [hnext]
      exact Function.update_of_ne (pipe_other_ne w).symm _ _
    · rw [hnext]
      exact Function.update_of_ne (ne_other w) _ _
  | print =>
    refine (h w).writer hpc' (fun hle => absurd hle (by rw [hpc]; decide)) ?_
      (by rw [hpc]; decide) ?_ ?_
    all_goals simp [State.next, State.exit, hpc, ne_other]
  | exited | killed => simp [State.Ready, hpc] at he

/-- What the process does to the message that it reads. -/
theorem Message.next_other (h : ∀ w, Message w s) (he : s.Ready w.other) :
    Message w (s.next m w.other) := by
  have hpc' := pc_next (m := m) h he
  have hne := ne_other w
  cases hpc : s.pc w.other with
  | closeFirst | closeSecond | closeThird | closeFourth =>
    refine (h w).reader hpc' ?_ ?_ (by rw [hpc]; decide) ?_ ?_
    · intro hle
      have hclose := (closes_ne hle w.other).2
      have hreadable := (h w).readable (by rw [hpc] at hle ⊢; exact Nat.le_of_succ_le hle)
      rw [hpc, other_other] at hclose
      simp [State.next, State.close, State.advance, hpc, hreadable, hclose]
    all_goals simp [State.next, State.close, State.advance, hpc, hne.symm]
  | write =>
    have hnext := next_write (m := m) h hpc
    refine (h w).reader hpc' ?_ ?_ (by rw [hpc]; decide) ?_ ?_
    · intro _
      rw [hnext]
      exact (h w).readable (by rw [hpc]; decide)
    · rw [hnext]
      rfl
    · rw [hnext]
      exact Function.update_of_ne (pipe_other_ne w).symm _ _
    · rw [hnext]
      rfl
  | read =>
    obtain ⟨hwritten, hnext⟩ := next_read (m := m) h hpc he
    rw [other_other] at hwritten hnext
    have ho : (s.next m w.other).pc w.other = .closeThird := by
      rw [hpc', Function.update_self, hpc]
      rfl
    have hw : (s.next m w.other).pc w = s.pc w := by
      rw [hpc', Function.update_of_ne hne.symm]
    refine ⟨fun hle => ?_, fun hle => ?_, fun _ => ?_, ?_, ?_⟩
    · rw [hw] at hle
      rw [hnext]
      exact (h w).writable hle
    · rw [ho] at hle
      exact absurd hle (by decide)
    · rw [hw]
      exact hwritten
    · rw [ho, if_neg fun hle => absurd hle.2 (by decide), hnext]
      exact Function.update_self ..
    · rw [ho, if_pos (by decide), hnext]
      exact Function.update_self ..
  | print =>
    refine (h w).reader hpc' (fun hle => absurd hle (by rw [hpc]; decide)) ?_
      (by rw [hpc]; decide) ?_ ?_
    all_goals simp [State.next, State.exit, hpc, hne.symm]
  | exited | killed => simp [State.Ready, hpc] at he

theorem messages (h : (exchange m).Reachable s) (w : Process) : Message w s := by
  refine h.induct (P := fun s => ∀ w, Message w s) ?_ ?_ w
  · rintro s rfl w
    exact message_start w
  · intro s w _ hs he
    refine forall_of_both w (Message.next_self hs he) ?_
    have hother : s.Ready w.other.other := by rwa [other_other]
    have hmsg := Message.next_other (m := m) hs hother
    rwa [other_other] at hmsg

/-! ## The end -/

/-- What a process prints, when it has read the message of the other one. -/
def line (mem : Bytes) (w : Process) : Option Bytes :=
  printed w.format (w.other.writeBuff ++ mem.drop w.other.writeBuff.length)

/-- The lines printed so far. -/
structure Finished (m : Process → Bytes) (s : State) : Prop where
  alive : ∀ w, s.pc w ≠ .killed
  closed : ∀ w, s.pc w = .exited → ∀ fd, s.isOpen w fd = false
  out : s.out.Perm
    ((if s.pc .parent = .exited then [(.parent, line (m .parent) .parent)] else []) ++
      if s.pc .child = .exited then [(.child, line (m .child) .child)] else [])

theorem finished_start : Finished m start :=
  ⟨fun _ => by simp [start], fun _ h => by simp [start] at h, by simp [start]⟩

theorem isOpen_next {v : Process} (h : ∀ w, Message w s) (he : s.Ready w) (hv : v ≠ w) :
    (s.next m w).isOpen v = s.isOpen v := by
  cases hpc : s.pc w with
  | write => rw [next_write h hpc]; rfl
  | read => rw [(next_read h hpc he).2]; rfl
  | closeFirst | closeSecond | closeThird | closeFourth =>
    simp [State.next, State.close, State.advance, hpc, hv]
  | print => simp [State.next, State.exit, hpc, hv]
  | exited | killed => simp [State.Ready, hpc] at he

theorem out_next (h : ∀ w, Message w s) (he : s.Ready w) (hpc : s.pc w ≠ .print) :
    (s.next m w).out = s.out ∧ (s.pc w).succ ≠ .exited ∧ s.pc w ≠ .exited := by
  cases hw : s.pc w with
  | write => rw [next_write h hw]; exact ⟨rfl, by decide, by decide⟩
  | read => rw [(next_read h hw he).2]; exact ⟨rfl, by decide, by decide⟩
  | closeFirst | closeSecond | closeThird | closeFourth =>
    simp [State.next, State.close, State.advance, hw, Pc.succ]
  | print => exact absurd hw hpc
  | exited | killed => simp [State.Ready, hw] at he

/-- The line that a process prints at its end. -/
theorem next_print (h : ∀ w, Message w s) (hpc : s.pc w = .print) :
    s.next m w = { s.exit w .exited with out := s.out ++ [(w, line (m w) w)] } := by
  have hreceived := (h w.other).received
  rw [other_other, hpc, if_pos (by decide)] at hreceived
  simp [State.next, hpc, State.readBuff, hreceived, line]

theorem Finished.next (h : Finished m s) (hmsg : ∀ w, Message w s) (he : s.Ready w) :
    Finished m (s.next m w) := by
  have hpc' := pc_next (m := m) hmsg he
  have halive : ∀ v, (s.next m w).pc v ≠ .killed := by
    intro v
    rw [hpc', Function.update_apply]
    split
    · have hne := h.alive w
      cases hw : s.pc w <;> first | exact absurd hw hne | decide
    · exact h.alive v
  by_cases hprint : s.pc w = .print
  · have hnext := next_print (m := m) hmsg hprint
    refine ⟨halive, fun v hv fd => ?_, ?_⟩
    · rcases eq_or_ne v w with rfl | hne
      · simp [hnext, State.exit]
      · rw [isOpen_next hmsg he hne]
        rw [hpc', Function.update_of_ne hne] at hv
        exact h.closed v hv fd
    · have hout := h.out
      cases w with
      | parent =>
        rw [hprint, if_neg (by decide), List.nil_append] at hout
        simpa [hnext, State.exit] using
          (List.perm_append_comm).trans (List.Perm.append_left [_] hout)
      | child =>
        rw [hprint, if_neg (show ¬ Pc.print = .exited by decide), List.append_nil] at hout
        simpa [hnext, State.exit] using List.Perm.append_right [_] hout
  · obtain ⟨hout, hsucc, hne⟩ := out_next (m := m) hmsg he hprint
    have hexited : ∀ v, (s.next m w).pc v = .exited ↔ s.pc v = .exited := by
      intro v
      rw [hpc', Function.update_apply]
      split
      · next hv => rw [hv]; exact iff_of_false hsucc hne
      · exact Iff.rfl
    refine ⟨halive, fun v hv fd => ?_, ?_⟩
    · have hv' := (hexited v).mp hv
      have hvw : v ≠ w := by
        rintro rfl
        exact hne hv'
      rw [isOpen_next hmsg he hvw]
      exact h.closed v hv' fd
    · rw [hout]
      simp only [hexited]
      exact h.out

theorem finished (h : (exchange m).Reachable s) : Finished m s := by
  refine h.induct ?_ fun _ _ hreach hs he => Finished.next hs (messages hreach) he
  rintro s rfl
  exact finished_start

/-- The statements that a process has yet to execute. -/
def Pc.left (pc : Pc) : Nat := 7 - pc.rank

def State.left (s : State) : Nat := (s.pc .parent).left + (s.pc .child).left

theorem left_succ {pc : Pc} (h : pc ≠ .exited) (h' : pc ≠ .killed) : pc.succ.left < pc.left := by
  cases pc <;> first | exact absurd rfl h | exact absurd rfl h' | decide

theorem left_decreases : (exchange m).Decreases (exchange m).Reachable State.left := by
  intro s w hs he
  refine ⟨hs.next he, ?_⟩
  have hlt : (s.pc w).succ.left < (s.pc w).left := by
    refine left_succ ?_ ?_ <;> intro hpc <;> simp [exchange, State.Ready, hpc] at he
  have hpc := pc_next (m := m) (messages hs) he
  show (((s.next m w).pc .parent).left + ((s.next m w).pc .child).left) < s.left
  rw [hpc]
  cases w with
  | parent => exact Nat.add_lt_add_right hlt _
  | child => exact Nat.add_lt_add_left hlt _

/-- A process that cannot go on has ended: it waits only while the other one can go on. -/
theorem exited_of_stopped (h : (exchange m).Reachable s) (hstop : ∀ w, ¬ s.Ready w)
    (w : Process) : s.pc w = .exited := by
  have hnot := hstop w
  cases hpc : s.pc w with
  | exited => rfl
  | killed => exact absurd hpc ((finished h).alive w)
  | read =>
    have hmsg := messages h w.other
    have hready := hstop w.other
    simp only [State.Ready, hpc, Classical.not_imp] at hnot
    obtain ⟨-, hempty, -⟩ := hnot
    have hrank : (s.pc w.other.other).rank ≤ 3 := by rw [other_other, hpc]; decide
    have hnonempty : w.other.writeBuff ≠ [] := by cases w <;> decide
    have hwritten : ¬ 3 ≤ (s.pc w.other).rank := by
      intro hle
      rw [hmsg.data, if_pos ⟨hle, hrank⟩] at hempty
      exact hnonempty hempty
    cases ho : s.pc w.other <;> rw [ho] at hwritten <;>
      first | exact absurd (by decide) hwritten | simp [State.Ready, ho] at hready
  | closeFirst | closeSecond | write | closeThird | closeFourth | print =>
    simp [State.Ready, hpc] at hnot

/-- What is printed is the message if it ends where `readBuff` has a NUL. -/
theorem line_eq_iff (mem : Bytes) (w : Process) :
    line mem w = some (w.format ++ w.other.writeBuff ++ ascii "\n") ↔
      mem[w.other.writeBuff.length]? = some 0 := by
  have hnot : (0 : UInt8) ∉ w.other.writeBuff := by cases w <;> decide
  have hnul : ∀ b ∈ w.other.writeBuff, b ≠ 0 := fun b hb h0 => hnot (h0 ▸ hb)
  have hget : (mem.drop w.other.writeBuff.length)[0]? = mem[w.other.writeBuff.length]? := by
    rw [List.getElem?_drop, Nat.add_zero]
  rw [← hget, ← Bytes.cstr_eq_nil_iff, line, printed, Bytes.cstr_append hnul]
  by_cases h0 : 0 ∈ mem.drop w.other.writeBuff.length
  · simp [h0]
  · simp [h0, hnot]

/-- In every interleaving, from any contents of the memory: a process takes seven steps; none
is killed by `SIGPIPE`, and what a read returns is the whole message of the other process;
the processes stop only when both have exited, each has printed its line, the pipes are empty
and all descriptors closed. The line is the message exactly if the byte behind it in
`readBuff` happened to be NUL. -/
theorem exchange_completes (h : (exchange m).Exec start as s) :
    as.length ≤ 14 ∧ (∀ w, s.pc w ≠ .killed) ∧
      (∀ w buf, s.received w = some buf → buf = w.other.writeBuff) ∧
      ((∀ w, ¬ s.Ready w) →
        (∀ w, s.pc w = .exited ∧ s.data w.pipe = [] ∧ ∀ fd, s.isOpen w fd = false) ∧
        s.out.Perm [(.parent, line (m .parent) .parent), (.child, line (m .child) .child)]) ∧
      ∀ w, line (m w) w = some (w.format ++ w.other.writeBuff ++ ascii "\n") ↔
        (m w)[w.other.writeBuff.length]? = some 0 := by
  have hreach : (exchange m).Reachable s := h.reachable rfl
  have hfin := finished hreach
  refine ⟨left_decreases.length_le ⟨start, [], rfl, .nil⟩ h, hfin.alive, ?_, ?_,
    fun w => line_eq_iff (m w) w⟩
  · intro w buf hbuf
    have hreceived := (messages hreach w.other).received
    rw [other_other, hbuf] at hreceived
    split at hreceived
    · exact Option.some.inj hreceived
    · cases hreceived
  · intro hstop
    have hexited := exited_of_stopped hreach hstop
    refine ⟨fun w => ⟨hexited w, ?_, hfin.closed w (hexited w)⟩, ?_⟩
    · rw [(messages hreach w).data, if_neg]
      rw [hexited w.other]
      exact fun hle => absurd hle.2 (by decide)
    · have hout := hfin.out
      rwa [hexited, hexited, if_pos rfl, if_pos rfl] at hout

/-- The child is first, and blocks in its read until the parent has written. -/
def childFirst : List Process :=
  List.replicate 3 .child ++ List.replicate 7 .parent ++ List.replicate 4 .child

def zeros (_ : Process) : Bytes := List.replicate bufferSize 0

theorem childFirst_runs : ((exchange zeros).run start childFirst).isSome := by decide

theorem exchange_completes_childFirst :
    (((exchange zeros).run start childFirst).get childFirst_runs).out.Perm
      [(.parent, line (zeros .parent) .parent), (.child, line (zeros .child) .child)] :=
  ((exchange_completes (Machine.exec_run_get childFirst_runs)).2.2.2.1
    (by intro w; cases w <;> decide)).2

end SisProg.Provjera4
