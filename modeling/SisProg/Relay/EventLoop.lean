import Mathlib.Data.Finset.Basic
import Mathlib.Data.Finset.Lattice.Basic
import SisProg.Lib.Machine

/-!
# The event loop of the relay

`RelayServer::run` copies `masterSet` into `readSet`, calls `select`, and scans the
descriptors from `0` to `maxFd`: it accepts on the listener and reads from the
clients that are in `readSet`. The model has one step for `select` and one for
each round of the scan. The system calls answer as they like, within what the
kernel promises: `select` reports a part of the set it was given, and `accept` and
`open` return a descriptor that is not open.

`SIGCHLD` interrupts `select`. The loop does not throw then, as it should not, but
it goes on with the scan, and `readSet` is still the copy of `masterSet`: the loop
calls `accept` on a listener that nobody has reported ready
(`interrupted_accepts`). `blocksOnlyWhenReady_iff` says that this is the only way:
a run blocks only on ready descriptors exactly if no `select` in it was
interrupted.

An `fd_set` is a set of descriptors here. The source does not compare a descriptor
with `FD_SETSIZE`, and neither does the model.
-/

namespace SisProg.Relay

/-- What `select` returns: a part of the watched set, `-1` with `EINTR`, or `-1`
with another error. -/
inductive Selected
  | ready (fds : Finset Nat)
  | interrupted
  | failed
deriving DecidableEq

/-- What `handleClientData` gets: end of file or an error from `read`, or a chunk,
and then the result of the open of the FIFO. -/
inductive ClientData
  | closed
  | chunk (loggerFd : Option Nat)
deriving DecidableEq

inductive LoopPc
  | select
  | scan (fd : Nat)
  | thrown
deriving DecidableEq

/-- The variables of `run`, and the descriptors that the process has open. -/
structure EventLoop where
  listenerFd : Nat
  masterSet : Finset Nat
  readSet : Finset Nat
  maxFd : Nat
  openFds : Finset Nat
  pc : LoopPc
deriving DecidableEq

/-- A call of `select`, a round of the scan for the descriptor `fd`, or the end of
the scan. -/
inductive LoopAct
  | select (r : Selected)
  | skip (fd : Nat)
  | accept (fd : Nat) (clientFd : Option Nat)
  | handleClientData (fd : Nat) (r : ClientData)
  | scanned (fd : Nat)
deriving DecidableEq

namespace EventLoop

/-- The scan has reached `fd`, and has not passed `maxFd`. -/
def At (s : EventLoop) (fd : Nat) : Prop := s.pc = .scan fd ∧ fd ≤ s.maxFd

instance (s : EventLoop) (fd : Nat) : Decidable (s.At fd) :=
  inferInstanceAs (Decidable (_ ∧ _))

def enabled (s : EventLoop) : LoopAct → Prop
  | .select (.ready fds) => s.pc = .select ∧ fds ⊆ s.masterSet
  | .select _ => s.pc = .select
  | .skip fd => s.At fd ∧ fd ∉ s.readSet
  | .accept fd clientFd =>
      s.At fd ∧ fd ∈ s.readSet ∧ fd = s.listenerFd ∧ ∀ c ∈ clientFd, c ∉ s.openFds
  | .handleClientData fd .closed => s.At fd ∧ fd ∈ s.readSet ∧ fd ≠ s.listenerFd
  | .handleClientData fd (.chunk loggerFd) =>
      s.At fd ∧ fd ∈ s.readSet ∧ fd ≠ s.listenerFd ∧ ∀ f ∈ loggerFd, f ∉ s.openFds
  | .scanned fd => s.pc = .scan fd ∧ s.maxFd < fd

def next (s : EventLoop) : LoopAct → EventLoop
  | .select (.ready fds) => { s with readSet := fds, pc := .scan 0 }
  -- `errno == EINTR`: the scan goes on with `readSet = masterSet`
  | .select .interrupted => { s with readSet := s.masterSet, pc := .scan 0 }
  | .select .failed => { s with readSet := s.masterSet, pc := .thrown }
  | .skip fd => { s with pc := .scan (fd + 1) }
  | .accept fd none => { s with pc := .scan (fd + 1) }
  | .accept fd (some clientFd) =>
      { s with
        masterSet := insert clientFd s.masterSet
        maxFd := max s.maxFd clientFd
        openFds := insert clientFd s.openFds
        pc := .scan (fd + 1) }
  | .handleClientData fd .closed =>
      { s with
        masterSet := s.masterSet.erase fd
        openFds := s.openFds.erase fd
        pc := .scan (fd + 1) }
  -- the FIFO is closed again before `handleClientData` returns
  | .handleClientData fd (.chunk _) => { s with pc := .scan (fd + 1) }
  | .scanned _ => { s with pc := .select }

instance (s : EventLoop) (a : LoopAct) : Decidable (s.enabled a) := by
  rcases a with (_ | _ | _) | _ | _ | ⟨_, _ | _⟩ | _ <;> unfold enabled <;> infer_instance

/-- The loop before its first iteration, with `readSet` uninitialised. -/
structure Init (s : EventLoop) : Prop where
  pc : s.pc = .select
  masterSet : s.masterSet = {s.listenerFd}
  maxFd : s.maxFd = s.listenerFd
  openFds : s.listenerFd ∈ s.openFds

end EventLoop

def eventLoop : Machine EventLoop LoopAct where
  init := EventLoop.Init
  enabled := EventLoop.enabled
  next := EventLoop.next

instance (s : EventLoop) (a : LoopAct) : Decidable (eventLoop.enabled s a) :=
  inferInstanceAs (Decidable (s.enabled a))

/-! ## Blocking calls -/

/-- The descriptor on which a step calls `accept` or `read`. -/
def LoopAct.blocksOn : LoopAct → Option Nat
  | .accept fd _ | .handleClientData fd _ => some fd
  | _ => none

/-- What is known to be ready after a step, if `fds` was before it. -/
def LoopAct.report (fds : Finset Nat) : LoopAct → Finset Nat
  | .select (.ready fds) => fds
  | .select _ => ∅
  | _ => fds

/-- The descriptors that the last `select` of a run reported ready. -/
def lastReady (as : List LoopAct) : Finset Nat := as.foldl LoopAct.report ∅

theorem lastReady_snoc (as : List LoopAct) (a : LoopAct) :
    lastReady (as ++ [a]) = a.report (lastReady as) := by
  simp [lastReady]

/-- Every `accept` and every `read` of the run is made on a descriptor that the
`select` before it reported ready. -/
def BlocksOnlyWhenReady (as : List LoopAct) : Prop :=
  ∀ bs a fd, bs ++ [a] <+: as → a.blocksOn = some fd → fd ∈ lastReady bs

theorem blocksOnlyWhenReady_nil : BlocksOnlyWhenReady [] := by
  intro bs a fd h
  simp at h

theorem blocksOnlyWhenReady_snoc {as : List LoopAct} {a : LoopAct} :
    BlocksOnlyWhenReady (as ++ [a]) ↔
      BlocksOnlyWhenReady as ∧ ∀ fd, a.blocksOn = some fd → fd ∈ lastReady as := by
  constructor
  · intro h
    exact ⟨fun bs b fd hp => h bs b fd (hp.trans (List.prefix_append as [a])),
      fun fd => h as a fd List.prefix_rfl⟩
  · rintro ⟨has, ha⟩ bs b fd hp hb
    rcases List.prefix_concat_iff.mp hp with heq | hp
    · obtain ⟨rfl, hba⟩ := List.append_inj' heq rfl
      obtain rfl : b = a := by simpa using hba
      exact ha fd hb
    · exact has bs b fd hp hb

theorem mem_readSet_of_blocksOn {s : EventLoop} {a : LoopAct} {fd : Nat} (he : s.enabled a)
    (hb : a.blocksOn = some fd) : fd ∈ s.readSet := by
  cases a with
  | accept fd' r =>
    obtain rfl : fd' = fd := by simpa [LoopAct.blocksOn] using hb
    exact he.2.1
  | handleClientData fd' r =>
    obtain rfl : fd' = fd := by simpa [LoopAct.blocksOn] using hb
    cases r with
    | closed => exact he.2.1
    | chunk loggerFd => exact he.2.1
  | _ => cases hb

/-! ## The listener stays watched -/

/-- The listener is always in `masterSet`, and the scan reaches it. -/
structure ListenerWatched (s : EventLoop) : Prop where
  mem : s.listenerFd ∈ s.masterSet
  le : s.listenerFd ≤ s.maxFd

theorem listenerWatched_next {s : EventLoop} {a : LoopAct} (h : ListenerWatched s)
    (he : s.enabled a) : ListenerWatched (s.next a) := by
  obtain ⟨hmem, hle⟩ := h
  cases a with
  | select r => cases r <;> exact ⟨hmem, hle⟩
  | skip fd | scanned fd => exact ⟨hmem, hle⟩
  | accept fd r =>
    cases r with
    | none => exact ⟨hmem, hle⟩
    | some c => exact ⟨Finset.mem_insert_of_mem hmem, le_max_of_le_left hle⟩
  | handleClientData fd r =>
    cases r with
    | closed => exact ⟨Finset.mem_erase.mpr ⟨(he.2.2 : fd ≠ _).symm, hmem⟩, hle⟩
    | chunk loggerFd => exact ⟨hmem, hle⟩

theorem listenerWatched_inv {s : EventLoop} (h : eventLoop.Reachable s) : ListenerWatched s := by
  refine h.induct ?_ fun s a _ ih he => listenerWatched_next ih he
  intro s hs
  exact ⟨by rw [hs.masterSet]; exact Finset.mem_singleton_self _, hs.maxFd.ge⟩

/-! ## Runs without an interrupted `select` -/

theorem readSet_next {s : EventLoop} {a : LoopAct} (he : s.enabled a)
    (ha : a ≠ .select .interrupted) {fds : Finset Nat} {fd : Nat}
    (h : ∀ fd, s.pc = .scan fd → s.readSet = fds) (hpc : (s.next a).pc = .scan fd) :
    (s.next a).readSet = a.report fds := by
  cases a with
  | select r =>
    cases r with
    | ready fds' => rfl
    | interrupted => exact absurd rfl ha
    | failed => cases hpc
  | skip fd' => exact h fd' he.1.1
  | accept fd' r => cases r <;> exact h fd' he.1.1
  | handleClientData fd' r => cases r <;> exact h fd' he.1.1
  | scanned fd' => cases hpc

/-- During a scan `readSet` is what the last `select` reported. -/
theorem readSet_eq_lastReady {s₀ s : EventLoop} {as : List LoopAct} (h₀ : s₀.Init)
    (h : eventLoop.Exec s₀ as s) (hno : .select .interrupted ∉ as) :
    ∀ fd, s.pc = .scan fd → s.readSet = lastReady as := by
  induction h with
  | nil =>
    intro fd hpc
    rw [h₀.pc] at hpc
    cases hpc
  | snoc _ he ih =>
    simp only [List.mem_append, List.mem_singleton, not_or] at hno
    intro fd hpc
    rw [lastReady_snoc]
    exact readSet_next he (Ne.symm hno.2) (ih hno.1) hpc

theorem pc_of_blocksOn {s : EventLoop} {a : LoopAct} {fd : Nat} (he : s.enabled a)
    (hb : a.blocksOn = some fd) : ∃ fd, s.pc = .scan fd := by
  cases a with
  | accept fd' r => exact ⟨fd', he.1.1⟩
  | handleClientData fd' r => cases r <;> exact ⟨fd', he.1.1⟩
  | _ => cases hb

theorem blocksOnlyWhenReady_of_not_interrupted {s₀ s : EventLoop} {as : List LoopAct}
    (h₀ : s₀.Init) (h : eventLoop.Exec s₀ as s) (hno : .select .interrupted ∉ as) :
    BlocksOnlyWhenReady as := by
  induction h with
  | nil => exact blocksOnlyWhenReady_nil
  | snoc hrun he ih =>
    have hno' := hno
    simp only [List.mem_append, not_or] at hno'
    refine blocksOnlyWhenReady_snoc.mpr ⟨ih hno'.1, ?_⟩
    intro fd hb
    obtain ⟨fd', hpc⟩ := pc_of_blocksOn he hb
    rw [← readSet_eq_lastReady h₀ hrun hno'.1 fd' hpc]
    exact mem_readSet_of_blocksOn he hb

/-! ## Runs with one -/

/-- After an interrupted `select`, as long as nothing has been accepted or read:
the listener is in `readSet`, and the scan has not reached it. -/
structure ListenerDue (s : EventLoop) : Prop where
  scan : ∃ fd, s.pc = .scan fd ∧ fd ≤ s.listenerFd
  mem : s.listenerFd ∈ s.readSet
  le : s.listenerFd ≤ s.maxFd

theorem listenerDue_next {s : EventLoop} {a : LoopAct} (h : ListenerDue s) (he : s.enabled a)
    (ha : a.blocksOn = none) : ListenerDue (s.next a) ∧ a.report ∅ = ∅ := by
  obtain ⟨⟨fd, hpc, hfd⟩, hmem, hle⟩ := h
  cases a with
  | select r =>
    have hsel : s.pc = .select := by
      cases r with
      | ready fds => exact he.1
      | interrupted | failed => exact he
    rw [hpc] at hsel
    cases hsel
  | skip fd' =>
    obtain ⟨⟨hpc', -⟩, hnot⟩ := he
    obtain rfl : fd = fd' := by simpa [hpc] using hpc'
    -- the listener is not skipped
    have hne : fd ≠ s.listenerFd := fun heq => hnot (heq ▸ hmem)
    exact ⟨⟨⟨fd + 1, rfl, Nat.lt_of_le_of_ne hfd hne⟩, hmem, hle⟩, rfl⟩
  | accept | handleClientData => cases ha
  | scanned fd' =>
    obtain ⟨hpc', hlt⟩ := he
    obtain rfl : fd = fd' := by simpa [hpc] using hpc'
    exact absurd (hfd.trans hle) (Nat.not_le.mpr hlt)

theorem listenerDue_of_interrupted {s₀ s : EventLoop} {as : List LoopAct} (h₀ : s₀.Init)
    (h : eventLoop.Exec s₀ as s) (hb : BlocksOnlyWhenReady as)
    (hint : .select .interrupted ∈ as) : ListenerDue s ∧ lastReady as = ∅ := by
  induction h with
  | nil => cases hint
  | @snoc as s a hrun he ih =>
    obtain ⟨hbas, hba⟩ := blocksOnlyWhenReady_snoc.mp hb
    rw [lastReady_snoc]
    by_cases hin : LoopAct.select .interrupted ∈ as
    · obtain ⟨hdue, hempty⟩ := ih hbas hin
      rw [hempty] at hba ⊢
      have ha : a.blocksOn = none := by
        cases hblock : a.blocksOn with
        | none => rfl
        | some fd => exact absurd (hba fd hblock) (Finset.notMem_empty fd)
      exact listenerDue_next hdue he ha
    · obtain rfl : a = .select .interrupted := by
        rcases List.mem_append.mp hint with h | h
        · exact absurd h hin
        · exact (List.mem_singleton.mp h).symm
      obtain ⟨hmem, hle⟩ := listenerWatched_inv (hrun.reachable h₀)
      exact ⟨⟨⟨0, rfl, Nat.zero_le _⟩, hmem, hle⟩, rfl⟩

/-- A run in which no `select` is interrupted calls `accept` and `read` only on
descriptors that the last `select` reported ready; and a run that has come back to
`select` does so only if none was interrupted. -/
theorem blocksOnlyWhenReady_iff {s₀ s : EventLoop} {as : List LoopAct} (h₀ : s₀.Init)
    (h : eventLoop.Exec s₀ as s) :
    (.select .interrupted ∉ as → BlocksOnlyWhenReady as) ∧
    (s.pc = .select → (BlocksOnlyWhenReady as ↔ .select .interrupted ∉ as)) := by
  have hready : .select .interrupted ∉ as → BlocksOnlyWhenReady as :=
    blocksOnlyWhenReady_of_not_interrupted h₀ h
  refine ⟨hready, fun hpc => ⟨fun hb hint => ?_, hready⟩⟩
  obtain ⟨⟨⟨fd, hscan, -⟩, -, -⟩, -⟩ := listenerDue_of_interrupted h₀ h hb hint
  rw [hpc] at hscan
  cases hscan

/-- The loop with the listener on descriptor `5`. -/
def EventLoop.start : EventLoop :=
  { listenerFd := 5, masterSet := {5}, readSet := ∅, maxFd := 5,
    openFds := {0, 1, 2, 3, 4, 5}, pc := .select }

theorem EventLoop.start_init : EventLoop.start.Init :=
  ⟨rfl, rfl, rfl, by decide⟩

/-- The rounds of the scan for the descriptors below the listener. -/
def skips : List LoopAct := [.skip 0, .skip 1, .skip 2, .skip 3, .skip 4]

/-- A client connects, sends a chunk, and goes. -/
def oneClient : List LoopAct :=
  .select (.ready {5}) :: skips ++ [.accept 5 (some 6), .skip 6, .scanned 7] ++
  .select (.ready {6}) :: skips ++
    [.skip 5, .handleClientData 6 (.chunk (some 7)), .scanned 7] ++
  .select (.ready {6}) :: skips ++ [.skip 5, .handleClientData 6 .closed, .scanned 7]

theorem oneClient_runs : (eventLoop.run .start oneClient).isSome := by
  decide

theorem blocksOnlyWhenReady_oneClient : BlocksOnlyWhenReady oneClient :=
  (blocksOnlyWhenReady_iff EventLoop.start_init (Machine.exec_run_get oneClient_runs)).1
    (by decide)

/-- `SIGCHLD` arrives while the loop waits for its first client. -/
def interruptedRun : List LoopAct :=
  .select .interrupted :: skips ++ [.accept 5 none]

theorem interruptedRun_runs : (eventLoop.run .start interruptedRun).isSome := by
  decide

theorem interrupted_accepts :
    (∃ s, eventLoop.Exec .start interruptedRun s) ∧ ¬ BlocksOnlyWhenReady interruptedRun := by
  refine ⟨⟨_, Machine.exec_run_get interruptedRun_runs⟩, ?_⟩
  intro h
  have hmem := h (.select .interrupted :: skips) (.accept 5 none) 5 List.prefix_rfl rfl
  exact absurd hmem (by decide)

end SisProg.Relay
