import Mathlib.Data.Finset.Card
import Mathlib.Data.Finset.Range
import SisProg.Lib.Fallible

/-!
# The startup of the relay

`RelayServer::init` makes the pipe and the FIFO, forks the receiver and the logger,
and opens the listener socket. Each of its helpers throws when its call fails, and
closes by hand what it knows to be open. The helpers up to `forkLogger` close all of
it. The later ones close only the listener socket, or nothing: the write end of the
pipe and the log file stay open, and the FIFO stays where it is. The descriptor of
the log is in a local variable of `forkLogger`, so they could not close it.

`init_cleans_iff` says when an exception leaves nothing behind. `main` of the older
`relay.c` makes the same calls, and cleans up after each (`main_cleans`).

The model follows the server process. A failed `fork` goes unnoticed, and so does a
failed `unlink` before `mkfifo`.
-/

namespace SisProg.Relay

/-- What `mkfifo` returns. `EEXIST` is not an error for the caller. -/
inductive Mkfifo
  | made
  | eexist
  | failed (errno : String)
deriving DecidableEq

/-- The answers of the kernel to the calls that are made on startup. The error of a
failed call is its `strerror(errno)`, and a new descriptor is one that is not open. -/
structure Kernel where
  sigaction : Except String Unit
  pipe : Except String Unit
  mkfifo : Mkfifo
  openLog : Except String Unit
  socket : Except String Unit
  setsockopt : Except String Unit
  bind : Except String Unit
  newFd : Finset Nat → Nat
  newFd_notMem : ∀ fds, newFd fds ∉ fds

/-- The members of `RelayServer` that change, the descriptors that the process has
open, and whether a FIFO that it has made is at `fifoPath`. `listenerFd` is `none`
for `-1`. -/
structure Startup where
  pipeFd : Nat × Nat
  listenerFd : Option Nat
  openFds : Finset Nat
  fifo : Bool

structure RelayError where
  what : String
deriving DecidableEq

abbrev Init := ExceptT RelayError (StateM Startup)

namespace Startup

/-! ## System calls -/

/-- A call that returns a new descriptor. -/
def openFd (k : Kernel) (r : Except String Unit) : Init (Except String Nat) := do
  match r with
  | .error errno => return .error errno
  | .ok () =>
    let fd := k.newFd (← get).openFds
    modify fun s => { s with openFds := insert fd s.openFds }
    return .ok fd

def pipe (k : Kernel) : Init (Except String (Nat × Nat)) := do
  match ← openFd k k.pipe with
  | .error errno => return .error errno
  | .ok readFd =>
    let writeFd := k.newFd (← get).openFds
    modify fun s => { s with openFds := insert writeFd s.openFds }
    return .ok (readFd, writeFd)

def mkfifo (k : Kernel) : Init Mkfifo := do
  if k.mkfifo = .made then modify fun s => { s with fifo := true }
  return k.mkfifo

def close (fd : Nat) : Init Unit :=
  modify fun s => { s with openFds := s.openFds.erase fd }

def unlink : Init Unit :=
  modify fun s => { s with fifo := false }

/-! ## `RelayServer::init` -/

def setupSignalHandler (k : Kernel) : Init Unit := do
  if let .error errno := k.sigaction then throw ⟨"sigaction failure: " ++ errno⟩

def createPipe (k : Kernel) : Init Unit := do
  match ← pipe k with
  | .error errno => throw ⟨"pipe failure: " ++ errno⟩
  | .ok fds => modify fun s => { s with pipeFd := fds }

def createFifo (k : Kernel) : Init Unit := do
  unlink
  if let .failed errno ← mkfifo k then
    close (← get).pipeFd.1
    close (← get).pipeFd.2
    throw ⟨"mkfifo failure: " ++ errno⟩

/-- The parent's part. -/
def forkReceiver : Init Unit := do
  close (← get).pipeFd.1

/-- The parent's part. The descriptor of the log stays in a local variable. -/
def forkLogger (k : Kernel) : Init Unit := do
  if let .error errno ← openFd k k.openLog then
    close (← get).pipeFd.2
    unlink
    throw ⟨"logger open failure: " ++ errno⟩

def createListenerSocket (k : Kernel) : Init Unit := do
  match ← openFd k k.socket with
  | .error errno =>
    modify fun s => { s with listenerFd := none }
    throw ⟨"socker() failure: " ++ errno⟩
  | .ok fd => modify fun s => { s with listenerFd := some fd }

def closeListener : Init Unit := do
  if let some fd := (← get).listenerFd then close fd

def configureSocketOptions (k : Kernel) : Init Unit := do
  if let .error errno := k.setsockopt then
    closeListener
    throw ⟨"setsockopt failure: " ++ errno⟩

def bindSocket (k : Kernel) : Init Unit := do
  if let .error errno := k.bind then
    closeListener
    throw ⟨"bind failure: " ++ errno⟩

def init (k : Kernel) : Init Unit := do
  setupSignalHandler k
  createPipe k
  createFifo k
  forkReceiver
  forkLogger k
  createListenerSocket k
  configureSocketOptions k
  bindSocket k

/-- The constructed `RelayServer`, whose `pipeFd` is not initialised. -/
def start (pipeFd : Nat × Nat) (openFds : Finset Nat) : Startup :=
  { pipeFd := pipeFd, listenerFd := none, openFds := openFds, fifo := false }

/-- Everything that was opened since `s` is closed again, and the FIFO that was made
is gone. -/
def LeavesNothing (s t : Startup) : Prop := t.openFds ⊆ s.openFds ∧ t.fifo = false

/-- If the program throws, it leaves nothing behind. -/
def Cleans (program : Init Unit) (s : Startup) : Prop :=
  ∀ e t, program s = (.error e, t) → s.LeavesNothing t

/-- A step before the listener socket fails. -/
def FailsEarly (k : Kernel) : Prop :=
  (∃ errno, k.sigaction = .error errno) ∨ (∃ errno, k.pipe = .error errno) ∨
  (∃ errno, k.mkfifo = .failed errno) ∨ ∃ errno, k.openLog = .error errno

/-- No step for the listener socket fails. -/
def Listens (k : Kernel) : Prop :=
  k.socket = .ok () ∧ k.setsockopt = .ok () ∧ k.bind = .ok ()

/-! ## The steps -/

/-- The state after `createPipe`. -/
def withPipe (k : Kernel) (s : Startup) : Startup :=
  let readFd := k.newFd s.openFds
  let writeFd := k.newFd (insert readFd s.openFds)
  { s with pipeFd := (readFd, writeFd), openFds := insert writeFd (insert readFd s.openFds) }

theorem setupSignalHandler_ok {k : Kernel} (s : Startup) (h : k.sigaction = .ok ()) :
    setupSignalHandler k s = (.ok (), s) := by
  simp only [setupSignalHandler, h]
  rfl

theorem setupSignalHandler_error {k : Kernel} {errno : String} (s : Startup)
    (h : k.sigaction = .error errno) :
    setupSignalHandler k s = (.error ⟨"sigaction failure: " ++ errno⟩, s) := by
  simp only [setupSignalHandler, h]
  rfl

theorem createPipe_ok {k : Kernel} (s : Startup) (h : k.pipe = .ok ()) :
    createPipe k s = (.ok (), s.withPipe k) := by
  simp only [createPipe, pipe, openFd, h]
  rfl

theorem createPipe_error {k : Kernel} {errno : String} (s : Startup) (h : k.pipe = .error errno) :
    createPipe k s = (.error ⟨"pipe failure: " ++ errno⟩, s) := by
  simp only [createPipe, pipe, openFd, h]
  rfl

theorem createFifo_ok {k : Kernel} (s : Startup) (h : ∀ errno, k.mkfifo ≠ .failed errno) :
    createFifo k s = (.ok (), { s with fifo := k.mkfifo = .made }) := by
  cases hm : k.mkfifo with
  | failed errno => exact absurd hm (h errno)
  | made | eexist =>
    simp only [createFifo, mkfifo, hm]
    rfl

theorem createFifo_failed {k : Kernel} {errno : String} (s : Startup)
    (h : k.mkfifo = .failed errno) :
    createFifo k s = (.error ⟨"mkfifo failure: " ++ errno⟩,
      { s with openFds := (s.openFds.erase s.pipeFd.1).erase s.pipeFd.2, fifo := false }) := by
  simp only [createFifo, mkfifo, h]
  rfl

theorem forkReceiver_ok (s : Startup) :
    forkReceiver s = (.ok (), { s with openFds := s.openFds.erase s.pipeFd.1 }) :=
  rfl

theorem forkLogger_ok {k : Kernel} (s : Startup) (h : k.openLog = .ok ()) :
    forkLogger k s = (.ok (), { s with openFds := insert (k.newFd s.openFds) s.openFds }) := by
  simp only [forkLogger, openFd, h]
  rfl

theorem forkLogger_error {k : Kernel} {errno : String} (s : Startup)
    (h : k.openLog = .error errno) :
    forkLogger k s = (.error ⟨"logger open failure: " ++ errno⟩,
      { s with openFds := s.openFds.erase s.pipeFd.2, fifo := false }) := by
  simp only [forkLogger, openFd, h]
  rfl

/-- The steps for the listener socket. -/
def openListener (k : Kernel) : Init Unit := do
  createListenerSocket k
  configureSocketOptions k
  bindSocket k

theorem openListener_ok {k : Kernel} (s : Startup) (h : Listens k) :
    ∃ t, openListener k s = (.ok (), t) := by
  obtain ⟨hsocket, hopt, hbind⟩ := h
  simp only [openListener, createListenerSocket, openFd, configureSocketOptions, bindSocket,
    hsocket, hopt, hbind]
  exact ⟨_, rfl⟩

/-- A step for the listener socket that fails closes the socket, and nothing else. -/
theorem openListener_fails {k : Kernel} (s : Startup) (h : ¬ Listens k) :
    ∃ e t, openListener k s = (.error e, t) ∧ t.openFds = s.openFds := by
  have hclosed : (insert (k.newFd s.openFds) s.openFds).erase (k.newFd s.openFds) = s.openFds :=
    Finset.erase_insert (k.newFd_notMem s.openFds)
  simp only [openListener, createListenerSocket, openFd, configureSocketOptions, bindSocket]
  cases hsocket : k.socket with
  | error errno => exact ⟨_, _, rfl, rfl⟩
  | ok =>
    cases hopt : k.setsockopt with
    | error errno => exact ⟨_, _, rfl, hclosed⟩
    | ok =>
      cases hbind : k.bind with
      | error errno => exact ⟨_, _, rfl, hclosed⟩
      | ok => exact absurd ⟨hsocket, hopt, hbind⟩ h

theorem closed_pipe (readFd writeFd : Nat) (fds : Finset Nat) :
    ((insert writeFd (insert readFd fds)).erase readFd).erase writeFd ⊆ fds := by
  intro fd hfd
  simp only [Finset.mem_erase, Finset.mem_insert] at hfd
  obtain ⟨hw, hr, h⟩ := hfd
  exact (h.resolve_left hw).resolve_left hr

theorem withPipe_closed (k : Kernel) (s : Startup) :
    ((s.withPipe k).openFds.erase (s.withPipe k).pipeFd.1).erase (s.withPipe k).pipeFd.2 ⊆
      s.openFds :=
  closed_pipe _ _ _

/-- The write end of the pipe is not the read end, which `forkReceiver` closes. -/
theorem withPipe_writes (k : Kernel) (s : Startup) :
    (s.withPipe k).pipeFd.2 ∈ (s.withPipe k).openFds.erase (s.withPipe k).pipeFd.1 ∧
      (s.withPipe k).pipeFd.2 ∉ s.openFds := by
  have hnew := k.newFd_notMem (insert (k.newFd s.openFds) s.openFds)
  rw [Finset.mem_insert, not_or] at hnew
  exact ⟨Finset.mem_erase.mpr ⟨hnew.1, Finset.mem_insert_self _ _⟩, hnew.2⟩

/-- A failure before the listener socket is undone; and if there is none, the write
end of the pipe is open when `init` comes to the listener socket. -/
theorem init_cases (k : Kernel) {s : Startup} (hs : s.fifo = false) :
    (FailsEarly k ∧ ∃ e t, init k s = (.error e, t) ∧ s.LeavesNothing t) ∨
    (¬ FailsEarly k ∧ ∃ t, init k s = openListener k t ∧ ∃ fd ∈ t.openFds, fd ∉ s.openFds) := by
  obtain ⟨hmem, hnew⟩ := withPipe_writes k s
  have hclosed := withPipe_closed k s
  unfold init
  cases hsig : k.sigaction with
  | error errno =>
    rw [Fallible.bind_error (setupSignalHandler_error s hsig)]
    exact .inl ⟨.inl ⟨errno, hsig⟩, _, _, rfl, Finset.Subset.refl _, hs⟩
  | ok =>
    rw [Fallible.bind_ok (setupSignalHandler_ok s hsig)]
    cases hpipe : k.pipe with
    | error errno =>
      rw [Fallible.bind_error (createPipe_error s hpipe)]
      exact .inl ⟨.inr (.inl ⟨errno, hpipe⟩), _, _, rfl, Finset.Subset.refl _, hs⟩
    | ok =>
      rw [Fallible.bind_ok (createPipe_ok s hpipe)]
      by_cases hfifo : ∃ errno, k.mkfifo = .failed errno
      · obtain ⟨errno, hfailed⟩ := hfifo
        rw [Fallible.bind_error (createFifo_failed _ hfailed)]
        exact .inl ⟨.inr (.inr (.inl ⟨errno, hfailed⟩)), _, _, rfl, hclosed, rfl⟩
      · rw [Fallible.bind_ok (createFifo_ok _ (not_exists.mp hfifo)),
          Fallible.bind_ok (forkReceiver_ok _)]
        cases hlog : k.openLog with
        | error errno =>
          rw [Fallible.bind_error (forkLogger_error _ hlog)]
          exact .inl ⟨.inr (.inr (.inr ⟨errno, hlog⟩)), _, _, rfl, hclosed, rfl⟩
        | ok =>
          rw [Fallible.bind_ok (forkLogger_ok _ hlog)]
          refine .inr ⟨?_, _, rfl, _, Finset.mem_insert_of_mem hmem, hnew⟩
          simp [FailsEarly, hsig, hpipe, hlog, not_exists.mp hfifo]

/-! ## `main` of `relay.c` -/

/-- `perror`, and the exit. -/
def fatal {α : Type} (msg errno : String) : Init α := throw ⟨msg ++ ": " ++ errno⟩

/-- Up to the call of `listen`. -/
def main (k : Kernel) : Init Unit := do
  if let .error errno := k.sigaction then fatal "sigaction failure" errno
  match ← pipe k with
  | .error errno => fatal "pipe failure" errno
  | .ok (readFd, writeFd) =>
    unlink
    if let .failed errno ← mkfifo k then
      close readFd
      close writeFd
      fatal "mkfifo failure" errno
    close readFd
    match ← openFd k k.openLog with
    | .error errno =>
      close writeFd
      unlink
      fatal "logger open failure" errno
    | .ok loggerFd =>
      match ← openFd k k.socket with
      | .error errno =>
        close writeFd
        close loggerFd
        unlink
        fatal "socket error" errno
      | .ok listenerFd =>
        if let .error errno := k.setsockopt then
          close writeFd
          close listenerFd
          close loggerFd
          unlink
          fatal "setsockopt failure" errno
        if let .error errno := k.bind then
          close writeFd
          close listenerFd
          close loggerFd
          unlink
          fatal "bind failure" errno

theorem closed_log {fds fds' : Finset Nat} {writeFd : Nat} (h : fds.erase writeFd ⊆ fds')
    (loggerFd : Nat) : ((insert loggerFd fds).erase writeFd).erase loggerFd ⊆ fds' := by
  intro fd hfd
  simp only [Finset.mem_erase, Finset.mem_insert] at hfd
  obtain ⟨hl, hw, hmem⟩ := hfd
  exact h (Finset.mem_erase.mpr ⟨hw, hmem.resolve_left hl⟩)

theorem closed_listener {fds fds' : Finset Nat} {writeFd loggerFd : Nat}
    (h : (fds.erase writeFd).erase loggerFd ⊆ fds') (listenerFd : Nat) :
    (((insert listenerFd fds).erase writeFd).erase listenerFd).erase loggerFd ⊆ fds' := by
  intro fd hfd
  simp only [Finset.mem_erase, Finset.mem_insert] at hfd
  obtain ⟨hl, hf, hw, hmem⟩ := hfd
  exact h (Finset.mem_erase.mpr ⟨hl, Finset.mem_erase.mpr ⟨hw, hmem.resolve_left hf⟩⟩)

theorem main_cleans (k : Kernel) {s : Startup} (hs : s.fifo = false) : Cleans (main k) s := by
  intro e t h
  obtain ⟨sigaction, pipe, mkfifo, openLog, socket, setsockopt, bind, newFd, hnew⟩ := k
  cases sigaction with
  | error errno =>
    cases h
    exact ⟨Finset.Subset.refl _, hs⟩
  | ok =>
    cases pipe with
    | error errno =>
      cases h
      exact ⟨Finset.Subset.refl _, hs⟩
    | ok =>
      have hpipe := closed_pipe (newFd s.openFds) (newFd (insert (newFd s.openFds) s.openFds))
        s.openFds
      cases mkfifo with
      | failed errno =>
        cases h
        exact ⟨hpipe, rfl⟩
      | made | eexist =>
        cases openLog with
        | error errno =>
          cases h
          exact ⟨hpipe, rfl⟩
        | ok =>
          have hlog := closed_log hpipe
          cases socket with
          | error errno =>
            cases h
            exact ⟨hlog _, rfl⟩
          | ok =>
            cases setsockopt with
            | error errno =>
              cases h
              exact ⟨closed_listener (hlog _) _, rfl⟩
            | ok =>
              cases bind with
              | error errno =>
                cases h
                exact ⟨closed_listener (hlog _) _, rfl⟩
              | ok => cases h

end Startup

open Startup in
/-- An exception leaves nothing behind exactly if the step that fails comes before
the listener socket. -/
theorem init_cleans_iff (k : Kernel) (pipeFd : Nat × Nat) (openFds : Finset Nat) :
    Cleans (init k) (.start pipeFd openFds) ↔ FailsEarly k ∨ Listens k := by
  rcases init_cases k (s := .start pipeFd openFds) rfl with
    ⟨hearly, e', t', h', hclean⟩ | ⟨hearly, t, hinit, fd, hfd, hnew⟩
  · refine iff_of_true ?_ (.inl hearly)
    intro e t h
    obtain ⟨-, rfl⟩ := Prod.mk.inj (h.symm.trans h')
    exact hclean
  · constructor
    · intro hclean
      by_contra hnot
      obtain ⟨e, u, hu, hopen⟩ := openListener_fails t (not_or.mp hnot).2
      have hsub := (hclean e u (hinit.trans hu)).1
      exact hnew (hsub (hopen ▸ hfd))
    · rintro (h | hlistens) e u hu
      · exact absurd h hearly
      · obtain ⟨v, hv⟩ := openListener_ok t hlistens
        rw [hinit, hv] at hu
        cases hu

/-- The lowest descriptor that is not open. -/
def lowestFd (fds : Finset Nat) : Nat :=
  ((List.range (fds.card + 1)).find? (· ∉ fds)).getD 0

theorem lowestFd_notMem (fds : Finset Nat) : lowestFd fds ∉ fds := by
  unfold lowestFd
  cases h : (List.range (fds.card + 1)).find? (· ∉ fds) with
  | some fd => simpa using List.find?_some h
  | none =>
    -- `fds` has too few elements to hold all of the range
    have hsub : Finset.range (fds.card + 1) ⊆ fds := by
      intro fd hfd
      simpa using List.find?_eq_none.mp h fd (by simpa using hfd)
    have hcard := Finset.card_le_card hsub
    rw [Finset.card_range] at hcard
    exact absurd hcard (Nat.not_succ_le_self _)

/-- Another server has the port. -/
def portInUse : Kernel where
  sigaction := .ok ()
  pipe := .ok ()
  mkfifo := .made
  openLog := .ok ()
  socket := .ok ()
  setsockopt := .ok ()
  bind := .error "Address already in use"
  newFd := lowestFd
  newFd_notMem := lowestFd_notMem

theorem init_portInUse :
    ∃ t, Startup.init portInUse (.start (0, 0) {0, 1, 2}) =
        (.error ⟨"bind failure: Address already in use"⟩, t) ∧
      t.openFds = {0, 1, 2} ∪ {3, 4} ∧ t.fifo = true ∧
      ¬ Startup.Cleans (Startup.init portInUse) (.start (0, 0) {0, 1, 2}) := by
  refine ⟨_, rfl, by decide, rfl, ?_⟩
  intro hclean
  exact Bool.noConfusion (hclean _ _ rfl).2

end SisProg.Relay
