import SisProg.Lib.Bytes
import SisProg.Lib.Machine
import SisProg.Lib.Selector

/-!
# The loop of the chat server

`main` of `chat.c` copies `master` into `read_fds`, calls `select`, and scans the
descriptors: it accepts on the listener, and what it receives from a client it
sends to the other clients. The model has one step for `select` and one for each
round of the scan; the calls of `send` for one chunk are a fold over the
descriptors that the inner loop visits.

The inner loop runs to `j <= fd_max` and the scan to `i < fd_max`. So the scan
never meets the largest descriptor, unless the listener comes before it and a new
client gets a larger one in the same pass (`pass_services_iff`). The largest
descriptor is the listener at first, so `main` never accepts a client
(`no_client_of_reachable`), and once one has knocked `select` returns at once forever.

The results are about the loop with any clients connected (`Chat.Serving`), and the
states that `main` reaches are among these.

An `fd_set` is a set of descriptors here, and descriptors are not compared with
`FD_SETSIZE`. What `main` prints is left out.
-/

namespace SisProg.PipeFifo

open Selector

/-! ## The kernel -/

/-- A chunk that has been sent to a client, and the client it came from. -/
structure Sent where
  sender : Option Nat
  receiver : Nat
  buf : Bytes
deriving DecidableEq

/-- The kernel's side: the descriptors in use, the client behind each of them, and
what has been sent so far. Clients are numbered as they are accepted. -/
structure Kernel where
  openFds : Finset Nat
  accepted : Nat
  client : Nat → Option Nat
  sent : List Sent

namespace Kernel

/-- A client is behind `fd`: it has been accepted and not closed since. -/
def Connected (k : Kernel) (fd : Nat) : Prop := (k.client fd).isSome = true

def accept (k : Kernel) (newFd : Nat) : Kernel :=
  { k with
    openFds := insert newFd k.openFds
    accepted := k.accepted + 1
    client := Function.update k.client newFd (some k.accepted) }

def close (k : Kernel) (fd : Nat) : Kernel :=
  { k with openFds := k.openFds.erase fd, client := Function.update k.client fd none }

/-- `send(j, buf, nbytes, 0)` of a chunk received on `i`. It fails if there is no
client behind `j`. -/
def send (buf : Bytes) (i : Nat) (k : Kernel) (j : Nat) : Kernel :=
  match k.client j with
  | some c => { k with sent := k.sent ++ [⟨k.client i, c, buf⟩] }
  | none => k

/-- What the client `c` has got from the client `d`. -/
def heard (k : Kernel) (c d : Nat) : Bytes :=
  (k.sent.filter fun m => m.sender = some d ∧ m.receiver = c).flatMap Sent.buf

@[simp] theorem send_openFds (buf : Bytes) (i j : Nat) (k : Kernel) :
    (k.send buf i j).openFds = k.openFds := by
  unfold send
  split <;> rfl

@[simp] theorem send_client (buf : Bytes) (i j : Nat) (k : Kernel) :
    (k.send buf i j).client = k.client := by
  unfold send
  split <;> rfl

@[simp] theorem send_accepted (buf : Bytes) (i j : Nat) (k : Kernel) :
    (k.send buf i j).accepted = k.accepted := by
  unfold send
  split <;> rfl

/-- The calls of `send` change what has been sent, and nothing else. -/
theorem sends_frame (buf : Bytes) (i : Nat) (js : List Nat) (k : Kernel) :
    (js.foldl (send buf i) k).openFds = k.openFds ∧
    (js.foldl (send buf i) k).client = k.client ∧
    (js.foldl (send buf i) k).accepted = k.accepted := by
  induction js generalizing k with
  | nil => exact ⟨rfl, rfl, rfl⟩
  | cons j js ih => simpa using ih (k.send buf i j)

theorem connected_accept (k : Kernel) (c fd : Nat) :
    (k.accept c).Connected fd ↔ fd = c ∨ k.Connected fd := by
  by_cases h : fd = c <;> simp [Connected, accept, h]

theorem connected_close (k : Kernel) (c fd : Nat) :
    (k.close c).Connected fd ↔ fd ≠ c ∧ k.Connected fd := by
  by_cases h : fd = c <;> simp [Connected, close, h]

end Kernel

/-! ## The loop -/

/-- What `recv` returns: `0`, `-1`, or the length of a chunk. -/
inductive Received
  | hungUp
  | error
  | chunk (buf : Bytes)
deriving DecidableEq

inductive ChatPc
  | select
  | scan (i : Nat)
  | exited
deriving DecidableEq

/-- The variables of `main`, and the kernel. -/
structure Chat where
  listener : Nat
  master : Finset Nat
  readFds : Finset Nat
  fdMax : Nat
  kernel : Kernel
  pc : ChatPc

/-- A call of `select` with the ready set, or `none` for `-1`; a round of the scan
for the descriptor `i`; or the end of the scan. -/
inductive ChatAct
  | select (ready : Option (Finset Nat))
  | skip (i : Nat)
  | accept (i : Nat) (newFd : Option Nat)
  | recv (i : Nat) (r : Received)
  | scanned (i : Nat)
deriving DecidableEq

/-- The size of `buf`. -/
def bufSize : Nat := 256

/-- What `recv` promises: a chunk is not empty and fits. -/
def Received.Fits : Received → Prop
  | .chunk buf => buf ≠ [] ∧ buf.length ≤ bufSize
  | _ => True

instance (r : Received) : Decidable r.Fits := by
  cases r <;> unfold Received.Fits <;> infer_instance

namespace Chat

/-- The scan is at `i`, and has not come to its end. -/
def At (s : Chat) (i : Nat) : Prop := s.pc = .scan i ∧ i < s.fdMax

instance (s : Chat) (i : Nat) : Decidable (s.At i) :=
  inferInstanceAs (Decidable (_ ∧ _))

/-- The descriptors for which the inner loop calls `send`, in order. -/
def recipients (s : Chat) (i : Nat) : List Nat :=
  (List.range (s.fdMax + 1)).filter fun j => j ∈ s.master ∧ j ≠ s.listener ∧ j ≠ i

def enabled (s : Chat) : ChatAct → Prop
  | .select none => s.pc = .select
  | .select (some ready) => s.pc = .select ∧ ready ⊆ s.master
  | .skip i => s.At i ∧ i ∉ s.readFds
  | .accept i newFd => s.At i ∧ i ∈ s.readFds ∧ i = s.listener ∧ ∀ c ∈ newFd, c ∉ s.kernel.openFds
  | .recv i r => s.At i ∧ i ∈ s.readFds ∧ i ≠ s.listener ∧ r.Fits
  | .scanned i => s.pc = .scan i ∧ s.fdMax ≤ i

def next (s : Chat) : ChatAct → Chat
  | .select none => { s with pc := .exited }
  | .select (some ready) => { s with readFds := ready, pc := .scan 0 }
  | .skip i => { s with pc := .scan (i + 1) }
  | .accept i none => { s with pc := .scan (i + 1) }
  | .accept i (some newFd) =>
      { s with
        master := insert newFd s.master
        fdMax := max s.fdMax newFd
        kernel := s.kernel.accept newFd
        pc := .scan (i + 1) }
  | .recv i (.chunk buf) =>
      { s with
        kernel := (s.recipients i).foldl (Kernel.send buf i) s.kernel
        pc := .scan (i + 1) }
  | .recv i _ =>
      { s with
        master := s.master.erase i
        kernel := s.kernel.close i
        pc := .scan (i + 1) }
  | .scanned _ => { s with pc := .select }

instance (s : Chat) (a : ChatAct) : Decidable (s.enabled a) := by
  rcases a with (_ | _) | _ | _ | _ | _ <;> unfold enabled <;> infer_instance

/-- The loop before its first iteration. -/
structure Init (s : Chat) : Prop where
  pc : s.pc = .select
  master : s.master = {s.listener}
  fdMax : s.fdMax = s.listener
  opened : s.listener ∈ s.kernel.openFds
  accepted : s.kernel.accepted = 0
  client : ∀ fd, s.kernel.client fd = none
  sent : s.kernel.sent = []

end Chat

def chat : Machine Chat ChatAct where
  init := Chat.Init
  enabled := Chat.enabled
  next := Chat.next

instance (s : Chat) (a : ChatAct) : Decidable (chat.enabled s a) :=
  inferInstanceAs (Decidable (s.enabled a))

/-! ## What `master` holds -/

/-- `recv` has returned `0` or `-1`. -/
def Received.gone : Received → Bool
  | .chunk _ => false
  | _ => true

theorem next_gone {s : Chat} {i : Nat} {r : Received} (hr : r.gone = true) :
    s.next (.recv i r) =
      { s with master := s.master.erase i, kernel := s.kernel.close i, pc := .scan (i + 1) } := by
  cases r with
  | chunk buf => cases hr
  | hungUp | error => rfl

/-- The loop with any clients connected: `master` holds the listener and the clients,
`fd_max` bounds it, and the scan meets only what is in it. -/
structure Chat.Serving (s : Chat) : Prop where
  watching : Watching s.kernel.Connected s.listener s.master s.kernel.openFds s.fdMax
  ahead : ∀ p, s.pc = .scan p → Ahead s.readFds s.master p

theorem serving_init {s : Chat} (h : s.Init) : s.Serving := by
  refine ⟨?_, ?_⟩
  · rw [h.master, h.fdMax]
    exact .init h.opened fun fd => by simp [Kernel.Connected, h.client]
  · intro p hp
    rw [h.pc] at hp
    cases hp

/-- The scan goes on. -/
theorem serving_advance {s : Chat} {i : Nat} {k : Kernel} (h : s.Serving) (hpc : s.pc = .scan i)
    (hopen : k.openFds = s.kernel.openFds) (hclient : k.client = s.kernel.client) :
    Chat.Serving { s with kernel := k, pc := .scan (i + 1) } := by
  refine ⟨?_, ?_⟩
  · show Watching k.Connected _ _ k.openFds _
    rw [hopen]
    exact h.watching.congr fun fd => by rw [Kernel.Connected, hclient, Kernel.Connected]
  · intro p hp
    obtain rfl : i + 1 = p := by simpa using hp
    exact (h.ahead i hpc).succ

theorem serving_accept {s : Chat} {i c : Nat} (h : s.Serving)
    (he : s.enabled (.accept i (some c))) : (s.next (.accept i (some c))).Serving := by
  obtain ⟨⟨hpc, -⟩, -, rfl, hfree⟩ := he
  refine ⟨h.watching.accept (hfree c rfl) (s.kernel.connected_accept c), ?_⟩
  intro p hp
  obtain rfl : s.listener + 1 = p := by simpa [Chat.next] using hp
  exact (h.ahead _ hpc).succ.insert

theorem serving_gone {s : Chat} {i : Nat} {r : Received} (h : s.Serving)
    (he : s.enabled (.recv i r)) (hr : r.gone = true) : (s.next (.recv i r)).Serving := by
  obtain ⟨⟨hpc, -⟩, -, hne, -⟩ := he
  rw [next_gone hr]
  refine ⟨h.watching.close hne (s.kernel.connected_close i), ?_⟩
  intro p hp
  obtain rfl : i + 1 = p := by simpa using hp
  exact (h.ahead i hpc).erase

theorem serving_next {s : Chat} {a : ChatAct} (h : s.Serving) (he : s.enabled a) :
    (s.next a).Serving := by
  cases a with
  | select r =>
    cases r with
    | none =>
      refine ⟨h.watching, ?_⟩
      intro p hp
      cases hp
    | some ready => exact ⟨h.watching, fun p _ => .of_subset he.2⟩
  | skip i => exact serving_advance h he.1.1 rfl rfl
  | accept i r =>
    cases r with
    | none => exact serving_advance h he.1.1 rfl rfl
    | some c => exact serving_accept h he
  | recv i r =>
    cases r with
    | hungUp | error => exact serving_gone h he rfl
    | chunk buf =>
      obtain ⟨hopen, hclient, -⟩ := s.kernel.sends_frame buf i (s.recipients i)
      exact serving_advance h he.1.1 hopen hclient
  | scanned i =>
    refine ⟨h.watching, ?_⟩
    intro p hp
    cases hp

theorem serving_of_exec {s t : Chat} {as : List ChatAct} (h : chat.Exec s as t)
    (hs : s.Serving) : t.Serving :=
  h.induct hs fun _ _ => serving_next

theorem serving_of_reachable {s : Chat} (h : chat.Reachable s) : s.Serving := by
  obtain ⟨s₀, as, h₀, hrun⟩ := h
  exact serving_of_exec hrun (serving_init h₀)

/-- `recv` is called on clients only. -/
theorem connected_of_recv {s : Chat} {i : Nat} {r : Received} (h : s.Serving)
    (he : s.enabled (.recv i r)) : s.kernel.Connected i := by
  obtain ⟨⟨hpc, -⟩, hmem, hne, -⟩ := he
  exact ((h.watching.mem_iff i).mp (h.ahead i hpc i hmem (Nat.le_refl i))).resolve_left hne

/-! ## One pass of the scan -/

/-- `accept` is called. -/
def ChatAct.isAccept : ChatAct → Bool
  | .accept _ _ => true
  | _ => false

/-- `recv` is called on the descriptor `fd`. -/
def ChatAct.receives (fd : Nat) : ChatAct → Bool
  | .recv i _ => i == fd
  | _ => false

/-- From a `select` that reports `ready` to the next call of it. -/
structure Pass (s : Chat) (ready : Finset Nat) (rounds : List ChatAct) (t : Chat) : Prop where
  exec : chat.Exec s (.select (some ready) :: rounds) t
  ended : t.pc = .select
  one : ∀ r, .select r ∉ rounds

/-- `accept` is called if the listener is ready, and `recv` on each client that is. -/
def Services (listener : Nat) (ready : Finset Nat) (rounds : List ChatAct) : Prop :=
  (listener ∈ ready → rounds.countP (·.isAccept) = 1) ∧
  ∀ fd ∈ ready, fd ≠ listener → rounds.countP (·.receives fd) = 1

/-- A round calls `accept` or `recv` on `fd`. -/
def ChatAct.calls (listener fd : Nat) (a : ChatAct) : Bool :=
  if fd = listener then a.isAccept else a.receives fd

theorem services_iff {listener : Nat} {ready : Finset Nat} {rounds : List ChatAct} :
    Services listener ready rounds ↔
      ∀ fd ∈ ready, rounds.countP (·.calls listener fd) = 1 := by
  constructor
  · rintro ⟨haccept, hrecv⟩ fd hfd
    by_cases heq : fd = listener
    · subst heq
      simpa [ChatAct.calls] using haccept hfd
    · simpa [ChatAct.calls, heq] using hrecv fd hfd heq
  · intro h
    refine ⟨fun hl => by simpa [ChatAct.calls] using h listener hl, ?_⟩
    intro fd hfd hne
    simpa [ChatAct.calls, hne] using h fd hfd

/-- The rounds of a scan that began in `s` have come to `p`: they have called on each
ready descriptor below `p` once, and `fd_max` is as it was, or a new client has raised
it. -/
structure ScannedTo (s : Chat) (ready : Finset Nat) (rounds : List ChatAct) (t : Chat)
    (p : Nat) : Prop where
  readFds : t.readFds = ready
  listener : t.listener = s.listener
  length : rounds.length = p
  le_fdMax : p ≤ t.fdMax
  calls : ∀ fd, rounds.countP (·.calls s.listener fd) = if fd ∈ ready ∧ fd < p then 1 else 0
  fdMax : t.fdMax = s.fdMax ∨ s.listener < s.fdMax ∧ s.listener < p ∧
    ∃ newFd, .accept s.listener (some newFd) ∈ rounds ∧ s.fdMax < newFd
  le_newFd : ∀ newFd, .accept s.listener (some newFd) ∈ rounds → newFd ≤ t.fdMax
  mono : s.fdMax ≤ t.fdMax

theorem scannedTo_select (s : Chat) (ready : Finset Nat) :
    ScannedTo s ready [] (s.next (.select (some ready))) 0 where
  readFds := rfl
  listener := rfl
  length := rfl
  le_fdMax := Nat.zero_le _
  calls fd := by simp
  fdMax := .inl rfl
  le_newFd newFd h := by cases h
  mono := Nat.le_refl _

/-- The round for `p` calls on `p`, and only if `p` is ready. -/
theorem calls_round {s t : Chat} {ready : Finset Nat} {rounds : List ChatAct} {a : ChatAct} {p : Nat}
    (h : ScannedTo s ready rounds t p)
    (ha : ∀ fd, a.calls s.listener fd = true ↔ fd = p ∧ p ∈ ready) (fd : Nat) :
    (rounds ++ [a]).countP (·.calls s.listener fd) = if fd ∈ ready ∧ fd < p + 1 then 1 else 0 := by
  rw [List.countP_append, h.calls, List.countP_singleton]
  rcases Nat.lt_trichotomy fd p with hlt | rfl | hlt
  · simp [ha, hlt, hlt.ne, Nat.lt_succ_of_lt hlt]
  · simp [ha]
  · simp [ha, hlt.ne', Nat.lt_asymm hlt, Nat.not_lt.mpr (Nat.succ_le_of_lt hlt)]

/-- A round that accepts no client leaves `fd_max` alone. -/
theorem ScannedTo.keep {s t : Chat} {ready : Finset Nat} {rounds : List ChatAct} {a : ChatAct}
    {p : Nat} {k : Kernel} {master : Finset Nat} (h : ScannedTo s ready rounds t p)
    (hp : p < t.fdMax) (hnot : ∀ newFd, a ≠ .accept s.listener (some newFd))
    (ha : ∀ fd, a.calls s.listener fd = true ↔ fd = p ∧ p ∈ ready) :
    ScannedTo s ready (rounds ++ [a])
      { t with master := master, kernel := k, pc := .scan (p + 1) } (p + 1) where
  readFds := h.readFds
  listener := h.listener
  length := by rw [List.length_append, h.length, List.length_singleton]
  le_fdMax := hp
  calls := calls_round h ha
  fdMax := by
    refine h.fdMax.imp_right ?_
    rintro ⟨hmax, hl, newFd, hmem, hlt⟩
    exact ⟨hmax, Nat.lt_succ_of_lt hl, newFd, List.mem_append_left _ hmem, hlt⟩
  le_newFd newFd hmem := by
    refine h.le_newFd newFd ((List.mem_append.mp hmem).resolve_right ?_)
    exact fun ha => hnot newFd (List.mem_singleton.mp ha).symm
  mono := h.mono

/-- The round that accepts a client. -/
theorem ScannedTo.accept {s t : Chat} {ready : Finset Nat} {rounds : List ChatAct} {p newFd : Nat}
    (h : ScannedTo s ready rounds t p) (he : t.enabled (.accept p (some newFd))) :
    ScannedTo s ready (rounds ++ [.accept p (some newFd)]) (t.next (.accept p (some newFd)))
      (p + 1) := by
  obtain ⟨⟨-, hp⟩, hready, hlistener, -⟩ := he
  rw [h.listener] at hlistener
  rw [h.readFds] at hready
  subst hlistener
  -- the scan comes to the listener for the first time
  have hsame : t.fdMax = s.fdMax := h.fdMax.resolve_right fun hraised => hraised.2.1.false
  refine ⟨h.readFds, h.listener, ?_, ?_, ?_, ?_, ?_, ?_⟩
  · rw [List.length_append, h.length, List.length_singleton]
  · exact Nat.le_trans hp (le_max_left _ _)
  · refine calls_round h fun fd => ?_
    simp [ChatAct.calls, ChatAct.isAccept, ChatAct.receives, hready]
  · rw [hsame] at hp
    show max t.fdMax newFd = _ ∨ _
    rw [hsame]
    rcases Nat.lt_or_ge s.fdMax newFd with hlt | hle
    · exact .inr ⟨hp, Nat.lt_succ_self _, newFd, by simp, hlt⟩
    · exact .inl (max_eq_left hle)
  · intro fd hmem
    rcases List.mem_append.mp hmem with hmem | hmem
    · exact le_max_of_le_left (h.le_newFd fd hmem)
    · obtain rfl : fd = newFd := by simpa using hmem
      exact le_max_right _ _
  · exact le_max_of_le_left h.mono

theorem ScannedTo.next {s t : Chat} {ready : Finset Nat} {rounds : List ChatAct} {a : ChatAct}
    {p : Nat} (h : ScannedTo s ready rounds t p) (hpc : t.pc = .scan p) (he : t.enabled a)
    (hselect : ∀ r, a ≠ .select r) :
    ScannedTo s ready (rounds ++ [a]) (t.next a) (p + 1) ∧ (t.next a).pc = .scan (p + 1) ∨
    t.next a = { t with pc := .select } ∧ t.fdMax = p ∧ ∃ i, a = .scanned i := by
  have hcursor : ∀ {i}, t.pc = .scan i → p = i := fun hi => by simpa [hpc] using hi
  cases a with
  | select r => exact absurd rfl (hselect r)
  | skip i =>
    obtain ⟨⟨hi, hlt⟩, hnot⟩ := he
    obtain rfl := hcursor hi
    rw [h.readFds] at hnot
    exact .inl ⟨h.keep hlt (by simp) fun fd => by
      simp [ChatAct.calls, ChatAct.isAccept, ChatAct.receives, hnot], rfl⟩
  | accept i r =>
    obtain rfl := hcursor he.1.1
    cases r with
    | some newFd => exact .inl ⟨h.accept he, rfl⟩
    | none =>
      obtain ⟨⟨-, hlt⟩, hready, hlistener, -⟩ := he
      rw [h.readFds] at hready
      rw [h.listener] at hlistener
      subst hlistener
      exact .inl ⟨h.keep hlt (by simp) fun fd => by
        simp [ChatAct.calls, ChatAct.isAccept, ChatAct.receives, hready], rfl⟩
  | recv i r =>
    obtain ⟨⟨hi, hlt⟩, hready, hne, -⟩ := he
    obtain rfl := hcursor hi
    rw [h.readFds] at hready
    rw [h.listener] at hne
    have hcalls : ∀ fd, (ChatAct.recv p r).calls s.listener fd = true ↔ fd = p ∧ p ∈ ready := by
      intro fd
      by_cases hfd : fd = s.listener
      · simp [ChatAct.calls, ChatAct.isAccept, hfd, hne.symm]
      · simpa [ChatAct.calls, ChatAct.receives, hfd, hready] using eq_comm
    refine .inl ?_
    cases r with
    | chunk buf => exact ⟨h.keep hlt (by simp) hcalls, rfl⟩
    | hungUp | error => exact ⟨h.keep hlt (by simp) hcalls, rfl⟩
  | scanned i =>
    obtain ⟨hi, hle⟩ := he
    obtain rfl := hcursor hi
    exact .inr ⟨rfl, Nat.le_antisymm hle h.le_fdMax, p, rfl⟩

/-- After a scan `main` calls `select`, and nothing else. -/
theorem eq_select_of_enabled {t : Chat} {a : ChatAct} (he : t.enabled a) (hpc : t.pc = .select) :
    ∃ r, a = .select r := by
  cases a with
  | select r => exact ⟨r, rfl⟩
  | skip i | accept i r | recv i r =>
    rw [he.1.1] at hpc
    cases hpc
  | scanned i =>
    rw [he.1] at hpc
    cases hpc

/-- The rounds of a pass, as far as it has come. -/
theorem scannedTo_of_exec {s t : Chat} {ready : Finset Nat} {rounds : List ChatAct}
    (h : chat.Exec (s.next (.select (some ready))) rounds t) (hone : ∀ r, .select r ∉ rounds) :
    (∃ p, t.pc = .scan p ∧ ScannedTo s ready rounds t p) ∨
    ∃ bs i u, rounds = bs ++ [.scanned i] ∧ t = { u with pc := .select } ∧
      ScannedTo s ready bs u u.fdMax := by
  induction h with
  | nil => exact .inl ⟨0, rfl, scannedTo_select s ready⟩
  | @snoc as u a _ he ih =>
    have hselect : ∀ r, a ≠ .select r := by
      rintro r rfl
      exact hone r (by simp)
    rcases ih fun r hr => hone r (List.mem_append_left _ hr) with
      ⟨p, hpc, hscan⟩ | ⟨_, _, _, _, rfl, _⟩
    · rcases hscan.next hpc he hselect with ⟨hnext, hpc'⟩ | ⟨hend, hmax, i, rfl⟩
      · exact .inl ⟨p + 1, hpc', hnext⟩
      · refine .inr ⟨as, i, u, rfl, hend, ?_⟩
        rw [hmax]
        exact hscan
    · obtain ⟨r, rfl⟩ := eq_select_of_enabled he rfl
      exact absurd rfl (hselect r)

theorem Pass.scannedTo {s t : Chat} {ready : Finset Nat} {rounds : List ChatAct}
    (h : Pass s ready rounds t) :
    ready ⊆ s.master ∧ ∃ bs i u, rounds = bs ++ [.scanned i] ∧ t = { u with pc := .select } ∧
      ScannedTo s ready bs u u.fdMax := by
  obtain ⟨hselect, hrounds⟩ := h.exec.of_cons
  refine ⟨hselect.2, ?_⟩
  rcases scannedTo_of_exec hrounds h.one with ⟨p, hpc, -⟩ | hscan
  · rw [h.ended] at hpc
    cases hpc
  · exact hscan

/-- A pass calls on the ready descriptors below the last value of `fd_max`. -/
theorem services_iff_lt {s u : Chat} {ready : Finset Nat} {bs : List ChatAct} {i : Nat}
    (h : ScannedTo s ready bs u u.fdMax) :
    Services s.listener ready (bs ++ [.scanned i]) ↔ ∀ fd ∈ ready, fd < u.fdMax := by
  rw [services_iff]
  refine forall₂_congr fun fd hfd => ?_
  have hlast : (ChatAct.scanned i).calls s.listener fd = false := by
    simp [ChatAct.calls, ChatAct.isAccept, ChatAct.receives]
  rw [List.countP_append, h.calls, List.countP_singleton, hlast]
  by_cases hlt : fd < u.fdMax <;> simp [hfd, hlt]

/-- A new client has raised `fd_max` exactly if the listener is below it and ready, and
`accept` has returned a larger descriptor. -/
theorem raised_iff {s u : Chat} {ready : Finset Nat} {bs : List ChatAct}
    (h : ScannedTo s ready bs u u.fdMax) :
    s.fdMax < u.fdMax ↔ s.listener < s.fdMax ∧ s.listener ∈ ready ∧
      ∃ newFd, .accept s.listener (some newFd) ∈ bs ∧ s.fdMax < newFd := by
  constructor
  · intro hlt
    rcases h.fdMax with heq | ⟨hl, -, newFd, hmem, hnew⟩
    · exact absurd heq hlt.ne'
    · refine ⟨hl, ?_, newFd, hmem, hnew⟩
      -- what was called on was ready
      by_contra hnot
      have hzero := h.calls s.listener
      rw [if_neg fun hr => hnot hr.1, List.countP_eq_zero] at hzero
      exact hzero _ hmem (by simp [ChatAct.calls, ChatAct.isAccept])
  · rintro ⟨-, -, newFd, hmem, hnew⟩
    exact Nat.lt_of_lt_of_le hnew (h.le_newFd newFd hmem)

theorem services_iff_fdMax {s t : Chat} {ready : Finset Nat} {rounds : List ChatAct}
    (hs : s.Serving) (h : Pass s ready rounds t) :
    Services s.listener ready rounds ↔
      s.fdMax ∉ ready ∨ s.listener < s.fdMax ∧ s.listener ∈ ready ∧
        ∃ newFd, .accept s.listener (some newFd) ∈ rounds ∧ s.fdMax < newFd := by
  obtain ⟨hsub, bs, i, u, rfl, -, hscan⟩ := h.scannedTo
  have hmem : ∀ newFd, .accept s.listener (some newFd) ∈ bs ++ [.scanned i] ↔
      .accept s.listener (some newFd) ∈ bs := fun newFd => by simp
  simp only [hmem]
  rw [services_iff_lt hscan, ← raised_iff hscan]
  constructor
  · intro hall
    by_cases hready : s.fdMax ∈ ready
    · exact .inr (hall _ hready)
    · exact .inl hready
  · rintro (hnot | hlt) fd hfd
    · have hle := hs.watching.le_fdMax fd (hsub hfd)
      have hne : fd ≠ s.fdMax := fun heq => hnot (heq ▸ hfd)
      exact Nat.lt_of_lt_of_le (Nat.lt_of_le_of_ne hle hne) hscan.mono
    · exact Nat.lt_of_le_of_lt (hs.watching.le_fdMax fd (hsub hfd)) hlt

/-! ## The states that `main` reaches -/

/-- No client is connected, and the listener is the largest descriptor. -/
structure Chat.Deserted (s : Chat) : Prop where
  fdMax : s.fdMax = s.listener
  client : ∀ fd, ¬ s.kernel.Connected fd

theorem deserted_next {s : Chat} {a : ChatAct} (hs : s.Serving) (h : s.Deserted)
    (he : s.enabled a) : (s.next a).Deserted := by
  cases a with
  | select r => cases r <;> exact ⟨h.fdMax, h.client⟩
  | skip i | scanned i => exact ⟨h.fdMax, h.client⟩
  | accept i r =>
    -- the scan ends before the listener
    obtain ⟨⟨-, hlt⟩, -, rfl, -⟩ := he
    rw [h.fdMax] at hlt
    exact absurd hlt (Nat.lt_irrefl _)
  | recv i r => exact absurd (connected_of_recv hs he) (h.client i)

/-- `main` never accepts a client. -/
theorem no_client_of_reachable {s : Chat} (h : chat.Reachable s) : s.Deserted := by
  refine h.induct ?_ fun s a hs ih he => deserted_next (serving_of_reachable hs) ih he
  intro s hs
  exact ⟨hs.fdMax, fun fd => by simp [Kernel.Connected, hs.client]⟩

theorem services_iff_empty {s t : Chat} {ready : Finset Nat} {rounds : List ChatAct}
    (hs : chat.Reachable s) (h : Pass s ready rounds t) :
    Services s.listener ready rounds ↔ ready = ∅ := by
  have hserving := serving_of_reachable hs
  obtain ⟨hmax, hnone⟩ := no_client_of_reachable hs
  rw [services_iff_fdMax hserving h, hmax]
  have hlistener : ∀ fd ∈ ready, fd = s.listener := by
    intro fd hfd
    exact ((hserving.watching.mem_iff fd).mp (h.scannedTo.1 hfd)).resolve_right (hnone fd)
  constructor
  · rintro (hnot | ⟨hlt, -⟩)
    · refine Finset.eq_empty_of_forall_notMem fun fd hfd => hnot ?_
      rwa [← hlistener fd hfd]
    · exact absurd hlt (Nat.lt_irrefl _)
  · rintro rfl
    exact .inl (Finset.notMem_empty _)

/-- A pass services what is ready exactly if the largest descriptor is not ready, or the
listener is below it and ready, and `accept` returns a larger one. In the states that
`main` reaches, the listener is the largest descriptor and the only one watched, and a
pass services nothing. -/
theorem pass_services_iff {s t : Chat} {ready : Finset Nat} {rounds : List ChatAct}
    (hs : s.Serving) (h : Pass s ready rounds t) :
    (Services s.listener ready rounds ↔
      s.fdMax ∉ ready ∨ s.listener < s.fdMax ∧ s.listener ∈ ready ∧
        ∃ newFd, .accept s.listener (some newFd) ∈ rounds ∧ s.fdMax < newFd) ∧
    (chat.Reachable s → (Services s.listener ready rounds ↔ ready = ∅)) :=
  ⟨services_iff_fdMax hs h, fun hreach => services_iff_empty hreach h⟩

/-- A client on descriptor `4`, and the listener on `3`. -/
def Chat.oneClient : Chat where
  listener := 3
  master := {3, 4}
  readFds := ∅
  fdMax := 4
  kernel :=
    { openFds := {0, 1, 2, 3, 4}
      accepted := 1
      client := fun fd => if fd = 4 then some 0 else none
      sent := [] }
  pc := .select

theorem Chat.oneClient_serving : Chat.oneClient.Serving := by
  refine ⟨⟨?_, by decide, by decide, by simp [Chat.oneClient, Kernel.Connected]⟩, fun p hp => ?_⟩
  swap
  · cases hp
  intro fd
  by_cases h : fd = 4 <;> simp [Chat.oneClient, Kernel.Connected, h]

/-- A second client connects while the first one sends a byte. -/
def secondClient : List ChatAct :=
  [.skip 0, .skip 1, .skip 2, .accept 3 (some 5), .recv 4 (.chunk [65]), .scanned 5]

theorem secondClient_runs :
    (chat.run .oneClient (.select (some {3, 4}) :: secondClient)).isSome := by
  decide

theorem pass_services_secondClient : Services 3 {3, 4} secondClient := by
  have hpass : Pass .oneClient {3, 4} secondClient _ :=
    ⟨Machine.exec_run_get secondClient_runs, rfl, by simp [secondClient]⟩
  exact (pass_services_iff Chat.oneClient_serving hpass).1.mpr
    (.inr ⟨by decide, by decide, 5, by simp [secondClient, Chat.oneClient], by decide⟩)

/-- `main` before its loop, with the listener on descriptor `3`. -/
def Chat.start : Chat where
  listener := 3
  master := {3}
  readFds := ∅
  fdMax := 3
  kernel := { openFds := {0, 1, 2, 3}, accepted := 0, client := fun _ => none, sent := [] }
  pc := .select

theorem Chat.start_init : Chat.start.Init :=
  ⟨rfl, rfl, rfl, by decide, rfl, fun _ => rfl, rfl⟩

/-- The rounds of the first pass, in which a client knocks. -/
def knock : List ChatAct := [.skip 0, .skip 1, .skip 2, .scanned 3]

theorem knock_runs : (chat.run .start (.select (some {3}) :: knock)).isSome := by
  decide

theorem firstConnection_ignored :
    (∃ t, Pass .start {3} knock t) ∧ ¬ Services Chat.start.listener {3} knock := by
  refine ⟨⟨_, Machine.exec_run_get knock_runs, rfl, by simp [knock]⟩, ?_⟩
  rintro ⟨haccept, -⟩
  exact absurd (haccept (by decide)) (by decide)

end SisProg.PipeFifo
