import SisProg.Lib.Ledger
import SisProg.Lib.Selector
import SisProg.Relay.EventLoop

/-!
# The descriptors of the relay

`run` keeps the descriptors that it watches in `masterSet` and the largest of them
in `maxFd`. Both change in the middle of the scan, and so does the kernel's table:
the number of a client that has gone is free at once, and the next `accept` or the
open of the FIFO may return it.

`descriptors_tracked` compares these sets with the run itself: a client is open if
the run has accepted it and not closed it since. The scan goes upwards and accepts
at the listener. A number that `accept` returns there is not watched at that
moment, so it is in `readSet` only if the scan has passed it; this is why readiness
reported for an older client is never used for a new one.
-/

namespace SisProg.Relay

open SisProg.Selector

/-- The step accepts a client and gets the descriptor `c`. -/
def LoopAct.accepts (c : Nat) : LoopAct → Bool
  | .accept _ clientFd => clientFd == some c
  | _ => false

def LoopAct.isSelect : LoopAct → Bool
  | .select _ => true
  | _ => false

/-- The client `c` has been accepted and not closed since. -/
def OpenClient (as : List LoopAct) (c : Nat) : Prop :=
  Machine.Since (fun a => a.accepts c) (· = .handleClientData c .closed) as

/-- The client `c` has been accepted in the scan that is going on. -/
def AcceptedInScan (as : List LoopAct) (c : Nat) : Prop :=
  Machine.Since (fun a => a.accepts c) (fun a => a.isSelect) as

/-- Only open clients are read and closed; so none is after it was closed. -/
def ReadsOpenClients (as : List LoopAct) : Prop :=
  ∀ bs c r cs, as = bs ++ .handleClientData c r :: cs → OpenClient bs c

/-- No client is read in the scan that accepted it. -/
def NeverStale (as : List LoopAct) : Prop :=
  ∀ bs c r cs, as = bs ++ .handleClientData c r :: cs → ¬ AcceptedInScan bs c

/-- The steps until the number `c` is accepted again. -/
def life (c : Nat) (cs : List LoopAct) : List LoopAct :=
  cs.takeWhile fun a => !a.accepts c

/-- Each client is closed exactly once before its number is accepted again; or it has
not been closed so far, and is open. -/
def ClosedOnce (as : List LoopAct) : Prop :=
  ∀ bs l c cs, as = bs ++ .accept l (some c) :: cs →
    (life c cs).count (.handleClientData c .closed) = 1 ∨
    life c cs = cs ∧ .handleClientData c .closed ∉ cs ∧ OpenClient as c

/-- The steps that neither accept nor close a client. -/
def LoopAct.Neutral (a : LoopAct) : Prop :=
  ∀ c, a.accepts c = false ∧ a ≠ .handleClientData c .closed

theorem openClient_snoc {as : List LoopAct} {a : LoopAct} {c : Nat} :
    OpenClient (as ++ [a]) c ↔
      a.accepts c = true ∨ OpenClient as c ∧ a ≠ .handleClientData c .closed :=
  Machine.since_snoc

theorem openClient_neutral {as : List LoopAct} {a : LoopAct} (ha : a.Neutral) (c : Nat) :
    OpenClient (as ++ [a]) c ↔ OpenClient as c := by
  simp [openClient_snoc, ha c]

theorem openClient_accept {as : List LoopAct} (l c fd : Nat) :
    OpenClient (as ++ [.accept l (some c)]) fd ↔ fd = c ∨ OpenClient as fd := by
  rw [openClient_snoc, eq_comm (a := fd)]
  simp [LoopAct.accepts]

theorem openClient_closed {as : List LoopAct} (c fd : Nat) :
    OpenClient (as ++ [.handleClientData c .closed]) fd ↔ fd ≠ c ∧ OpenClient as fd := by
  rw [openClient_snoc, and_comm, ne_comm]
  simp [LoopAct.accepts]

theorem acceptedInScan_snoc {as : List LoopAct} {a : LoopAct} {c : Nat} :
    AcceptedInScan (as ++ [a]) c ↔
      a.accepts c = true ∨ AcceptedInScan as c ∧ ¬ a.isSelect = true :=
  Machine.since_snoc

/-! ## What `masterSet` holds -/

/-- The listener and the open clients are watched, all of them are open, and the
scan meets only watched descriptors. -/
structure Tracked (as : List LoopAct) (s : EventLoop) : Prop where
  mem_iff : ∀ fd, fd ∈ s.masterSet ↔ fd = s.listenerFd ∨ OpenClient as fd
  opened : s.masterSet ⊆ s.openFds
  le_maxFd : ∀ fd ∈ s.masterSet, fd ≤ s.maxFd
  listener : ¬ OpenClient as s.listenerFd
  ahead : ∀ p, s.pc = .scan p → ∀ fd ∈ s.readSet, p ≤ fd → fd ∈ s.masterSet

theorem Tracked.watching {as : List LoopAct} {s : EventLoop} (h : Tracked as s) :
    Watching (OpenClient as) s.listenerFd s.masterSet s.openFds s.maxFd :=
  ⟨h.mem_iff, h.opened, h.le_maxFd, h.listener⟩

theorem tracked_of_watching {as : List LoopAct} {s : EventLoop}
    (h : Watching (OpenClient as) s.listenerFd s.masterSet s.openFds s.maxFd)
    (hahead : ∀ p, s.pc = .scan p → Ahead s.readSet s.masterSet p) : Tracked as s :=
  ⟨h.mem_iff, h.opened, h.le_fdMax, h.listener, hahead⟩

theorem tracked_init {s : EventLoop} (h : s.Init) : Tracked [] s := by
  refine tracked_of_watching ?_ ?_
  · rw [h.masterSet, h.maxFd]
    exact .init h.openFds fun c => Machine.not_since_nil _ _
  · intro p hp
    rw [h.pc] at hp
    cases hp

/-- A step that neither accepts nor closes changes `readSet` and the program counter
only. -/
theorem tracked_neutral {as : List LoopAct} {s : EventLoop} {a : LoopAct} (h : Tracked as s)
    (ha : a.Neutral) {fds : Finset Nat} {pc : LoopPc}
    (hahead : ∀ p, pc = .scan p → Ahead fds s.masterSet p) :
    Tracked (as ++ [a]) { s with readSet := fds, pc := pc } :=
  tracked_of_watching (h.watching.congr (openClient_neutral ha)) hahead

/-- The scan moves on. -/
theorem tracked_advance {as : List LoopAct} {s : EventLoop} {a : LoopAct} {fd : Nat}
    (h : Tracked as s) (hpc : s.pc = .scan fd) (ha : a.Neutral) :
    Tracked (as ++ [a]) { s with pc := .scan (fd + 1) } := by
  refine tracked_neutral h ha ?_
  intro p hp
  obtain rfl : fd + 1 = p := by simpa using hp
  exact Ahead.succ (h.ahead fd hpc)

/-- `readSet` is a part of `masterSet` when a scan begins. -/
theorem tracked_select {as : List LoopAct} {s : EventLoop} {r : Selected} {fds : Finset Nat}
    {pc : LoopPc} (h : Tracked as s) (hsub : fds ⊆ s.masterSet) :
    Tracked (as ++ [.select r]) { s with readSet := fds, pc := pc } :=
  tracked_neutral h (fun c => ⟨rfl, by simp⟩) fun _ _ => .of_subset hsub

/-- The number that `accept` returns is not in use. -/
theorem tracked_accept {as : List LoopAct} {s : EventLoop} {l c : Nat} (h : Tracked as s)
    (he : s.enabled (.accept l (some c))) :
    Tracked (as ++ [.accept l (some c)]) (s.next (.accept l (some c))) := by
  obtain ⟨⟨hpc, -⟩, -, rfl, hfree⟩ := he
  refine tracked_of_watching (h.watching.accept (hfree c rfl) (openClient_accept _ c)) ?_
  intro p hp
  obtain rfl : s.listenerFd + 1 = p := by simpa [EventLoop.next] using hp
  exact Ahead.insert (Ahead.succ (h.ahead _ hpc))

/-- A client that is closed is behind the scan at once. -/
theorem tracked_closed {as : List LoopAct} {s : EventLoop} {c : Nat} (h : Tracked as s)
    (he : s.enabled (.handleClientData c .closed)) :
    Tracked (as ++ [.handleClientData c .closed]) (s.next (.handleClientData c .closed)) := by
  obtain ⟨⟨hpc, -⟩, -, hne⟩ := he
  refine tracked_of_watching (h.watching.close hne (openClient_closed c)) ?_
  intro p hp
  obtain rfl : c + 1 = p := by simpa [EventLoop.next] using hp
  exact Ahead.erase (h.ahead c hpc)

theorem tracked_next {as : List LoopAct} {s : EventLoop} {a : LoopAct} (h : Tracked as s)
    (he : s.enabled a) : Tracked (as ++ [a]) (s.next a) := by
  cases a with
  | select r =>
    cases r with
    | ready fds => exact tracked_select h he.2
    | interrupted | failed => exact tracked_select h (Finset.Subset.refl _)
  | skip fd => exact tracked_advance h he.1.1 fun c => ⟨rfl, by simp⟩
  | accept l r =>
    cases r with
    | none => exact tracked_advance h he.1.1 fun c => ⟨rfl, by simp⟩
    | some c => exact tracked_accept h he
  | handleClientData c r =>
    cases r with
    | closed => exact tracked_closed h he
    | chunk loggerFd => exact tracked_advance h he.1.1 fun c => ⟨rfl, by simp⟩
  | scanned fd =>
    refine tracked_neutral h (fun c => ⟨rfl, by simp⟩) ?_
    intro p hp
    cases hp

theorem tracked_inv {s₀ s : EventLoop} {as : List LoopAct} (h₀ : s₀.Init)
    (h : eventLoop.Exec s₀ as s) : Tracked as s := by
  induction h with
  | nil => exact tracked_init h₀
  | snoc _ he ih => exact tracked_next ih he

theorem listenerFd_eq {s₀ s : EventLoop} {as : List LoopAct} (h : eventLoop.Exec s₀ as s) :
    s.listenerFd = s₀.listenerFd := by
  refine h.induct (P := fun s => s.listenerFd = s₀.listenerFd) rfl ?_
  intro s a hs _
  rcases a with (_ | _ | _) | _ | ⟨_, _ | _⟩ | ⟨_, _ | _⟩ | _ <;> exact hs

theorem at_of_read {s : EventLoop} {c : Nat} {r : ClientData}
    (he : s.enabled (.handleClientData c r)) :
    s.pc = .scan c ∧ c ∈ s.readSet ∧ c ≠ s.listenerFd := by
  cases r with
  | closed => exact ⟨he.1.1, he.2⟩
  | chunk loggerFd => exact ⟨he.1.1, he.2.1, he.2.2.1⟩

theorem mem_masterSet_of_read {as : List LoopAct} {s : EventLoop} {c : Nat} {r : ClientData}
    (h : Tracked as s) (he : s.enabled (.handleClientData c r)) : c ∈ s.masterSet := by
  obtain ⟨hpc, hmem, -⟩ := at_of_read he
  exact h.ahead c hpc c hmem (Nat.le_refl c)

theorem openClient_of_read {as : List LoopAct} {s : EventLoop} {c : Nat} {r : ClientData}
    (h : Tracked as s) (he : s.enabled (.handleClientData c r)) : OpenClient as c :=
  ((h.mem_iff c).mp (mem_masterSet_of_read h he)).resolve_left (at_of_read he).2.2

theorem notMem_masterSet_of_accept {as : List LoopAct} {s : EventLoop} {l c : Nat}
    (h : Tracked as s) (he : s.enabled (.accept l (some c))) : c ∉ s.masterSet :=
  fun hmem => he.2.2.2 c rfl (h.opened hmem)

/-! ## No stale readiness -/

/-- The scan has passed the clients accepted in it whose number is in `readSet`. -/
def Fresh (as : List LoopAct) (s : EventLoop) : Prop :=
  ∀ p, s.pc = .scan p → ∀ c ∈ s.readSet, AcceptedInScan as c → c < p

theorem fresh_advance {as : List LoopAct} {s t : EventLoop} {a : LoopAct} {fd : Nat}
    (h : Fresh as s) (hpc : s.pc = .scan fd) (ht : t.pc = .scan (fd + 1))
    (hread : t.readSet = s.readSet) (ha : ∀ c, a.accepts c = false) : Fresh (as ++ [a]) t := by
  intro p hp c hc hin
  obtain rfl : fd + 1 = p := by simpa [ht] using hp
  rw [hread] at hc
  have hin' := (acceptedInScan_snoc.mp hin).resolve_left (by simp [ha])
  exact (h fd hpc c hc hin'.1).trans (Nat.lt_succ_self fd)

theorem fresh_next {as : List LoopAct} {s : EventLoop} {a : LoopAct} (ht : Tracked as s)
    (h : Fresh as s) (he : s.enabled a) : Fresh (as ++ [a]) (s.next a) := by
  cases a with
  | select r =>
    intro p _ c _ hin
    simp [acceptedInScan_snoc, LoopAct.accepts, LoopAct.isSelect] at hin
  | skip fd => exact fresh_advance h he.1.1 rfl rfl fun c => rfl
  | accept l r =>
    cases r with
    | none => exact fresh_advance h he.1.1 rfl rfl fun c => rfl
    | some c =>
      obtain ⟨⟨hpc, -⟩, -, -, hfree⟩ := he
      intro p hp c' hc' hin
      obtain rfl : l + 1 = p := by simpa [EventLoop.next] using hp
      rcases acceptedInScan_snoc.mp hin with haccepts | ⟨hin, -⟩
      · obtain rfl : c = c' := by simpa [LoopAct.accepts] using haccepts
        -- a number in `readSet` that is still ahead is in use
        by_contra hle
        have hmem := ht.ahead l hpc c hc' (Nat.le_of_lt (Nat.lt_of_succ_le (Nat.not_lt.mp hle)))
        exact hfree c rfl (ht.opened hmem)
      · exact (h l hpc c' hc' hin).trans (Nat.lt_succ_self l)
  | handleClientData c r =>
    cases r with
    | closed => exact fresh_advance h he.1.1 rfl rfl fun c => rfl
    | chunk loggerFd => exact fresh_advance h he.1.1 rfl rfl fun c => rfl
  | scanned fd =>
    intro p hp
    cases hp

theorem fresh_inv {s₀ s : EventLoop} {as : List LoopAct} (h₀ : s₀.Init)
    (h : eventLoop.Exec s₀ as s) : Fresh as s := by
  induction h with
  | nil =>
    intro p hp
    rw [h₀.pc] at hp
    cases hp
  | snoc hrun he ih => exact fresh_next (tracked_inv h₀ hrun) ih he

theorem not_acceptedInScan_of_read {as : List LoopAct} {s : EventLoop} {c : Nat} {r : ClientData}
    (h : Fresh as s) (he : s.enabled (.handleClientData c r)) : ¬ AcceptedInScan as c := by
  obtain ⟨hpc, hmem, -⟩ := at_of_read he
  intro hin
  exact Nat.lt_irrefl c (h c hpc c hmem hin)

/-! ## How often a client is closed -/

theorem eq_accept {a : LoopAct} {c : Nat} (h : a.accepts c = true) :
    ∃ l, a = .accept l (some c) := by
  cases a with
  | accept l r => exact ⟨l, by simpa [LoopAct.accepts] using h⟩
  | _ => cases h

/-- The run is a ledger for each number: it is accepted while it is free, and closed while it
is open. -/
theorem proper_of_exec {s₀ s : EventLoop} {as : List LoopAct} (h₀ : s₀.Init)
    (h : eventLoop.Exec s₀ as s) (c : Nat) :
    Ledger.Proper (fun a => a.accepts c = true) (· = .handleClientData c .closed) as where
  free := by
    rintro bs a cs rfl ha hopen
    obtain ⟨l, rfl⟩ := eq_accept ha
    obtain ⟨t, ht, hacc, -⟩ := h.enabled_of_cons
    have htracked := tracked_inv h₀ ht
    exact notMem_masterSet_of_accept htracked hacc ((htracked.mem_iff c).mpr (.inr hopen))
  held := by
    rintro bs a cs rfl rfl
    obtain ⟨t, ht, he, -⟩ := h.enabled_of_cons
    have hclosed : t.enabled (.handleClientData c .closed) := he
    exact openClient_of_read (tracked_inv h₀ ht) hclosed

theorem closedOnce_of_exec {s₀ s : EventLoop} {as : List LoopAct} (h₀ : s₀.Init)
    (h : eventLoop.Exec s₀ as s) : ClosedOnce as := by
  intro bs l c cs heq
  have hdisj : ∀ a : LoopAct, a.accepts c = true → ¬ a = .handleClientData c .closed := by
    rintro a ha rfl
    cases ha
  have haccept : (LoopAct.accept l (some c)).accepts c = true := by simp [LoopAct.accepts]
  have hlife : life c cs = Ledger.life (fun a => a.accepts c = true) cs := by
    unfold life Ledger.life
    congr 1
    funext a
    simp
  rw [hlife]
  rcases (proper_of_exec h₀ h c).released_once hdisj heq haccept with hone | ⟨hall, hnone, hopen⟩
  · exact .inl hone
  · exact .inr ⟨hall, List.count_eq_zero.mp hnone, hopen⟩

/-- In every state of `run`, and so at the top of every iteration, `masterSet` holds
the listener and the clients accepted and not closed, all of them open and at most
`maxFd`; each client is closed once; and a read is of an open client that was not
accepted in the same scan, whatever numbers the kernel uses again. -/
theorem descriptors_tracked {s₀ s : EventLoop} {as : List LoopAct} (h₀ : s₀.Init)
    (h : eventLoop.Exec s₀ as s) :
    (∀ fd, fd ∈ s.masterSet ↔ fd = s₀.listenerFd ∨ OpenClient as fd) ∧
    (∀ fd ∈ s.masterSet, fd ∈ s.openFds ∧ fd ≤ s.maxFd) ∧
    ClosedOnce as ∧ ReadsOpenClients as ∧ NeverStale as := by
  have ht := tracked_inv h₀ h
  refine ⟨?_, ?_, closedOnce_of_exec h₀ h, ?_, ?_⟩
  · intro fd
    rw [ht.mem_iff, listenerFd_eq h]
  · intro fd hfd
    exact ⟨ht.opened hfd, ht.le_maxFd fd hfd⟩
  · rintro bs c r cs rfl
    obtain ⟨t, hrun, he, -⟩ := h.enabled_of_cons
    exact openClient_of_read (tracked_inv h₀ hrun) he
  · rintro bs c r cs rfl
    obtain ⟨t, hrun, he, -⟩ := h.enabled_of_cons
    exact not_acceptedInScan_of_read (fresh_inv h₀ hrun) he

/-- After the client of `oneClient` has gone, the next one gets its number. -/
def reconnect : List LoopAct :=
  oneClient ++ .select (.ready {5}) :: skips ++ [.accept 5 (some 6), .skip 6, .scanned 7] ++
    .select (.ready {6}) :: skips ++ [.skip 5, .handleClientData 6 (.chunk none), .scanned 7]

theorem reconnect_runs : (eventLoop.run .start reconnect).isSome := by
  decide

theorem descriptors_tracked_reconnect :
    (∀ fd, fd ∈ ((eventLoop.run .start reconnect).get reconnect_runs).masterSet ↔
      fd = 5 ∨ OpenClient reconnect fd) ∧
    ClosedOnce reconnect ∧ ReadsOpenClients reconnect ∧ NeverStale reconnect := by
  obtain ⟨hmem, -, honce, hopen, hfresh⟩ :=
    descriptors_tracked EventLoop.start_init (Machine.exec_run_get reconnect_runs)
  exact ⟨hmem, honce, hopen, hfresh⟩

end SisProg.Relay
