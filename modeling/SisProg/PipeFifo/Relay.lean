import SisProg.Relay.EventLoop
import SisProg.Relay.Logging

/-!
# The loop of the C relay

`relay.c`, in `pipe-fifo` and in `temp/relay`, has the loop of `RelayServer::run`. It
stores the result of `read` in a `size_t`, and closes the client if that is negative,
which it never is: `0` at the end of file is relayed as an empty chunk, and `-1` as a
chunk of `2^64 - 1` bytes. The client stays in `master_set`, and `select` reports it at
once again.

`relayLoop` is the loop with the handling of a client as a parameter. With
`RelayServer::handleClientData` it is the loop of `RelayServer` (`relayServer_exec`).
With the code of `relay.c` it is the same loop in exactly those runs in which every
`read` has returned a chunk (`drops_finished_iff`).
-/

namespace SisProg.PipeFifo

open Relay

/-! ## A chunk is handled -/

/-- What `read(fd, buf, BUFSIZ)` returns: the length of a chunk, `0`, or `-1`. -/
inductive ReadResult
  | chunk (buf : Bytes)
  | eof
  | error
deriving DecidableEq

namespace ReadResult

def nbytes : ReadResult → Int
  | .chunk buf => buf.length
  | .eof => 0
  | .error => -1

/-- The client has gone. -/
def finished : ReadResult → Bool
  | .chunk _ => false
  | _ => true

/-- A chunk is not empty, and fits into the buffer. -/
def Fits : ReadResult → Prop
  | .chunk buf => buf ≠ [] ∧ buf.length ≤ bufsiz
  | _ => True

instance (r : ReadResult) : Decidable r.Fits := by
  cases r <;> unfold Fits <;> infer_instance

end ReadResult

/-- Where a chunk is written. -/
inductive Out
  | pipe
  | fifo
deriving DecidableEq

/-- What the code does with a client: close it and take it out of `master_set`, or write
that many bytes of the buffer. -/
inductive Handled
  | closed
  | written (writes : List (Out × Nat))
deriving DecidableEq

/-- `RelayServer::handleClientData`, where `loggerFd` is what the open of the FIFO would
return. -/
def handleClientData (r : ReadResult) (loggerFd : Option Nat) : Handled :=
  let nbytes := r.nbytes
  if nbytes ≤ 0 then .closed
  else .written ((.pipe, nbytes.toNat) :: if loggerFd.isSome then [(.fifo, nbytes.toNat)] else [])

/-- The same in `relay.c`: `nread` is a `size_t`. -/
def handleClient (r : ReadResult) (loggerFd : Option Nat) : Handled :=
  let nread := UInt64.ofInt r.nbytes
  if nread < 0 then .closed
  else .written ((.pipe, nread.toNat) :: if loggerFd.isSome then [(.fifo, nread.toNat)] else [])

theorem handleClient_ne_closed (r : ReadResult) (loggerFd : Option Nat) :
    handleClient r loggerFd ≠ .closed := by
  unfold handleClient
  simp

theorem handleClientData_finished {r : ReadResult} (h : r.finished = true) (loggerFd : Option Nat) :
    handleClientData r loggerFd = .closed := by
  cases r with
  | chunk buf => cases h
  | eof | error => rfl

theorem nread_chunk {buf : Bytes} (h : buf.length ≤ bufsiz) :
    (UInt64.ofInt (ReadResult.chunk buf).nbytes).toNat = buf.length := by
  have hsmall : buf.length < 2 ^ 64 := Nat.lt_of_le_of_lt h (by decide)
  have hmod : ((buf.length : Int) % 2 ^ 64).toNat = buf.length :=
    (Int.toNat_natCast _).trans (Nat.mod_eq_of_lt hsmall)
  rw [ReadResult.nbytes, UInt64.ofInt, hmod, UInt64.toNat_ofNat_of_lt' hsmall]

theorem handleClientData_chunk {buf : Bytes} (h : buf ≠ []) (loggerFd : Option Nat) :
    handleClientData (.chunk buf) loggerFd =
      .written ((.pipe, buf.length) :: if loggerFd.isSome then [(.fifo, buf.length)] else []) := by
  have hpos : ¬ (ReadResult.chunk buf).nbytes ≤ 0 :=
    Int.not_le.mpr (Int.natCast_pos.mpr (List.length_pos_iff.mpr h))
  unfold handleClientData
  rw [if_neg hpos]
  rfl

/-- The two agree on chunks, and on nothing else. -/
theorem handleClient_eq_iff {r : ReadResult} (hr : r.Fits) (loggerFd : Option Nat) :
    handleClient r loggerFd = handleClientData r loggerFd ↔ r.finished = false := by
  constructor
  · intro heq
    by_contra hfin
    rw [handleClientData_finished (Bool.eq_true_of_not_eq_false hfin)] at heq
    exact handleClient_ne_closed r loggerFd heq
  · intro hfin
    cases r with
    | eof | error => cases hfin
    | chunk buf =>
      obtain ⟨hne, hle⟩ := hr
      rw [handleClientData_chunk hne, handleClient, if_neg UInt64.not_lt_zero, nread_chunk hle]

/-! ## The loop -/

/-- The steps of the loop, as in `LoopAct`; `read` is a call of `read` on a client, with
what the open of the FIFO would return. -/
inductive RelayAct
  | select (r : Selected)
  | skip (fd : Nat)
  | accept (fd : Nat) (clientFd : Option Nat)
  | read (fd : Nat) (r : ReadResult) (loggerFd : Option Nat)
  | scanned (fd : Nat)
deriving DecidableEq

/-- The step of `RelayServer::run` with the same answers of the kernel. -/
def RelayAct.toLoopAct : RelayAct → LoopAct
  | .select r => .select r
  | .skip fd => .skip fd
  | .accept fd clientFd => .accept fd clientFd
  | .read fd (.chunk _) loggerFd => .handleClientData fd (.chunk loggerFd)
  | .read fd _ _ => .handleClientData fd .closed
  | .scanned fd => .scanned fd

def relayEnabled (s : EventLoop) : RelayAct → Prop
  | .read fd r loggerFd =>
      s.At fd ∧ fd ∈ s.readSet ∧ fd ≠ s.listenerFd ∧ r.Fits ∧ ∀ f ∈ loggerFd, f ∉ s.openFds
  | a => s.enabled a.toLoopAct

/-- What the handling of a client leaves of the two sets. -/
def relayNext (handle : ReadResult → Option Nat → Handled) (s : EventLoop) : RelayAct → EventLoop
  | .read fd r loggerFd =>
      match handle r loggerFd with
      | .closed =>
          { s with
            masterSet := s.masterSet.erase fd
            openFds := s.openFds.erase fd
            pc := .scan (fd + 1) }
      | .written _ => { s with pc := .scan (fd + 1) }
  | a => s.next a.toLoopAct

instance (s : EventLoop) (a : RelayAct) : Decidable (relayEnabled s a) := by
  cases a <;> unfold relayEnabled <;> infer_instance

/-- The loop of the relay, with the handling of a client. -/
def relayLoop (handle : ReadResult → Option Nat → Handled) : Machine EventLoop RelayAct where
  init := EventLoop.Init
  enabled := relayEnabled
  next := relayNext handle

/-- The loop of `relay.c`. -/
def relay : Machine EventLoop RelayAct := relayLoop handleClient

instance (s : EventLoop) (a : RelayAct) : Decidable (relay.enabled s a) :=
  inferInstanceAs (Decidable (relayEnabled s a))

theorem relayNext_read (s : EventLoop) (fd : Nat) (r : ReadResult) (loggerFd : Option Nat) :
    relay.next s (.read fd r loggerFd) = { s with pc := .scan (fd + 1) } := by
  show relayNext handleClient s (.read fd r loggerFd) = _
  simp only [relayNext, handleClient, if_neg UInt64.not_lt_zero]

/-- With `handleClientData` the loop is the loop of `RelayServer`. -/
def relayServer : Machine.Simulation (relayLoop handleClientData) eventLoop where
  abs := id
  label a := some a.toLoopAct
  init _ h := h
  silent _ _ _ h := nomatch h
  visible s a b he hb := by
    obtain rfl : a.toLoopAct = b := by simpa using hb
    cases a with
    | select r | skip fd | accept fd r | scanned fd => exact ⟨he, rfl⟩
    | read fd r loggerFd =>
      obtain ⟨hat, hmem, hne, hfits, hfree⟩ := he
      cases r with
      | eof | error => exact ⟨⟨hat, hmem, hne⟩, rfl⟩
      | chunk buf =>
        refine ⟨⟨hat, hmem, hne, hfree⟩, ?_⟩
        simp only [relayLoop, relayNext, handleClientData_chunk hfits.1]
        rfl

theorem relayServer_exec {s t : EventLoop} {as : List RelayAct}
    (h : (relayLoop handleClientData).Exec s as t) :
    eventLoop.Exec s (as.map RelayAct.toLoopAct) t := by
  have hrun := relayServer.exec h
  rwa [show relayServer.label = some ∘ RelayAct.toLoopAct from rfl,
    List.filterMap_eq_map] at hrun

/-! ## Clients that have gone -/

/-- In the step in which its `read` returned `0` or `-1` a client is closed and taken out of
`master_set`, and it is not read again before its number is accepted again. -/
def DropsFinished (s₀ : EventLoop) (as : List RelayAct) : Prop :=
  ∀ bs fd r loggerFd cs, as = bs ++ .read fd r loggerFd :: cs → r.finished = true →
    (∀ t, relay.Exec s₀ (bs ++ [.read fd r loggerFd]) t → fd ∉ t.masterSet ∧ fd ∉ t.openFds) ∧
    ∀ cs₁ r' loggerFd' cs₂, cs = cs₁ ++ .read fd r' loggerFd' :: cs₂ →
      ∃ l, .accept l (some fd) ∈ cs₁

/-- Every write has the length of what has just been read, and that is at most `BUFSIZ`. -/
def WritesWhatWasRead (as : List RelayAct) : Prop :=
  ∀ fd r loggerFd, .read fd r loggerFd ∈ as → ∀ writes, handleClient r loggerFd = .written writes →
    ∀ w ∈ writes, (w.2 : Int) = r.nbytes ∧ w.2 ≤ bufsiz

/-- `RelayServer` does the same with the same answers of the kernel. -/
def AgreesWithServer (s₀ s : EventLoop) (as : List RelayAct) : Prop :=
  eventLoop.Exec s₀ (as.map RelayAct.toLoopAct) s ∧
  ∀ fd r loggerFd, .read fd r loggerFd ∈ as → handleClient r loggerFd = handleClientData r loggerFd

/-- During a scan only watched descriptors are read, since none is ever taken out. -/
theorem readSet_subset {s : EventLoop} (h : relay.Reachable s) {fd : Nat}
    (hpc : s.pc = .scan fd) : s.readSet ⊆ s.masterSet := by
  refine h.induct (P := fun s => ∀ fd, s.pc = .scan fd → s.readSet ⊆ s.masterSet) ?_ ?_ fd hpc
  · intro s hs fd hfd
    rw [hs.pc] at hfd
    cases hfd
  · intro s a _ ih he
    cases a with
    | select r =>
      cases r with
      | ready fds => exact fun _ _ => he.2
      | interrupted | failed => exact fun _ _ => Finset.Subset.refl _
    | skip fd' => exact fun _ _ => ih fd' he.1.1
    | accept fd' r =>
      cases r with
      | none => exact fun _ _ => ih fd' he.1.1
      | some c => exact fun _ _ => (ih fd' he.1.1).trans (Finset.subset_insert c _)
    | read fd' r loggerFd =>
      rw [relayNext_read]
      exact fun _ _ => ih fd' he.1.1
    | scanned fd' =>
      intro fd hfd
      cases hfd

theorem not_finished_of_drops {s₀ s : EventLoop} {as : List RelayAct} (h₀ : s₀.Init)
    (h : relay.Exec s₀ as s) (hdrops : DropsFinished s₀ as) (fd : Nat) (r : ReadResult)
    (loggerFd : Option Nat) (hmem : .read fd r loggerFd ∈ as) : r.finished = false := by
  obtain ⟨bs, cs, rfl⟩ := List.append_of_mem hmem
  by_contra hfin
  obtain ⟨t, ht, he, -⟩ := h.enabled_of_cons
  have hgone := (hdrops bs fd r loggerFd cs rfl (Bool.eq_true_of_not_eq_false hfin)).1 _ (ht.snoc he)
  rw [relayNext_read] at hgone
  obtain ⟨⟨hpc, -⟩, hready, -⟩ := he
  exact hgone.1 (readSet_subset (ht.reachable h₀) hpc hready)

theorem fits_of_read {s₀ s : EventLoop} {as : List RelayAct} (h : relay.Exec s₀ as s) {fd : Nat}
    {r : ReadResult} {loggerFd : Option Nat} (hmem : .read fd r loggerFd ∈ as) : r.Fits := by
  obtain ⟨bs, cs, rfl⟩ := List.append_of_mem hmem
  obtain ⟨t, -, he, -⟩ := h.enabled_of_cons
  exact he.2.2.2.1

/-- Without such a client the two handlers take the same steps. -/
theorem server_exec {s₀ s : EventLoop} {as : List RelayAct} (h : relay.Exec s₀ as s)
    (hall : ∀ fd r loggerFd, .read fd r loggerFd ∈ as → r.finished = false) :
    (relayLoop handleClientData).Exec s₀ as s := by
  induction h with
  | nil => exact .nil
  | @snoc as t a hrun he ih =>
    have hnext : relay.next t a = (relayLoop handleClientData).next t a := by
      cases a with
      | read fd r loggerFd =>
        have heq := (handleClient_eq_iff he.2.2.2.1 loggerFd).mpr (hall fd r loggerFd (by simp))
        show relayNext handleClient t (.read fd r loggerFd) =
          relayNext handleClientData t (.read fd r loggerFd)
        simp only [relayNext, heq]
      | _ => rfl
    rw [hnext]
    exact (ih fun fd r loggerFd hmem => hall fd r loggerFd (List.mem_append_left _ hmem)).snoc he

theorem writes_chunk {r : ReadResult} {loggerFd : Option Nat} {writes : List (Out × Nat)}
    (hr : r.Fits) (hfin : r.finished = false) (h : handleClient r loggerFd = .written writes) :
    ∀ w ∈ writes, (w.2 : Int) = r.nbytes ∧ w.2 ≤ bufsiz := by
  rw [(handleClient_eq_iff hr loggerFd).mpr hfin] at h
  cases r with
  | eof | error => cases hfin
  | chunk buf =>
    obtain ⟨hne, hle⟩ := hr
    rw [handleClientData_chunk hne] at h
    obtain rfl := Handled.written.inj h
    intro w hw
    have hlen : w.2 = buf.length := by
      rcases List.mem_cons.mp hw with rfl | hw
      · rfl
      · split at hw
        · rw [List.mem_singleton.mp hw]
        · cases hw
    rw [hlen]
    exact ⟨rfl, hle⟩

/-- The relay drops the clients that have gone, writes what it has read, and does what
`RelayServer` does, exactly if no `read` has returned `0` or `-1`. -/
theorem drops_finished_iff {s₀ s : EventLoop} {as : List RelayAct} (h₀ : s₀.Init)
    (h : relay.Exec s₀ as s) :
    DropsFinished s₀ as ∧ WritesWhatWasRead as ∧ AgreesWithServer s₀ s as ↔
      ∀ fd r loggerFd, .read fd r loggerFd ∈ as → r.finished = false := by
  constructor
  · rintro ⟨hdrops, -⟩
    exact not_finished_of_drops h₀ h hdrops
  · intro hall
    refine ⟨?_, ?_, relayServer_exec (server_exec h hall), ?_⟩
    · rintro bs fd r loggerFd cs rfl hfin
      rw [hall fd r loggerFd (by simp)] at hfin
      cases hfin
    · intro fd r loggerFd hmem writes hwrites
      exact writes_chunk (fits_of_read h hmem) (hall fd r loggerFd hmem) hwrites
    · intro fd r loggerFd hmem
      exact (handleClient_eq_iff (fits_of_read h hmem) loggerFd).mpr (hall fd r loggerFd hmem)

/-- The rounds below the listener on descriptor `5`. -/
def relaySkips : List RelayAct := [.skip 0, .skip 1, .skip 2, .skip 3, .skip 4]

/-- A client connects and sends a byte. -/
def connected : List RelayAct :=
  .select (.ready {5}) :: relaySkips ++ [.accept 5 (some 6), .skip 6, .scanned 7] ++
  .select (.ready {6}) :: relaySkips ++ [.skip 5, .read 6 (.chunk [65]) (some 7), .scanned 7]

theorem connected_runs : (relay.run .start connected).isSome := by
  decide

theorem drops_finished_connected :
    DropsFinished .start connected ∧ WritesWhatWasRead connected ∧
      AgreesWithServer .start ((relay.run .start connected).get connected_runs) connected := by
  refine (drops_finished_iff EventLoop.start_init (Machine.exec_run_get connected_runs)).mpr ?_
  intro fd r loggerFd hmem
  obtain ⟨-, rfl, -⟩ : fd = 6 ∧ r = .chunk [65] ∧ loggerFd = some 7 := by
    simpa [connected, relaySkips] using hmem
  rfl

/-- The rounds in which the client on `6` is reported ready, up to its `read`. -/
def again (r : ReadResult) : List RelayAct :=
  .select (.ready {6}) :: relaySkips ++ [.skip 5, .read 6 r (some 7)]

/-- It goes. The loop relays the end of file and reads it again, and this time `read`
fails. -/
def goneClient : List RelayAct := connected ++ again .eof ++ .scanned 7 :: again .error

theorem eof_runs : (relay.run .start (connected ++ again .eof)).isSome := by
  decide

theorem goneClient_runs : (relay.run .start goneClient).isSome := by
  decide

theorem goneClient_kept :
    (∃ s, relay.Exec .start goneClient s) ∧ ¬ DropsFinished .start goneClient ∧
      ¬ WritesWhatWasRead goneClient := by
  refine ⟨⟨_, Machine.exec_run_get goneClient_runs⟩, ?_, ?_⟩
  · intro h
    have hgone := (h (connected ++ .select (.ready {6}) :: relaySkips ++ [.skip 5]) 6 .eof (some 7)
      (.scanned 7 :: again .error) (by decide) rfl).1 _ (Machine.exec_run_get eof_runs)
    exact hgone.1 (by decide)
  · intro h
    have hlong := h 6 .error (some 7) (by decide) _ rfl (.pipe, 2 ^ 64 - 1) (by decide)
    exact absurd hlong.2 (by decide)

end SisProg.PipeFifo
