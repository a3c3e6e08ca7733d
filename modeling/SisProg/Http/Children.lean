import SisProg.Http.FileResponse
import SisProg.Lib.Termination
import Mathlib.Logic.Function.Basic

/-!
# The children of the server

`serve` forks a child for each connection. The child has a copy of the descriptor table:
it closes the listening socket, answers, and exits. The parent closes the connection and
accepts the next one. A child that exits is a zombie until the handler of SIGCHLD,
`reapZombie`, has waited for it. Signals do not queue: what is pending is one SIGCHLD,
however many children have exited.

* `children_isolated`: whatever the interleaving, a child has no connection but its own,
  a connection is answered once at most, and neither parent nor child has it open once its
  child is gone.
* `zombies_reaped`: no zombie is left behind by a signal that has been merged with another.
-/

namespace SisProg.Http

/-- What a descriptor refers to. The connections are numbered as they are accepted. -/
inductive OpenFile
  | listener
  | conn (n : Nat)
deriving DecidableEq

abbrev FdTable := Nat → Option OpenFile

/-- Where the parent is in an iteration: in `accept`, before `fork`, or at the end of it,
where `clientSocket` is destroyed. -/
inductive ParentPc
  | accepting
  | forking (clientFd n : Nat)
  | leaving (clientFd n : Nat)
deriving DecidableEq

/-- Where a child is: before `close(serverSocket.get())`, before `sendResponse`, after it,
or gone. -/
inductive ChildPc
  | forked
  | serving
  | answered
  | zombie
  | reaped
deriving DecidableEq

/-- A child, with its `clientSocket`; `conn` is the connection it was forked for. -/
structure ChildProc where
  clientFd : Nat
  conn : Nat
  table : FdTable
  pc : ChildPc

def ChildProc.Live (c : ChildProc) : Prop := c.pc = .forked ∨ c.pc = .serving ∨ c.pc = .answered

/-- The processes. `pending` is the pending SIGCHLD of the parent, `reaping` says that it is
in `reapZombie`, and `sent` has the responses, with the connections on which they were
sent. -/
structure Family where
  parent : ParentPc
  table : FdTable
  accepted : Nat
  children : List ChildProc
  pending : Bool
  reaping : Bool
  sent : List (Nat × HTTPResponse)

inductive ServeOp
  | accept (clientFd : Nat)
  | acceptFails
  | fork
  | forkFails
  | destroyClient
  | closeListener (i : Nat)
  | respond (i : Nat)
  /-- `_exit`, or a signal that kills the child. -/
  | exit (i : Nat)
  | deliver
  | reap (i : Nat)
  | handlerReturns
deriving DecidableEq

/-- Only the listening socket is open. -/
def listening (raw_fd : Nat) : FdTable := Function.update (fun _ => none) raw_fd (some .listener)

/-- The parent is in its own code, and not in the handler. -/
def Family.At (s : Family) (pc : ParentPc) : Prop := s.parent = pc ∧ s.reaping = false

/-- The child `i` is at `pc`. -/
def Family.ChildAt (s : Family) (i : Nat) (pc : ChildPc) : Prop :=
  ∃ c, s.children[i]? = some c ∧ c.pc = pc

def Family.enabled (s : Family) : ServeOp → Prop
  | .accept clientFd => s.At .accepting ∧ s.table clientFd = none
  | .acceptFails => s.At .accepting
  | .fork | .forkFails => ∃ clientFd n, s.At (.forking clientFd n)
  | .destroyClient => ∃ clientFd n, s.At (.leaving clientFd n)
  | .closeListener i => s.ChildAt i .forked
  | .respond i => s.ChildAt i .serving
  | .exit i => ∃ c, s.children[i]? = some c ∧ c.Live
  | .deliver => s.pending = true ∧ s.reaping = false
  | .reap i => s.reaping = true ∧ s.ChildAt i .zombie
  | .handlerReturns => s.reaping = true ∧ ∀ i, ¬ s.ChildAt i .zombie

section

/- The reads on each connection, and how the kernel answers the calls that its child makes. -/
variable (raw_fd : Nat) (reads : Nat → List Read) (k : Nat → Kernel)

/-- What a child sends on its `clientSocket`. -/
def ChildProc.response (c : ChildProc) : List (Nat × HTTPResponse) :=
  match c.table c.clientFd with
  | some (.conn n) => [(n, handleConnection (k n) (reads n))]
  | _ => []

def Family.next (s : Family) : ServeOp → Family
  | .accept clientFd =>
    { s with
      parent := .forking clientFd s.accepted
      table := Function.update s.table clientFd (some (.conn s.accepted))
      accepted := s.accepted + 1 }
  | .acceptFails => s
  | .fork =>
    match s.parent with
    | .forking clientFd n =>
      { s with
        parent := .leaving clientFd n
        children := s.children ++ [⟨clientFd, n, s.table, .forked⟩] }
    | _ => s
  | .forkFails =>
    match s.parent with
    | .forking clientFd n => { s with parent := .leaving clientFd n }
    | _ => s
  | .destroyClient =>
    match s.parent with
    | .leaving clientFd _ =>
      { s with parent := .accepting, table := Function.update s.table clientFd none }
    | _ => s
  | .closeListener i =>
    { s with
      children := s.children.modify i fun c =>
        { c with table := Function.update c.table raw_fd none, pc := .serving } }
  | .respond i =>
    { s with
      children := s.children.modify i fun c => { c with pc := .answered }
      sent := s.sent ++ s.children[i]?.toList.flatMap (ChildProc.response reads k) }
  | .exit i =>
    { s with
      children := s.children.modify i fun c => { c with table := fun _ => none, pc := .zombie }
      pending := true }
  | .deliver => { s with pending := false, reaping := true }
  | .reap i => { s with children := s.children.modify i fun c => { c with pc := .reaped } }
  | .handlerReturns => { s with reaping := false }

/-- The server after `listen`. -/
def family : Machine Family ServeOp where
  init s := s = ⟨.accepting, listening raw_fd, 0, [], false, false, []⟩
  enabled := Family.enabled
  next := Family.next raw_fd reads k

/-! ## What a step does -/

/-- What a child does, and the parent's `waitpid` does to it. -/
inductive ChildProc.Step (c : ChildProc) : ChildProc → Prop
  | closeListener (h : c.pc = .forked) :
      Step c { c with table := Function.update c.table raw_fd none, pc := .serving }
  | respond (h : c.pc = .serving) : Step c { c with pc := .answered }
  | exit (h : c.Live) : Step c { c with table := fun _ => none, pc := .zombie }
  | reap (h : c.pc = .zombie) : Step c { c with pc := .reaped }

/-- What a step does to the children. -/
inductive Family.Effect (s t : Family) : Prop
  | same (h : t.children = s.children)
  | forked {clientFd n : Nat} (hp : s.parent = .forking clientFd n)
      (h : t.children = s.children ++ [⟨clientFd, n, s.table, .forked⟩])
  | stepped {i : Nat} {c c' : ChildProc} (hc : s.children[i]? = some c) (hstep : c.Step raw_fd c')
      (h : ∀ j, t.children[j]? = if i = j then some c' else s.children[j]?)

variable {raw_fd reads k}

theorem getElem?_modify_of {l : List ChildProc} {i : Nat} {c : ChildProc}
    (h : l[i]? = some c) (f : ChildProc → ChildProc) (j : Nat) :
    (l.modify i f)[j]? = if i = j then some (f c) else l[j]? := by
  rw [List.getElem?_modify]
  split
  next hij =>
    subst hij
    rw [h]
    rfl
  next => exact Option.map_id_apply ..

theorem effect_family {s : Family} {op : ServeOp} (he : s.enabled op) :
    Family.Effect raw_fd s (s.next raw_fd reads k op) := by
  cases op with
  | accept | acceptFails | deliver | handlerReturns => exact .same rfl
  | fork =>
    obtain ⟨clientFd, n, hp, -⟩ := he
    refine .forked hp ?_
    simp only [Family.next, hp]
  | forkFails =>
    obtain ⟨clientFd, n, hp, -⟩ := he
    refine .same ?_
    simp only [Family.next, hp]
  | destroyClient =>
    obtain ⟨clientFd, n, hp, -⟩ := he
    refine .same ?_
    simp only [Family.next, hp]
  | closeListener i =>
    obtain ⟨c, hc, hpc⟩ := he
    exact .stepped hc (.closeListener hpc) (getElem?_modify_of hc _)
  | respond i =>
    obtain ⟨c, hc, hpc⟩ := he
    exact .stepped hc (.respond hpc) (getElem?_modify_of hc _)
  | exit i =>
    obtain ⟨c, hc, hlive⟩ := he
    exact .stepped hc (.exit hlive) (getElem?_modify_of hc _)
  | reap i =>
    obtain ⟨-, c, hc, hpc⟩ := he
    exact .stepped hc (.reap hpc) (getElem?_modify_of hc _)

/-- A property that a child has when it is forked and that its steps keep. -/
theorem Family.Effect.children {P : ChildProc → Prop} {s t : Family}
    (heffect : Family.Effect raw_fd s t) (hs : ∀ (i : Nat) c, s.children[i]? = some c → P c)
    (hfork : ∀ clientFd n, s.parent = .forking clientFd n → P ⟨clientFd, n, s.table, .forked⟩)
    (hstep : ∀ c c', P c → c.Step raw_fd c' → P c') :
    ∀ (i : Nat) c, t.children[i]? = some c → P c := by
  intro i c hi
  cases heffect with
  | same h =>
    rw [h] at hi
    exact hs i c hi
  | @forked clientFd n hp h =>
    rw [h] at hi
    rcases List.mem_append.mp (List.mem_of_getElem? hi) with hmem | hmem
    · obtain ⟨j, hj⟩ := List.mem_iff_getElem?.mp hmem
      exact hs j c hj
    · rw [List.mem_singleton.mp hmem]
      exact hfork clientFd n hp
  | @stepped j c₀ c' hc hchild h =>
    rw [h] at hi
    split at hi
    next =>
      rw [← Option.some.inj hi]
      exact hstep c₀ c' (hs j c₀ hc) hchild
    next => exact hs i c hi

/-! ## Who has what open -/

/-- A table with the connection `n` beside what is in `t`. -/
def FdTable.with (t : FdTable) (clientFd n : Nat) : FdTable :=
  Function.update t clientFd (some (.conn n))

/-- What the parent has open. -/
def ParentPc.table (raw_fd : Nat) : ParentPc → FdTable
  | .accepting => listening raw_fd
  | .forking clientFd n | .leaving clientFd n => (listening raw_fd).with clientFd n

/-- The connection that the parent has open. -/
def ParentPc.client : ParentPc → Option (Nat × Nat)
  | .accepting => none
  | .forking clientFd n | .leaving clientFd n => some (clientFd, n)

structure ParentSound (raw_fd : Nat) (s : Family) : Prop where
  table : s.table = s.parent.table raw_fd
  client : ∀ clientFd n, s.parent.client = some (clientFd, n) →
    clientFd ≠ raw_fd ∧ n < s.accepted

/-- What a child has open. -/
def ChildProc.tableAt (raw_fd : Nat) (c : ChildProc) : FdTable :=
  match c.pc with
  | .forked => (listening raw_fd).with c.clientFd c.conn
  | .serving | .answered => FdTable.with (fun _ => none) c.clientFd c.conn
  | .zombie | .reaped => fun _ => none

structure ChildSound (raw_fd : Nat) (c : ChildProc) : Prop where
  client_ne : c.clientFd ≠ raw_fd
  table : c.table = c.tableAt raw_fd

theorem listening_self (raw_fd : Nat) : listening raw_fd raw_fd = some .listener :=
  Function.update_self raw_fd _ _

theorem listening_client {clientFd : Nat} (h : clientFd ≠ raw_fd) :
    listening raw_fd clientFd = none :=
  Function.update_of_ne h _ _

/-- The table is as it was before the connection was accepted. -/
theorem update_with_self {t : FdTable} {clientFd : Nat} (h : t clientFd = none) (n : Nat) :
    Function.update (t.with clientFd n) clientFd none = t := by
  rw [FdTable.with, Function.update_idem, ← h, Function.update_eq_self]

/-- The child keeps the connection when it closes the listening socket. -/
theorem update_with_listener {clientFd : Nat} (h : clientFd ≠ raw_fd) (n : Nat) :
    Function.update ((listening raw_fd).with clientFd n) raw_fd none =
      FdTable.with (fun _ => none) clientFd n := by
  rw [FdTable.with, Function.update_comm h, listening, Function.update_idem]
  congr 1
  exact Function.update_eq_self raw_fd fun _ => none

theorem parentSound {s : Family} (h : (family raw_fd reads k).Reachable s) :
    ParentSound raw_fd s := by
  refine h.induct ?_ ?_
  · intro s hs
    subst hs
    exact ⟨rfl, fun clientFd n hclient => nomatch hclient⟩
  · intro s op _ hs he
    cases op with
    | accept clientFd =>
      obtain ⟨⟨hp, -⟩, hfree⟩ := he
      have htable := hs.table
      rw [hp] at htable
      refine ⟨?_, ?_⟩
      · show Function.update s.table clientFd _ = _
        rw [htable]
        rfl
      · intro fd n hclient
        cases hclient
        refine ⟨?_, Nat.lt_succ_self _⟩
        intro heq
        rw [htable, heq] at hfree
        simp [ParentPc.table, listening] at hfree
    | fork | forkFails =>
      obtain ⟨clientFd, n, hp, -⟩ := he
      have htable := hs.table
      have hclient := hs.client
      rw [hp] at htable hclient
      simp only [family, Family.next, hp]
      exact ⟨htable, hclient⟩
    | destroyClient =>
      obtain ⟨clientFd, n, hp, -⟩ := he
      have htable := hs.table
      have hne := (hs.client clientFd n (by rw [hp]; rfl)).1
      rw [hp] at htable
      simp only [family, Family.next, hp]
      refine ⟨?_, fun fd n' hclient => nomatch hclient⟩
      show Function.update s.table clientFd none = listening raw_fd
      rw [htable]
      exact update_with_self (listening_client hne) n
    | acceptFails | closeListener | respond | exit | deliver | reap | handlerReturns =>
      exact ⟨hs.table, hs.client⟩

theorem ChildSound.step {c c' : ChildProc} (h : ChildSound raw_fd c) (hstep : c.Step raw_fd c') :
    ChildSound raw_fd c' := by
  have htable := h.table
  unfold ChildProc.tableAt at htable
  cases hstep with
  | closeListener hpc =>
    rw [hpc] at htable
    refine ⟨h.client_ne, ?_⟩
    show Function.update c.table raw_fd none = _
    rw [htable]
    exact update_with_listener h.client_ne c.conn
  | respond hpc =>
    rw [hpc] at htable
    exact ⟨h.client_ne, htable⟩
  | exit => exact ⟨h.client_ne, rfl⟩
  | reap hpc =>
    rw [hpc] at htable
    exact ⟨h.client_ne, htable⟩

theorem childSound {s : Family} (h : (family raw_fd reads k).Reachable s) :
    ∀ (i : Nat) c, s.children[i]? = some c → ChildSound raw_fd c := by
  refine h.induct (P := fun s => ∀ (i : Nat) c, s.children[i]? = some c → ChildSound raw_fd c)
    ?_ ?_
  · intro s hs i c hi
    subst hs
    cases hi
  · intro s op hreach hs he
    refine (effect_family he).children hs ?_ fun c c' hc hstep => hc.step hstep
    intro clientFd n hp
    have hparent := parentSound hreach
    have htable := hparent.table
    rw [hp] at htable
    exact ⟨(hparent.client clientFd n (by rw [hp]; rfl)).1, htable⟩

/-! ## One child for a connection -/

/-- The connections of the children are distinct, and were accepted; that of the parent has
no child before `fork`. -/
structure Distinct (s : Family) : Prop where
  unique : ∀ (i j : Nat) c c', s.children[i]? = some c → s.children[j]? = some c' →
    c.conn = c'.conn → i = j
  lt : ∀ (i : Nat) c, s.children[i]? = some c → c.conn < s.accepted
  fresh : ∀ clientFd n, s.parent = .forking clientFd n →
    ∀ (i : Nat) c, s.children[i]? = some c → c.conn ≠ n

theorem ChildProc.Step.conn_eq {c c' : ChildProc} (h : c.Step raw_fd c') : c'.conn = c.conn := by
  cases h <;> rfl

theorem getElem?_snoc {l : List ChildProc} {a c : ChildProc} {i : Nat}
    (h : (l ++ [a])[i]? = some c) : l[i]? = some c ∨ i = l.length ∧ c = a := by
  rw [List.getElem?_append] at h
  split at h
  next => exact .inl h
  next hle =>
    rw [List.getElem?_singleton] at h
    split at h
    next hzero => exact .inr ⟨by omega, (Option.some.inj h).symm⟩
    next => cases h

/-- The steps of the children do not change whose connection is whose. -/
theorem Distinct.of_conn {s t : Family} (hs : Distinct s) (hparent : t.parent = s.parent)
    (haccepted : t.accepted = s.accepted)
    (h : ∀ (j : Nat) c', t.children[j]? = some c' →
      ∃ c, s.children[j]? = some c ∧ c'.conn = c.conn) : Distinct t where
  unique i j c c' hi hj heq := by
    obtain ⟨c₀, hi₀, hc⟩ := h i c hi
    obtain ⟨c₁, hj₁, hc'⟩ := h j c' hj
    exact hs.unique i j c₀ c₁ hi₀ hj₁ (by rw [← hc, ← hc', heq])
  lt i c hi := by
    obtain ⟨c₀, hi₀, hc⟩ := h i c hi
    rw [hc, haccepted]
    exact hs.lt i c₀ hi₀
  fresh clientFd n hp i c hi := by
    obtain ⟨c₀, hi₀, hc⟩ := h i c hi
    rw [hc]
    exact hs.fresh clientFd n (hparent ▸ hp) i c₀ hi₀

theorem conn_of_modify {l : List ChildProc} {i : Nat} {f : ChildProc → ChildProc}
    (hf : ∀ c, (f c).conn = c.conn) (j : Nat) (c' : ChildProc) (h : (l.modify i f)[j]? = some c') :
    ∃ c, l[j]? = some c ∧ c'.conn = c.conn := by
  rw [List.getElem?_modify] at h
  obtain ⟨c, hc, hc'⟩ := Option.map_eq_some_iff.mp h
  refine ⟨c, hc, ?_⟩
  rw [← hc']
  split
  next => exact hf c
  next => rfl

theorem distinct {s : Family} (h : (family raw_fd reads k).Reachable s) : Distinct s := by
  refine h.induct ?_ ?_
  · intro s hs
    subst hs
    exact ⟨by simp, by simp, by simp⟩
  · intro s op hreach hs he
    cases op with
    | accept clientFd =>
      refine ⟨hs.unique, fun i c hi => Nat.lt_succ_of_lt (hs.lt i c hi), ?_⟩
      intro fd n hp i c hi
      cases hp
      exact Nat.ne_of_lt (hs.lt i c hi)
    | fork =>
      obtain ⟨clientFd, n, hp, -⟩ := he
      have hlt := ((parentSound hreach).client clientFd n (by rw [hp]; rfl)).2
      have hfresh := hs.fresh clientFd n hp
      simp only [family, Family.next, hp]
      refine ⟨?_, ?_, fun fd n' hp' => nomatch hp'⟩
      · intro i j c c' hi hj heq
        rcases getElem?_snoc hi with hi | ⟨hlast, rfl⟩
        · rcases getElem?_snoc hj with hj | ⟨-, rfl⟩
          · exact hs.unique i j c c' hi hj heq
          · exact absurd heq (hfresh i c hi)
        · rcases getElem?_snoc hj with hj | ⟨hj, -⟩
          · exact absurd heq.symm (hfresh j c' hj)
          · rw [hlast, hj]
      · intro i c hi
        rcases getElem?_snoc hi with hi | ⟨-, rfl⟩
        · exact hs.lt i c hi
        · exact hlt
    | forkFails =>
      obtain ⟨clientFd, n, hp, -⟩ := he
      simp only [family, Family.next, hp]
      exact ⟨hs.unique, hs.lt, fun fd n' hp' => nomatch hp'⟩
    | destroyClient =>
      obtain ⟨clientFd, n, hp, -⟩ := he
      simp only [family, Family.next, hp]
      exact ⟨hs.unique, hs.lt, fun fd n' hp' => nomatch hp'⟩
    | closeListener | respond | exit | reap =>
      exact hs.of_conn rfl rfl (conn_of_modify fun _ => rfl)
    | acceptFails | deliver | handlerReturns => exact ⟨hs.unique, hs.lt, hs.fresh⟩

/-! ## The responses -/

/-- Each response is that of its connection, is the only one, and was sent by a child that
has nothing more to send. -/
structure Responded (reads : Nat → List Read) (k : Nat → Kernel) (s : Family) : Prop where
  response : ∀ n resp, (n, resp) ∈ s.sent → resp = handleConnection (k n) (reads n)
  once : (s.sent.map Prod.fst).Nodup
  done : ∀ n, n ∈ s.sent.map Prod.fst → ∃ (i : Nat) (c : ChildProc),
    s.children[i]? = some c ∧ c.conn = n ∧ c.pc ≠ .forked ∧ c.pc ≠ .serving

theorem ChildProc.Step.done {c c' : ChildProc} (h : c.Step raw_fd c')
    (hdone : c.pc ≠ .forked ∧ c.pc ≠ .serving) : c'.pc ≠ .forked ∧ c'.pc ≠ .serving := by
  cases h with
  | closeListener hpc => exact absurd hpc hdone.1
  | respond | exit | reap => exact ⟨by simp, by simp⟩

/-- A child that has sent its response is still there. -/
theorem Family.Effect.done {s t : Family} (h : Family.Effect raw_fd s t) {n i : Nat}
    {c : ChildProc} (hi : s.children[i]? = some c) (hn : c.conn = n)
    (hdone : c.pc ≠ .forked ∧ c.pc ≠ .serving) : ∃ (j : Nat) (c' : ChildProc),
      t.children[j]? = some c' ∧ c'.conn = n ∧ c'.pc ≠ .forked ∧ c'.pc ≠ .serving := by
  cases h with
  | same h => exact ⟨i, c, h ▸ hi, hn, hdone⟩
  | forked hp h =>
    refine ⟨i, c, ?_, hn, hdone⟩
    rw [h, List.getElem?_append_left (List.getElem?_eq_some_iff.mp hi).1]
    exact hi
  | @stepped j c₀ c' hc hstep h =>
    rcases eq_or_ne j i with rfl | hne
    · obtain rfl := Option.some.inj (hi.symm.trans hc)
      exact ⟨j, c', by rw [h, if_pos rfl], hstep.conn_eq.trans hn, hstep.done hdone⟩
    · exact ⟨i, c, by rw [h, if_neg hne, hi], hn, hdone⟩

theorem response_of_serving {c : ChildProc} (h : ChildSound raw_fd c) (hpc : c.pc = .serving) :
    c.response reads k = [(c.conn, handleConnection (k c.conn) (reads c.conn))] := by
  have htable := h.table
  rw [ChildProc.tableAt, hpc] at htable
  unfold ChildProc.response
  rw [htable]
  simp [FdTable.with]

theorem responded {s : Family} (h : (family raw_fd reads k).Reachable s) :
    Responded reads k s := by
  refine h.induct ?_ ?_
  · intro s hs
    subst hs
    exact ⟨by simp, List.nodup_nil, by simp⟩
  · intro s op hreach hs he
    have heffect := @effect_family raw_fd reads k s op he
    have hdone : ∀ n, n ∈ s.sent.map Prod.fst → ∃ (j : Nat) (c' : ChildProc),
        (s.next raw_fd reads k op).children[j]? = some c' ∧ c'.conn = n ∧
          c'.pc ≠ .forked ∧ c'.pc ≠ .serving := by
      intro n hn
      obtain ⟨i, c, hi, hconn, hpc⟩ := hs.done n hn
      exact heffect.done hi hconn hpc
    cases op with
    | respond i =>
      obtain ⟨c, hc, hpc⟩ := he
      have hsent : ((family raw_fd reads k).next s (.respond i)).sent =
          s.sent ++ [(c.conn, handleConnection (k c.conn) (reads c.conn))] := by
        simp only [family, Family.next, hc]
        simp [response_of_serving (childSound hreach i c hc) hpc]
      -- the child that has sent a response is another one
      have hnot : c.conn ∉ s.sent.map Prod.fst := by
        intro hmem
        obtain ⟨j, c', hj, hconn, -, hserving⟩ := hs.done c.conn hmem
        obtain rfl := (distinct hreach).unique i j c c' hc hj hconn.symm
        rw [hc, Option.some.injEq] at hj
        exact hserving (hj ▸ hpc)
      refine ⟨?_, ?_, ?_⟩
      · intro n resp hmem
        rw [hsent, List.mem_append, List.mem_singleton] at hmem
        rcases hmem with hmem | heq
        · exact hs.response n resp hmem
        · cases heq
          rfl
      · rw [hsent, List.map_append, List.nodup_append]
        refine ⟨hs.once, by simp, ?_⟩
        intro n hn n' hn' heq
        rw [List.map_singleton, List.mem_singleton] at hn'
        rw [heq, hn'] at hn
        exact hnot hn
      · intro n hn
        rw [hsent, List.map_append, List.mem_append, List.map_singleton, List.mem_singleton] at hn
        rcases hn with hn | rfl
        · exact hdone n hn
        · refine ⟨i, { c with pc := .answered }, ?_, rfl, by simp, by simp⟩
          exact (getElem?_modify_of hc _ i).trans (if_pos rfl)
    | fork | forkFails =>
      obtain ⟨clientFd, n, hp, -⟩ := he
      simp only [Family.next, hp] at hdone
      simp only [family, Family.next, hp]
      exact ⟨hs.response, hs.once, hdone⟩
    | destroyClient =>
      obtain ⟨clientFd, n, hp, -⟩ := he
      simp only [family, Family.next, hp]
      exact ⟨hs.response, hs.once, hs.done⟩
    | accept | acceptFails | closeListener | exit | deliver | reap | handlerReturns =>
      exact ⟨hs.response, hs.once, hdone⟩

/-- The parent or one of its children has the connection open. The programs that the children
run are left out: they inherit the connection too, and outlive a child that is killed. -/
def Family.HasOpen (s : Family) (n : Nat) : Prop :=
  (∃ fd, s.table fd = some (.conn n)) ∨
    ∃ (i : Nat) (c : ChildProc), s.children[i]? = some c ∧ ∃ fd, c.table fd = some (.conn n)

theorem with_eq_conn_iff {t : FdTable} {clientFd m n : Nat} (ht : ∀ fd, t fd ≠ some (.conn n)) :
    (∃ fd, t.with clientFd m fd = some (.conn n)) ↔ m = n := by
  constructor
  · intro h
    obtain ⟨fd, hfd⟩ := h
    rcases eq_or_ne fd clientFd with rfl | hne
    · rw [FdTable.with, Function.update_self] at hfd
      cases hfd
      rfl
    · rw [FdTable.with, Function.update_of_ne hne] at hfd
      exact absurd hfd (ht fd)
  · intro h
    exact ⟨clientFd, by rw [FdTable.with, Function.update_self, h]⟩

theorem listening_ne_conn (fd n : Nat) : listening raw_fd fd ≠ some (.conn n) := by
  unfold listening
  rcases eq_or_ne fd raw_fd with rfl | hne
  · rw [Function.update_self]
    simp
  · rw [Function.update_of_ne hne]
    simp

theorem ParentSound.open_iff {s : Family} (h : ParentSound raw_fd s) (n : Nat) :
    (∃ fd, s.table fd = some (.conn n)) ↔ ∃ clientFd, s.parent.client = some (clientFd, n) := by
  rw [h.table]
  cases s.parent with
  | accepting => simp [ParentPc.table, ParentPc.client, listening_ne_conn]
  | forking clientFd m | leaving clientFd m =>
    simp only [ParentPc.table, with_eq_conn_iff fun fd => listening_ne_conn fd n, ParentPc.client,
      Option.some.injEq, Prod.mk.injEq]
    exact ⟨fun hm => ⟨clientFd, rfl, hm⟩, fun ⟨_, _, hm⟩ => hm⟩

theorem ChildSound.open_iff {c : ChildProc} (h : ChildSound raw_fd c) (n : Nat) :
    (∃ fd, c.table fd = some (.conn n)) ↔ c.conn = n ∧ c.Live := by
  have hnone : ∀ fd : Nat, (none : Option OpenFile) ≠ some (.conn n) := by simp
  rw [h.table]
  unfold ChildProc.tableAt ChildProc.Live
  cases c.pc with
  | forked => simp [with_eq_conn_iff fun fd => listening_ne_conn fd n]
  | serving | answered => simp [with_eq_conn_iff hnone]
  | zombie | reaped => simp

/-- Who has what open, and what has been sent. -/
structure Isolated (raw_fd : Nat) (reads : Nat → List Read) (k : Nat → Kernel) (s : Family) :
    Prop where
  listener : s.table raw_fd = some .listener
  accepting : s.parent = .accepting → ∀ fd, fd ≠ raw_fd → s.table fd = none
  own : ∀ (i : Nat) c, s.children[i]? = some c → ∀ fd f, c.table fd = some f →
    f = .conn c.conn ∨ c.pc = .forked ∧ f = .listener
  unique : ∀ (i j : Nat) c c', s.children[i]? = some c → s.children[j]? = some c' →
    c.conn = c'.conn → i = j
  hasOpen : ∀ n, s.HasOpen n ↔ (∃ clientFd, s.parent.client = some (clientFd, n)) ∨
    ∃ (i : Nat) (c : ChildProc), s.children[i]? = some c ∧ c.conn = n ∧ c.Live
  once : (s.sent.map Prod.fst).Nodup
  response : ∀ n resp, (n, resp) ∈ s.sent → resp = handleConnection (k n) (reads n)

theorem ChildSound.own {c : ChildProc} (h : ChildSound raw_fd c) {fd : Nat} {f : OpenFile}
    (hf : c.table fd = some f) : f = .conn c.conn ∨ c.pc = .forked ∧ f = .listener := by
  cases f with
  | conn n =>
    have hn := ((h.open_iff n).mp ⟨fd, hf⟩).1
    exact .inl (congrArg OpenFile.conn hn.symm)
  | listener =>
    rw [h.table] at hf
    unfold ChildProc.tableAt at hf
    cases hpc : c.pc with
    | forked => exact .inr ⟨rfl, rfl⟩
    | serving | answered =>
      rw [hpc] at hf
      rcases eq_or_ne fd c.clientFd with heq | hne
      · simp [heq, FdTable.with] at hf
      · simp [FdTable.with, Function.update_of_ne hne] at hf
    | zombie | reaped =>
      rw [hpc] at hf
      cases hf

/-- Whatever the interleaving of the parent, the children and the signals: while it accepts,
the parent has only the listening socket open; a child has only its connection, once it has
closed the listening socket; no two have the same one; a connection is open in the parent or
a child exactly while the parent hands it over or its child lives; and it is answered once at
most, with the response to what was read from it. -/
theorem children_isolated {s : Family} (h : (family raw_fd reads k).Reachable s) :
    Isolated raw_fd reads k s := by
  have hparent := parentSound h
  have hchild := childSound h
  refine ⟨?_, ?_, fun i c hi fd f hf => (hchild i c hi).own hf, (distinct h).unique, ?_,
    (responded h).once, (responded h).response⟩
  · have hclient := hparent.client
    rw [hparent.table]
    cases hp : s.parent with
    | accepting => exact listening_self raw_fd
    | forking clientFd n | leaving clientFd n =>
      have hne := (hclient clientFd n (by rw [hp]; rfl)).1
      show Function.update (listening raw_fd) clientFd _ raw_fd = _
      rw [Function.update_of_ne hne.symm]
      exact listening_self raw_fd
  · intro hp fd hne
    rw [hparent.table, hp]
    exact listening_client hne
  · intro n
    unfold Family.HasOpen
    rw [hparent.open_iff]
    refine or_congr_right ?_
    constructor
    · intro hopen
      obtain ⟨i, c, hi, hc⟩ := hopen
      exact ⟨i, c, hi, ((hchild i c hi).open_iff n).mp hc⟩
    · intro hlive
      obtain ⟨i, c, hi, hc⟩ := hlive
      exact ⟨i, c, hi, ((hchild i c hi).open_iff n).mpr hc⟩

/-! ## Zombies -/

/-- A zombie is known to the handler, or will be. -/
theorem zombie_announced {s : Family} (h : (family raw_fd reads k).Reachable s) {i : Nat}
    (hi : s.ChildAt i .zombie) : s.pending = true ∨ s.reaping = true := by
  revert i
  refine h.induct (P := fun s => ∀ {i : Nat}, s.ChildAt i .zombie →
    s.pending = true ∨ s.reaping = true) ?_ ?_
  · intro s hs i hi
    obtain ⟨c, hc, -⟩ := hi
    subst hs
    cases hc
  · intro s op _ hs he i hi
    -- the child was a zombie before, unless it has exited now
    have hbefore : ∀ {j : Nat} {f : ChildProc → ChildProc}, (∀ c, (f c).pc ≠ .zombie) →
        (s.children.modify j f)[i]?.map ChildProc.pc = some .zombie → s.ChildAt i .zombie := by
      intro j f hf hmap
      obtain ⟨c, hc, hpc⟩ := Option.map_eq_some_iff.mp hmap
      rw [List.getElem?_modify] at hc
      obtain ⟨c₀, hc₀, hc'⟩ := Option.map_eq_some_iff.mp hc
      split at hc'
      next => exact absurd (hc' ▸ hpc) (hf c₀)
      next => exact ⟨c₀, hc₀, hc' ▸ hpc⟩
    obtain ⟨c, hc, hpc⟩ := hi
    cases op with
    | accept | acceptFails => exact hs ⟨c, hc, hpc⟩
    | fork =>
      obtain ⟨clientFd, n, hp, -⟩ := he
      simp only [family, Family.next, hp] at hc ⊢
      rcases getElem?_snoc hc with hc | ⟨-, rfl⟩
      · exact hs ⟨c, hc, hpc⟩
      · cases hpc
    | forkFails =>
      obtain ⟨clientFd, n, hp, -⟩ := he
      simp only [family, Family.next, hp] at hc ⊢
      exact hs ⟨c, hc, hpc⟩
    | destroyClient =>
      obtain ⟨clientFd, n, hp, -⟩ := he
      simp only [family, Family.next, hp] at hc ⊢
      exact hs ⟨c, hc, hpc⟩
    | closeListener | respond =>
      exact hs (hbefore (by simp) (Option.map_eq_some_iff.mpr ⟨c, hc, hpc⟩))
    | exit => exact .inl rfl
    | deliver => exact .inr rfl
    | reap => exact .inr he.1
    | handlerReturns => exact absurd ⟨c, hc, hpc⟩ (he.2 i)

/-- A step of the delivery of SIGCHLD, or of `reapZombie`. -/
def ServeOp.Handler : ServeOp → Prop
  | .deliver | .reap _ | .handlerReturns => True
  | _ => False

/-- The parent runs its handler, and nothing else happens. -/
def handling (raw_fd : Nat) (reads : Nat → List Read) (k : Nat → Kernel) :
    Machine Family ServeOp :=
  (family raw_fd reads k).restrict fun _ op => op.Handler

def Family.zombies (s : Family) : Nat := s.children.countP fun c => c.pc = .zombie

/-- What is left to do for the handler. -/
def Family.toHandle (s : Family) : Nat :=
  2 * s.zombies + 2 * s.pending.toNat + s.reaping.toNat

/-- Nothing is left to do. -/
def Family.Handled (s : Family) : Prop :=
  s.pending = false ∧ s.reaping = false ∧ ∀ i, ¬ s.ChildAt i .zombie

theorem zombies_reap {l : List ChildProc} {i : Nat} {c : ChildProc} (hc : l[i]? = some c)
    (hpc : c.pc = .zombie) :
    (l.modify i fun c => { c with pc := .reaped }).countP (fun c => c.pc = .zombie) + 1 =
      l.countP fun c => c.pc = .zombie := by
  induction l generalizing i with
  | nil => cases hc
  | cons c' l ih =>
    cases i with
    | zero =>
      obtain rfl : c' = c := Option.some.inj hc
      rw [List.modify_zero_cons, List.countP_cons_of_neg (by simp),
        List.countP_cons_of_pos (by simpa using hpc)]
    | succ i =>
      rw [List.modify_succ_cons, List.countP_cons, List.countP_cons, ← ih hc]
      omega

theorem handling_decreases : (handling raw_fd reads k).Decreases
    (family raw_fd reads k).Reachable Family.toHandle := by
  intro s op hs he
  obtain ⟨he, hop⟩ := he
  refine ⟨hs.next he, ?_⟩
  cases op with
  | deliver =>
    obtain ⟨hpending, hreaping⟩ := he
    simp only [handling, Machine.restrict, family, Family.next, Family.toHandle, Family.zombies,
      hpending, hreaping, Bool.toNat_true, Bool.toNat_false]
    omega
  | reap i =>
    obtain ⟨-, c, hc, hpc⟩ := he
    have hcount := zombies_reap hc hpc
    simp only [handling, Machine.restrict, family, Family.next, Family.toHandle, Family.zombies]
    omega
  | handlerReturns =>
    simp only [handling, Machine.restrict, family, Family.next, Family.toHandle, Family.zombies,
      he.1, Bool.toNat_true, Bool.toNat_false]
    omega
  | accept | acceptFails | fork | forkFails | destroyClient | closeListener | respond | exit =>
    exact hop.elim

theorem handling_enabled {s : Family} (hs : (family raw_fd reads k).Reachable s)
    (h : ¬ s.Handled) : ∃ op, (handling raw_fd reads k).enabled s op := by
  cases hreaping : s.reaping with
  | true =>
    rcases Classical.em (∃ i, s.ChildAt i .zombie) with ⟨i, hi⟩ | hnone
    · exact ⟨.reap i, ⟨hreaping, hi⟩, trivial⟩
    · exact ⟨.handlerReturns, ⟨hreaping, not_exists.mp hnone⟩, trivial⟩
  | false =>
    cases hpending : s.pending with
    | true => exact ⟨.deliver, ⟨hpending, hreaping⟩, trivial⟩
    | false =>
      refine absurd ⟨hpending, hreaping, ?_⟩ h
      intro i hi
      have hknown := zombie_announced hs hi
      rw [hpending, hreaping] at hknown
      simp at hknown

/-- Though signals are merged, no zombie is left without one: outside the handler there is
none, unless a SIGCHLD is pending. From every state the handler returns after a bounded
number of steps, and when it does, every zombie has been waited for. -/
theorem zombies_reaped {s : Family} (h : (family raw_fd reads k).Reachable s) :
    (s.pending = false → s.reaping = false → ∀ i, ¬ s.ChildAt i .zombie) ∧
    (∀ ops t, (handling raw_fd reads k).Exec s ops t → ops.length ≤ 2 * s.zombies + 3) ∧
    ∃ ops t, (handling raw_fd reads k).Exec s ops t ∧ t.Handled := by
  refine ⟨?_, ?_, handling_decreases.exists_final (fun s => handling_enabled) h⟩
  · intro hpending hreaping i hi
    have hknown := zombie_announced h hi
    rw [hpending, hreaping] at hknown
    simp at hknown
  · intro ops t hrun
    have hle := handling_decreases.length_le h hrun
    have hpending := Bool.toNat_le s.pending
    have hreaping := Bool.toNat_le s.reaping
    unfold Family.toHandle at hle
    omega

end

/-- Two clients are served at the same time, and both children have exited before the parent
is told of the first. -/
def twoClients : List ServeOp :=
  [.accept 4, .fork, .destroyClient, .accept 4, .fork, .closeListener 1, .destroyClient,
    .respond 1, .exit 1, .exit 0]

def afterTwoClients (reads : Nat → List Read) (k : Nat → Kernel) : Family :=
  twoClients.foldl (Family.next 3 reads k) ⟨.accepting, listening 3, 0, [], false, false, []⟩

theorem reachable_twoClients (reads : Nat → List Read) (k : Nat → Kernel) :
    (family 3 reads k).Reachable (afterTwoClients reads k) :=
  have hrun : (family 3 reads k).Exec ⟨.accepting, listening 3, 0, [], false, false, []⟩
      twoClients (afterTwoClients reads k) :=
    .cons ⟨⟨rfl, rfl⟩, rfl⟩ (.cons ⟨4, 0, rfl, rfl⟩ (.cons ⟨4, 0, rfl, rfl⟩
      (.cons ⟨⟨rfl, rfl⟩, rfl⟩ (.cons ⟨4, 1, rfl, rfl⟩ (.cons ⟨_, rfl, rfl⟩
      (.cons ⟨4, 1, rfl, rfl⟩ (.cons ⟨_, rfl, rfl⟩ (.cons ⟨_, rfl, .inr (.inr rfl)⟩
      (.single ⟨_, rfl, .inl rfl⟩)))))))))
  hrun.reachable rfl

theorem children_isolated_twoClients :
    Isolated 3 (fun _ => []) (fun _ => notesKernel printed)
      (afterTwoClients (fun _ => []) fun _ => notesKernel printed) :=
  children_isolated (reachable_twoClients _ _)

theorem zombies_reaped_twoClients :
    (∀ ops t, (handling 3 (fun _ => []) fun _ => notesKernel printed).Exec
        (afterTwoClients (fun _ => []) fun _ => notesKernel printed) ops t → ops.length ≤ 7) ∧
      ∃ ops t, (handling 3 (fun _ => []) fun _ => notesKernel printed).Exec
        (afterTwoClients (fun _ => []) fun _ => notesKernel printed) ops t ∧ t.Handled :=
  (zombies_reaped (reachable_twoClients _ _)).2

end SisProg.Http
