import SisProg.Lib.Ledger

/-!
# Sockets

A `Socket` owns a descriptor, unless its field is negative: it closes the descriptor when
it is destroyed or another `Socket` is assigned to it. An object that has been moved from
owns nothing. The objects are numbered in the order of their construction, and the log has
the descriptors that `socket` and `accept` have returned, those that were given to a
constructor, and the calls of `close`.

* `Owned`: the log of a descriptor is a proper ledger, and one object holds it until it is
  closed.
* `sockets_own_once`: no descriptor is lost or closed twice, and at the top of the loop of
  `serve` only the listening socket is open, whoever holds the others.
-/

namespace SisProg.Http

structure Socket where
  fd : Int
deriving DecidableEq

inductive FdEvent
  | opened (fd : Int)
  | given (fd : Int)
  | closed (fd : Int)
deriving DecidableEq

/-- `if (_fd >= 0) close(_fd);` -/
def Socket.closeFd (x : Socket) : List FdEvent := if 0 ≤ x.fd then [.closed x.fd] else []

/-- The objects, `none` once they are destroyed, and the log. -/
structure Sockets where
  objs : List (Option Socket)
  log : List FdEvent
deriving DecidableEq

/-- The operations on objects; `opened` is a call of `socket` or `accept`. -/
inductive SocketOp
  | opened (fd : Int)
  | construct (fd : Int)
  | moveConstruct (other : Nat)
  | moveAssign (this other : Nat)
  | destroy (this : Nat)
deriving DecidableEq

namespace Sockets

/-- The object with this number, if it is live. -/
def live (s : Sockets) (i : Nat) : Option Socket := s.objs[i]?.join

/-- A constructor is called with a negative number, or with a descriptor that no live object
owns. -/
def enabled (s : Sockets) : SocketOp → Prop
  | .opened _ => True
  | .construct fd => fd < 0 ∨ some ⟨fd⟩ ∉ s.objs
  | .moveConstruct other => (s.live other).isSome
  | .moveAssign this other => (s.live this).isSome ∧ (s.live other).isSome
  | .destroy this => (s.live this).isSome

instance (s : Sockets) : ∀ op, Decidable (s.enabled op)
  | .opened _ => inferInstanceAs (Decidable True)
  | .construct fd => inferInstanceAs (Decidable (fd < 0 ∨ some ⟨fd⟩ ∉ s.objs))
  | .moveConstruct other => inferInstanceAs (Decidable ((s.live other).isSome = true))
  | .moveAssign this other =>
    inferInstanceAs (Decidable ((s.live this).isSome = true ∧ (s.live other).isSome = true))
  | .destroy this => inferInstanceAs (Decidable ((s.live this).isSome = true))

def next (s : Sockets) : SocketOp → Sockets
  | .opened fd => { s with log := s.log ++ [.opened fd] }
  | .construct fd => { objs := s.objs ++ [some ⟨fd⟩], log := s.log ++ [.given fd] }
  | .moveConstruct other =>
    match s.live other with
    | some y => { s with objs := s.objs.set other (some ⟨-1⟩) ++ [some ⟨y.fd⟩] }
    | none => s
  | .moveAssign this other =>
    if this = other then s
    else
      match s.live this, s.live other with
      | some x, some y =>
        { objs := (s.objs.set this (some ⟨y.fd⟩)).set other (some ⟨-1⟩), log := s.log ++ x.closeFd }
      | _, _ => s
  | .destroy this =>
    match s.live this with
    | some x => { objs := s.objs.set this none, log := s.log ++ x.closeFd }
    | none => s

/-- The object `i` holds `fd`. -/
def Holds (s : Sockets) (i : Nat) (fd : Int) : Prop := s.live i = some ⟨fd⟩

/-- The descriptor has been given to a constructor, and not been closed since. -/
def Unclosed (s : Sockets) (fd : Int) : Prop :=
  Ledger.Held (· = .given fd) (· = .closed fd) s.log

/-- The kernel has opened the descriptor, and it has not been closed since. -/
def Open (s : Sockets) (fd : Int) : Prop := Ledger.Held (· = .opened fd) (· = .closed fd) s.log

/-- How many objects hold `fd`. -/
def holders (s : Sockets) (fd : Int) : Nat := s.objs.count (some ⟨fd⟩)

end Sockets

/-- Any sequence of operations. -/
def sockets : Machine Sockets SocketOp where
  init s := s = ⟨[], []⟩
  enabled := Sockets.enabled
  next := Sockets.next

instance (s : Sockets) (op : SocketOp) : Decidable (sockets.enabled s op) :=
  inferInstanceAs (Decidable (s.enabled op))

/-! ## The accept loop -/

/-- The field of the `Socket` that `acceptConnection` returns, if `accept` returns
`clientFd`. -/
def acceptConnection (clientFd : Int) : Int := if clientFd < 0 then -1 else clientFd

/-- `accept` returns `clientFd`. -/
def accept (s : Sockets) (clientFd : Int) : Sockets :=
  if clientFd < 0 then s else s.next (.opened clientFd)

/-- An iteration of `serve` from there on; `none` in the child, which exits. -/
def iteration (s : Sockets) (clientFd pid : Int) : Option Sockets :=
  let clientSocket := s.objs.length
  let s' := s.next (.construct (acceptConnection clientFd))
  if acceptConnection clientFd = -1 then some (s'.next (.destroy clientSocket))
  else if pid < 0 then some (s'.next (.destroy clientSocket))
  else if pid = 0 then none
  else some (s'.next (.destroy clientSocket))

/-- The member `serverSocket` after `createSocket`, where `raw_fd` was assigned to it from a
temporary object. -/
def createSocket (raw_fd : Int) : Sockets :=
  [.construct (-1), .opened raw_fd, .construct raw_fd, .moveAssign 0 1, .destroy 1].foldl
    Sockets.next ⟨[], []⟩

/-- The iterations of `serve` in the parent, with what `accept` and `fork` return. A
descriptor that `accept` returns was not open. -/
def server (raw_fd : Int) : Machine Sockets (Int × Int) where
  init s := s = createSocket raw_fd
  enabled s r := (r.1 < 0 ∨ ¬ s.Open r.1) ∧ (iteration (accept s r.1) r.1 r.2).isSome
  next s r := (iteration (accept s r.1) r.1 r.2).getD s

/-! ## What a step does to a descriptor -/

namespace Sockets

theorem live_eq_some {s : Sockets} {i : Nat} {x : Socket} :
    s.live i = some x ↔ s.objs[i]? = some (some x) :=
  Option.join_eq_some_iff

/-- What a step does to the log, and to the number of holders of each descriptor. -/
inductive Effect (s t : Sockets) : Prop
  | opened (fd : Int) (log : t.log = s.log ++ [.opened fd])
      (holders : ∀ d, t.holders d = s.holders d)
  | given (fd : Int) (log : t.log = s.log ++ [.given fd]) (free : fd < 0 ∨ s.holders fd = 0)
      (holders : ∀ d, 0 ≤ d → t.holders d = s.holders d + if fd = d then 1 else 0)
  | closed (fd : Int) (log : t.log = s.log ++ [.closed fd])
      (holders : ∀ d, 0 ≤ d → t.holders d + (if fd = d then 1 else 0) = s.holders d)
  | kept (log : t.log = s.log) (holders : ∀ d, 0 ≤ d → t.holders d = s.holders d)

/-- An object lets its descriptor go, and closes it if it has one. -/
theorem effect_closeFd {s t : Sockets} {x : Socket} (hlog : t.log = s.log ++ x.closeFd)
    (hholders : ∀ d, 0 ≤ d → t.holders d + (if x.fd = d then 1 else 0) = s.holders d) :
    Effect s t := by
  by_cases hx : 0 ≤ x.fd
  · rw [Socket.closeFd, if_pos hx] at hlog
    exact .closed x.fd hlog hholders
  · rw [Socket.closeFd, if_neg hx, List.append_nil] at hlog
    refine .kept hlog fun d hd => ?_
    have hne : x.fd ≠ d := by
      rintro rfl
      exact hx hd
    rw [← hholders d hd, if_neg hne]
    rfl

theorem some_eq_iff {x : Socket} {d : Int} : some x = some (⟨d⟩ : Socket) ↔ x.fd = d := by
  cases x
  simp

/-- An object without a descriptor is no holder. -/
theorem movedFrom_ne {d : Int} (hd : 0 ≤ d) : (-1 : Int) ≠ d := by
  rintro rfl
  exact absurd hd (by decide)

/-- Another object, or none, is put in the place of the object `x`. -/
theorem holders_set {objs : List (Option Socket)} {i : Nat} {x : Socket}
    (h : objs[i]? = some (some x)) (y : Option Socket) (d : Int) :
    (objs.set i y).count (some ⟨d⟩) + (if x.fd = d then 1 else 0) =
      objs.count (some ⟨d⟩) + if y = some ⟨d⟩ then 1 else 0 := by
  induction objs generalizing i with
  | nil => simp at h
  | cons z objs ih =>
    cases i with
    | zero =>
      obtain rfl : z = some x := by simpa using h
      simp only [List.set_cons_zero, List.count_cons, beq_iff_eq, some_eq_iff]
      exact Nat.add_right_comm _ _ _
    | succ i =>
      rw [List.set_cons_succ, List.count_cons, List.count_cons, Nat.add_right_comm,
        ih (by simpa using h), Nat.add_right_comm]

theorem holders_movedFrom {objs : List (Option Socket)} {i : Nat} {x : Socket}
    (h : objs[i]? = some (some x)) {d : Int} (hd : 0 ≤ d) :
    (objs.set i (some ⟨-1⟩)).count (some ⟨d⟩) + (if x.fd = d then 1 else 0) =
      objs.count (some ⟨d⟩) := by
  have hset := holders_set h (some ⟨-1⟩) d
  rwa [if_neg (some_eq_iff.not.mpr (movedFrom_ne hd))] at hset

theorem effect_moveConstruct {s : Sockets} {other : Nat} {y : Socket}
    (hy : s.live other = some y) : Effect s (s.next (.moveConstruct other)) := by
  have hnext : s.next (.moveConstruct other) =
      { s with objs := s.objs.set other (some ⟨-1⟩) ++ [some ⟨y.fd⟩] } := by
    simp only [next, hy]
  rw [hnext]
  refine .kept rfl fun d hd => ?_
  rw [holders, holders, List.count_append, ← holders_movedFrom (live_eq_some.mp hy) hd,
    List.count_singleton]
  simp

/-- The descriptor of `other` moves to `this`, and that of `this` is closed. -/
theorem effect_moveAssign {s : Sockets} {this other : Nat} {x y : Socket} (hne : this ≠ other)
    (hx : s.live this = some x) (hy : s.live other = some y) :
    Effect s (s.next (.moveAssign this other)) := by
  have hnext : s.next (.moveAssign this other) =
      { objs := (s.objs.set this (some ⟨y.fd⟩)).set other (some ⟨-1⟩)
        log := s.log ++ x.closeFd } := by
    simp only [next, if_neg hne, hx, hy]
  rw [hnext]
  refine effect_closeFd rfl fun d hd => ?_
  have hthis := holders_set (live_eq_some.mp hx) (some ⟨y.fd⟩) d
  have hother : (s.objs.set this (some ⟨y.fd⟩))[other]? = some (some y) := by
    rw [List.getElem?_set_ne hne]
    exact live_eq_some.mp hy
  rw [← holders_movedFrom hother hd, Nat.add_right_comm] at hthis
  simp only [some_eq_iff] at hthis
  exact Nat.add_right_cancel hthis

theorem effect_destroy {s : Sockets} {this : Nat} {x : Socket} (hx : s.live this = some x) :
    Effect s (s.next (.destroy this)) := by
  have hnext : s.next (.destroy this) =
      { objs := s.objs.set this none, log := s.log ++ x.closeFd } := by
    simp only [next, hx]
  rw [hnext]
  exact effect_closeFd rfl fun d _ => holders_set (live_eq_some.mp hx) none d

theorem effect_next {s : Sockets} {op : SocketOp} (he : s.enabled op) : Effect s (s.next op) := by
  cases op with
  | opened fd => exact .opened fd rfl fun _ => rfl
  | construct fd =>
    refine .given fd rfl (he.imp_right List.count_eq_zero.mpr) fun d _ => ?_
    simp [holders, next, List.count_append, List.count_singleton]
  | moveConstruct other =>
    obtain ⟨y, hy⟩ := Option.isSome_iff_exists.mp he
    exact effect_moveConstruct hy
  | moveAssign this other =>
    obtain ⟨x, hx⟩ := Option.isSome_iff_exists.mp he.1
    obtain ⟨y, hy⟩ := Option.isSome_iff_exists.mp he.2
    rcases eq_or_ne this other with rfl | hne
    · rw [next, if_pos rfl]
      exact .kept rfl fun _ _ => rfl
    · exact effect_moveAssign hne hx hy
  | destroy this =>
    obtain ⟨x, hx⟩ := Option.isSome_iff_exists.mp he
    exact effect_destroy hx

/-! ## Ownership -/

/-- The log of `fd` is a proper ledger, and `fd` has one holder until it is closed. -/
structure Owned (s : Sockets) (fd : Int) : Prop where
  proper : Ledger.Proper (· = .given fd) (· = .closed fd) s.log
  of_unclosed : s.Unclosed fd → s.holders fd = 1
  of_not_unclosed : ¬ s.Unclosed fd → s.holders fd = 0

theorem Owned.unclosed_iff {s : Sockets} {fd : Int} (h : s.Owned fd) :
    s.Unclosed fd ↔ s.holders fd ≠ 0 := by
  refine ⟨fun hopen => ?_, fun hne => ?_⟩
  · rw [h.of_unclosed hopen]
    exact Nat.one_ne_zero
  · by_contra hnot
    exact hne (h.of_not_unclosed hnot)

theorem owned_init (fd : Int) : Owned ⟨[], []⟩ fd where
  proper := Ledger.proper_nil
  of_unclosed h := (Ledger.not_held_nil h).elim
  of_not_unclosed _ := rfl

/-- An event that neither gives nor closes the descriptor. -/
theorem Owned.neither {s t : Sockets} {fd : Int} (h : s.Owned fd) {e : FdEvent}
    (hgiven : e ≠ .given fd) (hclosed : e ≠ .closed fd) (hlog : t.log = s.log ++ [e])
    (hholders : t.holders fd = s.holders fd) : t.Owned fd := by
  have hopen : t.Unclosed fd ↔ s.Unclosed fd := by
    rw [Unclosed, hlog]
    exact Ledger.held_snoc_of_neither hgiven hclosed
  refine ⟨?_, ?_, ?_⟩
  · rw [hlog]
    exact h.proper.snoc (fun heq => absurd heq hgiven) fun heq => absurd heq hclosed
  · intro ht
    rw [hholders, h.of_unclosed (hopen.mp ht)]
  · intro ht
    rw [hholders, h.of_not_unclosed (mt hopen.mpr ht)]

theorem Owned.of_effect {s t : Sockets} {d : Int} (hd : 0 ≤ d) (h : s.Owned d)
    (heffect : Effect s t) : t.Owned d := by
  cases heffect with
  | opened fd hlog hholders =>
    exact h.neither FdEvent.noConfusion FdEvent.noConfusion hlog (hholders d)
  | given fd hlog hfree hholders =>
    have hcount := hholders d hd
    rcases eq_or_ne fd d with rfl | hne
    · have hzero : s.holders fd = 0 := hfree.resolve_left (Int.not_lt.mpr hd)
      have hnot : ¬ s.Unclosed fd := fun hopen => h.unclosed_iff.mp hopen hzero
      have hopen : t.Unclosed fd := by
        rw [Unclosed, hlog, Ledger.held_snoc]
        exact .inl rfl
      refine ⟨?_, fun _ => ?_, fun hx => absurd hopen hx⟩
      · rw [hlog]
        exact h.proper.snoc (fun _ => hnot) nofun
      · rw [hcount, hzero, if_pos rfl]
    · rw [if_neg hne] at hcount
      exact h.neither (fun heq => hne (FdEvent.given.inj heq)) FdEvent.noConfusion hlog hcount
  | closed fd hlog hholders =>
    have hcount := hholders d hd
    rcases eq_or_ne fd d with rfl | hne
    · rw [if_pos rfl] at hcount
      have hopen : s.Unclosed fd := h.unclosed_iff.mpr (hcount ▸ Nat.succ_ne_zero _)
      have hnot : ¬ t.Unclosed fd := by
        rw [Unclosed, hlog, Ledger.held_snoc]
        rintro (heq | ⟨-, hx⟩)
        · cases heq
        · exact hx rfl
      refine ⟨?_, fun hx => absurd hx hnot, fun _ => ?_⟩
      · rw [hlog]
        exact h.proper.snoc nofun fun _ => hopen
      · rw [h.of_unclosed hopen] at hcount
        exact Nat.succ.inj hcount
    · rw [if_neg hne] at hcount
      exact h.neither FdEvent.noConfusion (fun heq => hne (FdEvent.closed.inj heq)) hlog hcount
  | kept hlog hholders =>
    have hopen : t.Unclosed d ↔ s.Unclosed d := by rw [Unclosed, hlog, Unclosed]
    refine ⟨hlog ▸ h.proper, fun hx => ?_, fun hx => ?_⟩
    · rw [hholders d hd, h.of_unclosed (hopen.mp hx)]
    · rw [hholders d hd, h.of_not_unclosed (mt hopen.mpr hx)]

theorem owned {s : Sockets} (h : sockets.Reachable s) {fd : Int} (hfd : 0 ≤ fd) : s.Owned fd := by
  refine h.induct (P := fun s => s.Owned fd) ?_ ?_
  · rintro s rfl
    exact owned_init fd
  · intro s op _ hs he
    exact hs.of_effect hfd (effect_next he)

/-- Two holders of a descriptor are one. -/
theorem holds_unique {s : Sockets} {fd : Int} (hone : s.holders fd ≤ 1) {i j : Nat}
    (hi : s.Holds i fd) (hj : s.Holds j fd) : i = j := by
  by_contra hne
  -- without the first there is another one
  have hcount := holders_set (live_eq_some.mp hi) none fd
  have hmem : some ⟨fd⟩ ∈ s.objs.set i none := by
    refine List.mem_of_getElem? (i := j) ?_
    rw [List.getElem?_set_ne hne]
    exact live_eq_some.mp hj
  rw [if_pos rfl, if_neg nofun] at hcount
  have hsum : (s.objs.set i none).count (some ⟨fd⟩) + 1 = s.holders fd := hcount
  rw [← hsum] at hone
  exact absurd (List.count_pos_iff.mpr hmem) (Nat.not_lt_of_le (Nat.le_of_succ_le_succ hone))

theorem exists_holds_iff {s : Sockets} {fd : Int} : (∃ i, s.Holds i fd) ↔ s.holders fd ≠ 0 := by
  rw [holders, Ne, List.count_eq_zero, not_not, List.mem_iff_getElem?]
  simp only [Holds, live_eq_some]

/-- One object holds `fd` at most, and only if it has not been closed since it was given to a
constructor. Each time it was, it has been closed exactly once, or an object holds it. -/
structure OwnsOnce (s : Sockets) (fd : Int) : Prop where
  unique : ∀ i j, s.Holds i fd → s.Holds j fd → i = j
  held_unclosed : ∀ i, s.Holds i fd → s.Unclosed fd
  closed_once : ∀ bs cs, s.log = bs ++ .given fd :: cs →
    (Ledger.life (· = .given fd) cs).count (.closed fd) = 1 ∨
    Ledger.life (· = .given fd) cs = cs ∧ .closed fd ∉ cs ∧ ∃ i, s.Holds i fd

theorem Owned.holders_le_one {s : Sockets} {fd : Int} (h : s.Owned fd) : s.holders fd ≤ 1 := by
  by_cases hopen : s.Unclosed fd
  · exact (h.of_unclosed hopen).le
  · exact (h.of_not_unclosed hopen).le.trans (Nat.zero_le 1)

theorem Owned.ownsOnce {s : Sockets} {fd : Int} (h : s.Owned fd) : s.OwnsOnce fd where
  unique _ _ := holds_unique h.holders_le_one
  held_unclosed i hi := h.unclosed_iff.mpr (exists_holds_iff.mp ⟨i, hi⟩)
  closed_once bs cs hlog := by
    have hdisj : ∀ e, e = FdEvent.given fd → ¬ e = .closed fd := by
      rintro e rfl
      exact nofun
    rcases h.proper.released_once hdisj hlog rfl with hone | ⟨hlife, hnone, hopen⟩
    · exact .inl hone
    · exact .inr ⟨hlife, List.count_eq_zero.mp hnone, exists_holds_iff.mpr (h.unclosed_iff.mp hopen)⟩

end Sockets

/-! ## The descriptors of the server -/

theorem reachable_createSocket {raw_fd : Int} (h : 0 ≤ raw_fd) :
    sockets.Reachable (createSocket raw_fd) := by
  have hfree : (some ⟨raw_fd⟩ : Option Socket) ∉ [some ⟨-1⟩] := by
    rw [List.mem_singleton, eq_comm, Sockets.some_eq_iff]
    exact Sockets.movedFrom_ne h
  exact ⟨⟨[], []⟩, [.construct (-1), .opened raw_fd, .construct raw_fd, .moveAssign 0 1,
    .destroy 1], rfl, Machine.Exec.cons (.inl (by decide)) (.cons trivial (.cons (.inr hfree)
      (.cons ⟨rfl, rfl⟩ (.single rfl))))⟩

theorem open_createSocket {raw_fd fd : Int} :
    (createSocket raw_fd).Open fd ↔ fd = raw_fd := by
  have hlog : (createSocket raw_fd).log =
      (([] ++ [.given (-1)]) ++ [.opened raw_fd]) ++ [.given raw_fd] := rfl
  rw [Sockets.Open, hlog, Ledger.held_snoc_of_neither nofun nofun, Ledger.held_snoc,
    Ledger.held_snoc_of_neither nofun nofun]
  refine ⟨fun h => ?_, fun h => .inl (h ▸ rfl)⟩
  rcases h with heq | ⟨hnil, -⟩
  · exact (FdEvent.opened.inj heq).symm
  · exact (Ledger.not_held_nil hnil).elim

theorem iteration_eq {s t : Sockets} {clientFd pid : Int} (h : iteration s clientFd pid = some t) :
    t = (s.next (.construct (acceptConnection clientFd))).next (.destroy s.objs.length) := by
  unfold iteration at h
  dsimp only at h
  split_ifs at h <;> exact (Option.some.inj h).symm

theorem objs_accept (s : Sockets) (clientFd : Int) : (accept s clientFd).objs = s.objs := by
  unfold accept
  split <;> rfl

theorem reachable_accept {s : Sockets} (hs : sockets.Reachable s) (clientFd : Int) :
    sockets.Reachable (accept s clientFd) := by
  unfold accept
  split
  next => exact hs
  next =>
    have he : sockets.enabled s (.opened clientFd) := trivial
    exact hs.next he

/-- The client's socket is destroyed at the end of the iteration, on each path. -/
theorem iteration_cases {s t : Sockets} {clientFd pid : Int}
    (h : iteration s clientFd pid = some t) :
    t.objs = s.objs ++ [none] ∧ t.log = s.log ++
      .given (acceptConnection clientFd) :: Socket.closeFd ⟨acceptConnection clientFd⟩ := by
  obtain rfl := iteration_eq h
  have hlive : (s.next (.construct (acceptConnection clientFd))).live s.objs.length =
      some ⟨acceptConnection clientFd⟩ := by
    simp [Sockets.live, Sockets.next]
  simp only [Sockets.next] at hlive ⊢
  rw [hlive]
  simp

theorem reachable_iteration {s t : Sockets} {clientFd pid : Int} (hs : sockets.Reachable s)
    (hfree : clientFd < 0 ∨ some ⟨clientFd⟩ ∉ s.objs) (h : iteration s clientFd pid = some t) :
    sockets.Reachable t := by
  obtain rfl := iteration_eq h
  have hconstruct : sockets.enabled s (.construct (acceptConnection clientFd)) := by
    unfold acceptConnection
    split
    next => exact .inl (by decide)
    next hle => exact .inr (hfree.resolve_left hle)
  have hdestroy : sockets.enabled (s.next (.construct (acceptConnection clientFd)))
      (.destroy s.objs.length) := by
    show (Sockets.live _ _).isSome
    simp [Sockets.next, Sockets.live]
  exact (hs.next hconstruct).next hdestroy

/-- What `accept` has opened is closed again, and nothing else is. -/
theorem open_iteration {s t : Sockets} {clientFd pid : Int}
    (hfree : clientFd < 0 ∨ ¬ s.Open clientFd)
    (h : iteration (accept s clientFd) clientFd pid = some t) (fd : Int) :
    t.Open fd ↔ s.Open fd := by
  obtain ⟨-, hlog⟩ := iteration_cases h
  by_cases hneg : clientFd < 0
  · have hclose : Socket.closeFd ⟨-1⟩ = [] := rfl
    rw [accept, acceptConnection, if_pos hneg, if_pos hneg, hclose] at hlog
    rw [Sockets.Open, hlog]
    exact Ledger.held_snoc_of_neither nofun nofun
  · have hclose : Socket.closeFd ⟨clientFd⟩ = [.closed clientFd] := if_pos (Int.not_lt.mp hneg)
    rw [accept, acceptConnection, if_neg hneg, if_neg hneg, hclose] at hlog
    have hsnoc : t.log =
        ((s.log ++ [.opened clientFd]) ++ [.given clientFd]) ++ [.closed clientFd] := by
      rw [hlog]
      simp [Sockets.next]
    rw [Sockets.Open, hsnoc, Ledger.held_snoc, Ledger.held_snoc_of_neither nofun nofun,
      Ledger.held_snoc]
    rcases eq_or_ne fd clientFd with rfl | hne
    · simpa using hfree.resolve_left hneg
    · simp [Sockets.Open, hne.symm]

/-- What holds at the top of the loop of `serve`. -/
structure AtTop (raw_fd : Int) (s : Sockets) : Prop where
  reachable : sockets.Reachable s
  /-- `serverSocket` is the only object. -/
  objs : ∃ n, s.objs = some ⟨raw_fd⟩ :: List.replicate n none
  open_iff : ∀ fd, s.Open fd ↔ fd = raw_fd

theorem AtTop.mem_objs {raw_fd : Int} {s : Sockets} (h : AtTop raw_fd s) {fd : Int} :
    some ⟨fd⟩ ∈ s.objs ↔ fd = raw_fd := by
  obtain ⟨n, hobjs⟩ := h.objs
  rw [hobjs, List.mem_cons, Sockets.some_eq_iff]
  refine ⟨fun hmem => ?_, .inl⟩
  rcases hmem with heq | hmem
  · exact heq
  · exact nomatch List.eq_of_mem_replicate hmem

theorem atTop {raw_fd : Int} (h : 0 ≤ raw_fd) {s : Sockets} (hs : (server raw_fd).Reachable s) :
    AtTop raw_fd s := by
  refine hs.induct ?_ ?_
  · rintro s rfl
    exact ⟨reachable_createSocket h, ⟨1, rfl⟩, fun fd => open_createSocket⟩
  · rintro s ⟨clientFd, pid⟩ - hs ⟨hfree, hsome⟩
    obtain ⟨t, ht⟩ := Option.isSome_iff_exists.mp hsome
    have hnext : (server raw_fd).next s (clientFd, pid) = t := by
      show (iteration (accept s clientFd) clientFd pid).getD s = t
      rw [ht]
      rfl
    rw [hnext]
    refine ⟨?_, ?_, fun fd => (open_iteration hfree ht fd).trans (hs.open_iff fd)⟩
    · refine reachable_iteration (reachable_accept hs.reachable clientFd) ?_ ht
      rw [objs_accept, hs.mem_objs, ← hs.open_iff]
      exact hfree
    · obtain ⟨n, hobjs⟩ := hs.objs
      refine ⟨n + 1, ?_⟩
      rw [(iteration_cases ht).1, objs_accept, hobjs, List.replicate_succ']
      rfl

theorem AtTop.holds {raw_fd : Int} {s : Sockets} (h : AtTop raw_fd s) : s.Holds 0 raw_fd := by
  obtain ⟨n, hobjs⟩ := h.objs
  rw [Sockets.Holds, Sockets.live_eq_some, hobjs]
  rfl

/-- Every descriptor is owned once, whatever the operations are. So after each iteration of
`serve` in the parent the listening socket is open, and no other. -/
theorem sockets_own_once :
    (∀ s, sockets.Reachable s → ∀ fd, 0 ≤ fd → s.OwnsOnce fd) ∧
    (∀ raw_fd, 0 ≤ raw_fd → ∀ s, (server raw_fd).Reachable s →
      sockets.Reachable s ∧ s.Holds 0 raw_fd ∧ ∀ fd, s.Open fd ↔ fd = raw_fd) := by
  refine ⟨fun s hs fd hfd => (Sockets.owned hs hfd).ownsOnce, ?_⟩
  intro raw_fd h s hs
  have htop := atTop h hs
  exact ⟨htop.reachable, htop.holds, htop.open_iff⟩

/-- The descriptor `5` is closed by an assignment over its object, and used again. -/
def reused : List SocketOp :=
  [.construct 5, .construct 6, .moveAssign 0 1, .moveAssign 0 0, .moveConstruct 0, .construct 5,
    .destroy 2]

theorem reused_runs : (sockets.run ⟨[], []⟩ reused).isSome := by decide

/-- After a fork that fails `accept` returns the same number. -/
def forkFails : Sockets :=
  (server 3).next ((server 3).next (createSocket 3) (4, -1)) (4, 7)

theorem forkFails_reachable : (server 3).Reachable forkFails := by
  have hnot : ∀ s, (server 3).Reachable s → ¬ s.Open 4 := by
    intro s hs
    rw [(atTop (by decide) hs).open_iff]
    decide
  have hinit : (server 3).Reachable (createSocket 3) := ⟨_, _, rfl, Machine.Exec.nil⟩
  have hfirst := hinit.next (a := (4, -1)) ⟨.inr (hnot _ hinit), by decide⟩
  exact hfirst.next ⟨.inr (hnot _ hfirst), by decide⟩

theorem sockets_own_once_reused :
    ((sockets.run ⟨[], []⟩ reused).get reused_runs).OwnsOnce 5 ∧
    ∀ fd, forkFails.Open fd ↔ fd = 3 := by
  obtain ⟨howns, hserver⟩ := sockets_own_once
  have hrun : sockets.Exec ⟨[], []⟩ reused ((sockets.run ⟨[], []⟩ reused).get reused_runs) :=
    Machine.exec_run_get reused_runs
  exact ⟨howns _ (hrun.reachable rfl) 5 (by decide),
    (hserver 3 (by decide) forkFails forkFails_reachable).2.2⟩

end SisProg.Http
