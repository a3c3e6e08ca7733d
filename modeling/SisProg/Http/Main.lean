import SisProg.Http.Port
import SisProg.Http.Socket

/-!
# The startup of the HTTP server

`main` checks its arguments, reads the port and lets an `HTTPServer` make its calls: the
handler of `SIGCHLD`, the listening socket, its options, the address and `listen`. Each of
these may throw, and `main` catches: it prints one message, and exits.

`startup_all_or_nothing`: it serves exactly if there is one argument that is a port and all
calls succeed, with the listening socket as the only socket; else the calls stop at the
first that fails, the message names it, and no socket is left open.
-/

namespace SisProg.Http.Main

open Bytes (ascii)

/-- What is thrown before the server accepts; `other` is any other `std::exception`. -/
inductive Exception
  | port (what : Bytes)
  | arg (what : Bytes)
  | http (what : Bytes)
  | other (what : Bytes)
deriving DecidableEq

/-- What the calls return, the error as its `strerror(errno)`. -/
structure Kernel where
  sigaction : Except Bytes Unit
  socket : Except Bytes Nat
  setsockopt : Except Bytes Unit
  bind : Except Bytes Unit
  listen : Except Bytes Unit

inductive Call
  | sigaction
  | socket
  | setsockopt (fd : Int)
  | bind (fd : Int) (sinPort : UInt8 × UInt8)
  | listen (fd : Int)
deriving DecidableEq

/-- An `HTTPServer`, and the calls that it has made. Its member `serverSocket` is the first of
the sockets. -/
structure HTTPServer where
  port : Port
  sockets : Sockets
  calls : List Call
deriving DecidableEq

abbrev Startup := ExceptT Exception (StateM HTTPServer)

/-- The constructor. -/
def construct (port : Port) : HTTPServer :=
  ⟨port, Sockets.next ⟨[], []⟩ (.construct (-1)), []⟩

/-- `serverSocket.get()`. -/
def HTTPServer.serverSocket (s : HTTPServer) : Int := ((s.sockets.live 0).map Socket.fd).getD (-1)

/-- A call, and `throwErrno` if it fails. -/
def call {α : Type} (c : Call) (r : Except Bytes α) (what : Bytes) : Startup α := do
  modify fun s => { s with calls := s.calls ++ [c] }
  match r with
  | .ok a => return a
  | .error errno => throw (.http (what ++ ascii ": " ++ errno))

def setupSignalAction (k : Kernel) : Startup Unit :=
  call .sigaction k.sigaction (ascii "sigaction failure")

/-- The temporary is moved from and destroyed. -/
def createSocket (k : Kernel) : Startup Unit := do
  let raw_fd ← call .socket k.socket (ascii "Failed to create socket")
  modify fun s => { s with
    sockets := [.opened raw_fd, .construct raw_fd, .moveAssign 0 1, .destroy 1].foldl
      Sockets.next s.sockets }

def configureSocketOptions (k : Kernel) : Startup Unit := do
  call (.setsockopt (← get).serverSocket) k.setsockopt (ascii "setsockopt failure")

def bindSocket (k : Kernel) : Startup Unit := do
  let s ← get
  call (.bind s.serverSocket s.port.sinPort) k.bind (ascii "bind failure")

def listen (k : Kernel) : Startup Unit := do
  call (.listen (← get).serverSocket) k.listen (ascii "listen failure")

def init (k : Kernel) : Startup Unit := do
  setupSignalAction k
  createSocket k
  configureSocketOptions k
  bindSocket k

/-- `init`, and `listenAndServe` up to the loop. -/
def start (k : Kernel) : Startup Unit := do
  init k
  listen k

/-- The arguments behind `argv[0]`. -/
def validateArgs (argv0 : Bytes) : List Bytes → Except Exception Bytes
  | [] => .error (.arg (ascii "missing port argument.\nTry: " ++ argv0 ++ ascii " <port>"))
  | [port] => .ok port
  | _ => .error (.arg (ascii "too many arguments\nTry: " ++ argv0 ++ ascii " <port>"))

def PortError.exception : PortError → Exception
  | .port what => .port what
  | .stol _ => .other (ascii "stol")

/-- What `fatal` prints in the handlers of `main`. -/
def fatal : Exception → Bytes
  | .port what => ascii "bad port: " ++ what ++ ascii "\n"
  | .arg what => ascii "usage: " ++ what ++ ascii "\n"
  | .http what => ascii "server: " ++ what ++ ascii "\n"
  | .other what => ascii "unknown: " ++ what ++ ascii "\n"

/-- The process is about to enter the loop of `serve`, or has printed a message and exited. -/
inductive Outcome
  | serving (s : HTTPServer)
  | exited (stderr : Bytes) (sockets : Sockets) (calls : List Call)
deriving DecidableEq

/-- The `HTTPServer` is destroyed before the handler runs. -/
def main (argv0 : Bytes) (args : List Bytes) (k : Kernel) : Outcome :=
  match validateArgs argv0 args with
  | .error e => .exited (fatal e) ⟨[], []⟩ []
  | .ok portArg =>
    match Port.ofString portArg with
    | .error e => .exited (fatal (PortError.exception e)) ⟨[], []⟩ []
    | .ok port =>
      match start k (construct port) with
      | (.ok _, s) => .serving s
      | (.error e, s) => .exited (fatal e) (s.sockets.next (.destroy 0)) s.calls

/-! ## The calls -/

/-- A call that can fail, its result, and what is said if it does. -/
structure Step where
  call : Call
  result : Except Bytes Unit
  what : Bytes

/-- The calls in their order; `fd` is the new descriptor. -/
def steps (k : Kernel) (fd : Int) (port : Port) : List Step :=
  [⟨.sigaction, k.sigaction, ascii "sigaction failure"⟩,
    ⟨.socket, k.socket.map fun _ => (), ascii "Failed to create socket"⟩,
    ⟨.setsockopt fd, k.setsockopt, ascii "setsockopt failure"⟩,
    ⟨.bind fd port.sinPort, k.bind, ascii "bind failure"⟩,
    ⟨.listen fd, k.listen, ascii "listen failure"⟩]

/-- The new descriptor, if there is one. -/
def Kernel.fd (k : Kernel) : Int :=
  match k.socket with
  | .ok fd => fd
  | .error _ => -1

/-- The first step that fails, with what it says and the calls made until then. -/
inductive Fails : List Step → Bytes → List Call → Prop
  | here {x : Step} {xs : List Step} {errno : Bytes} (h : x.result = .error errno) :
      Fails (x :: xs) (x.what ++ ascii ": " ++ errno) [x.call]
  | later {x : Step} {xs : List Step} {what : Bytes} {calls : List Call}
      (h : x.result = .ok ()) (hrest : Fails xs what calls) :
      Fails (x :: xs) what (x.call :: calls)

/-- Where the exception leaves the sockets, the server destroyed. -/
def left (k : Kernel) : Sockets :=
  match k.sigaction, k.socket with
  | .ok (), .ok fd => (Http.createSocket fd).next (.destroy 0)
  | _, _ => Sockets.next (Sockets.next ⟨[], []⟩ (.construct (-1))) (.destroy 0)

/-- All calls succeed, or the first that fails is reported. -/
theorem start_cases (k : Kernel) (port : Port) :
    (start k (construct port) = (.ok (), ⟨port, Http.createSocket k.fd,
        (steps k k.fd port).map Step.call⟩) ∧ ∀ x ∈ steps k k.fd port, x.result = .ok ()) ∨
      ∃ what s, start k (construct port) = (.error (.http what), s) ∧
        Fails (steps k k.fd port) what s.calls ∧ s.sockets.next (.destroy 0) = left k := by
  obtain ⟨sigaction, socket, setsockopt, bind, listen⟩ := k
  cases sigaction with
  | error errno => exact .inr ⟨_, _, rfl, .here rfl, rfl⟩
  | ok =>
    cases socket with
    | error errno => exact .inr ⟨_, _, rfl, .later rfl (.here rfl), rfl⟩
    | ok fd =>
      cases setsockopt with
      | error errno => exact .inr ⟨_, _, rfl, .later rfl (.later rfl (.here rfl)), rfl⟩
      | ok =>
        cases bind with
        | error errno =>
          exact .inr ⟨_, _, rfl, .later rfl (.later rfl (.later rfl (.here rfl))), rfl⟩
        | ok =>
          cases listen with
          | error errno =>
            exact .inr ⟨_, _, rfl,
              .later rfl (.later rfl (.later rfl (.later rfl (.here rfl)))), rfl⟩
          | ok => exact .inl ⟨rfl, by simp [steps, Except.map]⟩

/-! ## The port -/

/-- One to five digits, whose value is a port other than the last one. -/
structure PortNumber (s : Bytes) : Prop where
  digits : ∀ b ∈ s, Decimal.isDigit b = true
  one_le : 1 ≤ s.length
  le_five : s.length ≤ 5
  lt : Decimal.value s < 65535

theorem ofString_cases (s : Bytes) :
    PortNumber s ∧ Port.ofString s = .ok ⟨UInt32.ofNat (Decimal.value s)⟩ ∨
      ¬ PortNumber s ∧ ∃ what, Port.ofString s = .error (.port what) := by
  by_cases hmatch : Port.portRx.fullMatch s = true
  · obtain ⟨hdigits, hone, hfive⟩ := Port.portRx_iff.mp hmatch
    have hof := Port.ofString_of_digits hdigits hone hfive
    by_cases hlt : Decimal.value s < 65535
    · rw [if_pos hlt] at hof
      exact .inl ⟨⟨hdigits, hone, hfive, hlt⟩, hof⟩
    · rw [if_neg hlt] at hof
      exact .inr ⟨fun h => hlt h.lt, _, hof⟩
  · refine .inr ⟨fun h => hmatch ?_, _, Port.ofString_of_not_match hmatch⟩
    exact Port.portRx_iff.mpr ⟨h.digits, h.one_le, h.le_five⟩

/-! ## What is left open -/

/-- Nothing is left, and what there was has been closed once. -/
def Closed (s : Sockets) : Prop :=
  ∀ fd, 0 ≤ fd → ¬ s.Open fd ∧ ¬ s.Unclosed fd ∧ s.OwnsOnce fd

theorem closed_of_reachable {s : Sockets} (h : sockets.Reachable s)
    (hobjs : ∀ x ∈ s.objs, x = none) (hopen : ∀ fd, ¬ s.Open fd) : Closed s := by
  intro fd hfd
  have howned := Sockets.owned h hfd
  refine ⟨hopen fd, ?_, howned.ownsOnce⟩
  rw [howned.unclosed_iff, not_not]
  refine List.count_eq_zero.mpr fun hmem => ?_
  cases hobjs _ hmem

theorem closed_nil : Closed ⟨[], []⟩ :=
  closed_of_reachable ⟨_, [], rfl, .nil⟩ (by simp) fun _ => Ledger.not_held_nil

theorem closed_left (k : Kernel) : Closed (left k) := by
  have hnone : Closed (Sockets.next (Sockets.next ⟨[], []⟩ (.construct (-1))) (.destroy 0)) := by
    refine closed_of_reachable ⟨_, [.construct (-1), .destroy 0], rfl, ?_⟩ ?_ fun fd => ?_
    · exact .cons (.inl (by decide)) (.single rfl)
    · simp [Sockets.next, Sockets.live]
    · have hlog : (Sockets.next (Sockets.next ⟨[], []⟩ (.construct (-1))) (.destroy 0)).log =
          [] ++ [.given (-1)] := rfl
      rw [Sockets.Open, hlog, Ledger.held_snoc_of_neither (by simp) (by simp)]
      exact Ledger.not_held_nil
  unfold left
  split
  next fd _ _ =>
    have he : sockets.enabled (Http.createSocket fd) (.destroy 0) := rfl
    refine closed_of_reachable ((reachable_createSocket (Int.natCast_nonneg fd)).next he) ?_
      fun d hd => ?_
    · simp [Http.createSocket, Sockets.next, Sockets.live]
    · have hlog : ((Http.createSocket fd).next (.destroy 0)).log =
          (Http.createSocket fd).log ++ [.closed fd] := rfl
      rw [Sockets.Open, hlog, Ledger.held_snoc] at hd
      obtain ⟨hopen, hne⟩ := hd.resolve_left (by simp)
      exact hne (congrArg FdEvent.closed (open_createSocket.mp hopen).symm)
  next => exact hnone

/-! ## How it ends -/

/-- What is printed, and after which calls. -/
inductive Complains (argv0 : Bytes) (args : List Bytes) (k : Kernel) : Bytes → List Call → Prop
  | missing (h : args = []) :
      Complains argv0 args k
        (ascii "usage: " ++ (ascii "missing port argument.\nTry: " ++ argv0 ++ ascii " <port>") ++
          ascii "\n") []
  | tooMany (h : 2 ≤ args.length) :
      Complains argv0 args k
        (ascii "usage: " ++ (ascii "too many arguments\nTry: " ++ argv0 ++ ascii " <port>") ++
          ascii "\n") []
  | badPort {arg what : Bytes} (h : args = [arg]) (hport : ¬ PortNumber arg)
      (hwhat : Port.ofString arg = .error (.port what)) :
      Complains argv0 args k (ascii "bad port: " ++ what ++ ascii "\n") []
  | server {arg what : Bytes} {port : Port} {calls : List Call} (h : args = [arg])
      (hport : Port.ofString arg = .ok port) (hfails : Fails (steps k k.fd port) what calls) :
      Complains argv0 args k (ascii "server: " ++ what ++ ascii "\n") calls

/-- The server is about to accept, on the port that was given. -/
structure Serves (args : List Bytes) (k : Kernel) (s : HTTPServer) : Prop where
  arg : ∃ arg, args = [arg] ∧ PortNumber arg ∧ s.port = ⟨UInt32.ofNat (Decimal.value arg)⟩ ∧
    256 * s.port.sinPort.1.toNat + s.port.sinPort.2.toNat = Decimal.value arg
  succeeded : ∀ x ∈ steps k k.fd s.port, x.result = .ok ()
  calls : s.calls = (steps k k.fd s.port).map Step.call
  sockets : (server k.fd).init s.sockets

variable {argv0 arg : Bytes} {args : List Bytes} {k : Kernel} {port : Port} {s : HTTPServer}

theorem main_ok (hport : Port.ofString arg = .ok port)
    (hstart : start k (construct port) = (.ok (), s)) : main argv0 [arg] k = .serving s := by
  simp only [main, validateArgs, hport, hstart]

theorem main_error {e : Exception} (hport : Port.ofString arg = .ok port)
    (hstart : start k (construct port) = (.error e, s)) :
    main argv0 [arg] k = .exited (fatal e) (s.sockets.next (.destroy 0)) s.calls := by
  simp only [main, validateArgs, hport, hstart]

theorem main_badPort {e : PortError} (hport : Port.ofString arg = .error e) :
    main argv0 [arg] k = .exited (fatal (PortError.exception e)) ⟨[], []⟩ [] := by
  simp only [main, validateArgs, hport]

/-- With one argument. -/
theorem main_arg (argv0 arg : Bytes) (k : Kernel) :
    (∃ s, main argv0 [arg] k = .serving s ∧ Serves [arg] k s) ∨
      ∃ msg t calls, main argv0 [arg] k = .exited msg t calls ∧
        Complains argv0 [arg] k msg calls ∧ Closed t := by
  rcases ofString_cases arg with ⟨hport, hok⟩ | ⟨hport, what, herror⟩
  · rcases start_cases k ⟨UInt32.ofNat (Decimal.value arg)⟩ with ⟨hstart, hall⟩ |
      ⟨what, s, hstart, hfails, hleft⟩
    · refine .inl ⟨_, main_ok hok hstart, ⟨arg, rfl, hport, rfl, ?_⟩, hall, rfl, rfl⟩
      exact Port.sinPort_value (hport.lt.trans (by decide))
    · refine .inr ⟨_, _, _, main_error hok hstart, .server rfl hok hfails, ?_⟩
      rw [hleft]
      exact closed_left k
  · exact .inr ⟨_, _, _, main_badPort herror, .badPort rfl hport herror, closed_nil⟩

theorem main_cases (argv0 : Bytes) (args : List Bytes) (k : Kernel) :
    (∃ s, main argv0 args k = .serving s ∧ Serves args k s) ∨
      ∃ msg t calls, main argv0 args k = .exited msg t calls ∧ Complains argv0 args k msg calls ∧
        Closed t := by
  match args with
  | [] => exact .inr ⟨_, _, _, rfl, .missing rfl, closed_nil⟩
  | [arg] => exact main_arg argv0 arg k
  | _ :: _ :: args =>
    exact .inr ⟨_, _, _, rfl, .tooMany (Nat.le_add_left 2 args.length), closed_nil⟩

theorem not_fails {xs : List Step} {what : Bytes} {calls : List Call}
    (hall : ∀ x ∈ xs, x.result = .ok ()) : ¬ Fails xs what calls := by
  intro h
  induction h with
  | @here x xs errno h =>
    rw [hall x List.mem_cons_self] at h
    cases h
  | later _ _ ih => exact ih fun y hy => hall y (List.mem_cons_of_mem _ hy)

theorem Serves.fd_nonneg (h : Serves args k s) : 0 ≤ k.fd := by
  have hsocket := h.succeeded _ (List.mem_cons_of_mem _ List.mem_cons_self)
  unfold Kernel.fd
  cases hk : k.socket with
  | ok fd => exact Int.natCast_nonneg fd
  | error errno =>
    rw [hk] at hsocket
    cases hsocket

/-- Nothing complains of a port when all calls succeed. -/
theorem not_complains {msg : Bytes} {calls : List Call} (hport : PortNumber arg)
    (hall : ∀ x ∈ steps k k.fd ⟨UInt32.ofNat (Decimal.value arg)⟩, x.result = .ok ()) :
    ¬ Complains argv0 [arg] k msg calls := by
  have hok : Port.ofString arg = .ok ⟨UInt32.ofNat (Decimal.value arg)⟩ :=
    (ofString_cases arg).elim And.right fun h => absurd hport h.1
  intro h
  cases h with
  | missing h => cases h
  | tooMany h => exact absurd h (by simp)
  | badPort h hnot =>
    obtain rfl := List.singleton_inj.mp h
    exact hnot hport
  | server h hport' hfails =>
    obtain rfl := List.singleton_inj.mp h
    obtain rfl := Except.ok.inj (hok.symm.trans hport')
    exact not_fails hall hfails

/-- The server accepts if and only if its one argument is a port and no call fails. It has then
made all the calls with the one socket that is open, which is bound to that port. Else it
has printed what complains of the first thing that is wrong, and has closed what it had
opened. -/
theorem startup_all_or_nothing (argv0 : Bytes) (args : List Bytes) (k : Kernel) :
    ((∃ s, main argv0 args k = .serving s) ↔ ∃ arg, args = [arg] ∧ PortNumber arg ∧
        ∀ x ∈ steps k k.fd ⟨UInt32.ofNat (Decimal.value arg)⟩, x.result = .ok ()) ∧
      (∀ s, main argv0 args k = .serving s → Serves args k s ∧
        ∀ fd, s.sockets.Open fd ↔ fd = k.fd) ∧
      ∀ msg t calls, main argv0 args k = .exited msg t calls →
        Complains argv0 args k msg calls ∧ Closed t := by
  have hserves : ∀ s, main argv0 args k = .serving s → Serves args k s := by
    intro s hs
    rcases main_cases argv0 args k with ⟨s', hs', hserves⟩ | ⟨msg, t, calls, hexited, -⟩
    · obtain rfl := Outcome.serving.inj (hs'.symm.trans hs)
      exact hserves
    · cases hs.symm.trans hexited
  refine ⟨⟨?_, ?_⟩, ?_, ?_⟩
  · rintro ⟨s, hs⟩
    have hserved := hserves s hs
    obtain ⟨arg, hargs, hport, hs', -⟩ := hserved.arg
    refine ⟨arg, hargs, hport, ?_⟩
    rw [← hs']
    exact hserved.succeeded
  · rintro ⟨arg, rfl, hport, hall⟩
    rcases main_cases argv0 [arg] k with ⟨s, hs, -⟩ | ⟨msg, t, calls, -, hcomplains, -⟩
    · exact ⟨s, hs⟩
    · exact absurd hcomplains (not_complains hport hall)
  · intro s hs
    have hserved := hserves s hs
    exact ⟨hserved, (atTop hserved.fd_nonneg ⟨_, [], hserved.sockets, .nil⟩).open_iff⟩
  · intro msg t calls hexited
    rcases main_cases argv0 args k with ⟨s, hs, -⟩ | ⟨msg', t', calls', hexited', hboth⟩
    · cases hs.symm.trans hexited
    · obtain ⟨rfl, rfl, rfl⟩ := Outcome.exited.inj (hexited'.symm.trans hexited)
      exact hboth

end SisProg.Http.Main
