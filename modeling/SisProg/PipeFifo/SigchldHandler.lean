import Mathlib.Data.Finset.Card
import SisProg.Lib.Machine

/-!
# The SIGCHLD handler

`sigchld_handler` calls `waitpid(-1, NULL, WNOHANG)` in a loop. In `pipe-fifo/relay.c` it
goes on as long as the result is not `0`, and in `temp/relay/relay.c` as long as it is
positive. The two differ when there is no child left: `waitpid` returns `-1` then, and
returns it again.

The relay has two children, the receiver and the logger. When the second one is reaped
the handler never returns (`handler_ends_iff`); the other one always does
(`positive_ends`).

Which of the children that have terminated is reaped first is up to the kernel.
-/

namespace SisProg.PipeFifo

/-- The children of the process, by their process ids. -/
structure Children where
  terminated : Finset Nat
  running : Finset Nat
  positive : ∀ pid ∈ terminated, 0 < pid

/-- The handler, between two calls of `waitpid` or after its loop. -/
structure Handler where
  children : Children
  returned : Bool

namespace Children

/-- `waitpid(-1, NULL, WNOHANG)` may return `r`. -/
def Waitpid (c : Children) (r : Int) : Prop :=
  (∃ pid ∈ c.terminated, r = (pid : Int)) ∨
  c.terminated = ∅ ∧ r = if c.running = ∅ then -1 else 0

/-- The children after it has. -/
def reap (c : Children) (r : Int) : Children where
  terminated := c.terminated.erase r.toNat
  running := c.running
  positive pid h := c.positive pid (Finset.mem_of_mem_erase h)

end Children

/-- `while (test(waitpid(-1, NULL, WNOHANG)));`. A step is a call of `waitpid`. -/
def handlerLoop (test : Int → Bool) : Machine Handler Int where
  init h := h.returned = false
  enabled h r := h.returned = false ∧ h.children.Waitpid r
  next h r := ⟨h.children.reap r, !test r⟩

/-- `sigchld_handler` of `pipe-fifo/relay.c`. -/
def sigchldHandler : Machine Handler Int := handlerLoop (· != 0)

/-- `sigchld_handler` of `temp/relay/relay.c`. -/
def sigchldHandlerPositive : Machine Handler Int := handlerLoop (0 < ·)

/-- However the kernel answers, the handler returns after finitely many calls, and no
terminated child is left then. -/
def EndsReaping (M : Machine Handler Int) (c : Children) : Prop :=
  ∃ k, ∀ rs h, M.Exec ⟨c, false⟩ rs h →
    rs.length ≤ k ∧ (h.returned = false → ∃ r, M.enabled h r) ∧
    (h.returned = true → h.children.terminated = ∅)

/-- Some call of `waitpid` is always possible. -/
theorem exists_waitpid (c : Children) : ∃ r, c.Waitpid r := by
  by_cases h : c.terminated = ∅
  · exact ⟨_, .inr ⟨h, rfl⟩⟩
  · obtain ⟨pid, hpid⟩ := Finset.nonempty_iff_ne_empty.mpr h
    exact ⟨pid, .inl ⟨pid, hpid, rfl⟩⟩

/-- The calls so far have reaped one child each, but for the one that ended the loop. -/
structure Reaped (c : Children) (rs : List Int) (h : Handler) : Prop where
  running : h.children.running = c.running
  calling : h.returned = false → rs.length + h.children.terminated.card = c.terminated.card
  returned : h.returned = true →
    h.children.terminated = ∅ ∧ rs.length = c.terminated.card + 1

theorem reaped_snoc {test : Int → Bool} {c : Children} {rs : List Int} {h : Handler} {r : Int}
    (htest : ∀ r, 0 < r → test r = true) (hlast : test (if c.running = ∅ then -1 else 0) = false)
    (hr : Reaped c rs h) (he : (handlerLoop test).enabled h r) :
    Reaped c (rs ++ [r]) ((handlerLoop test).next h r) := by
  obtain ⟨hcalling, hwait⟩ := he
  have hcount := hr.calling hcalling
  refine ⟨hr.running, ?_, ?_⟩
  · intro hret
    rcases hwait with ⟨pid, hpid, rfl⟩ | ⟨-, rfl⟩
    · show (rs ++ [(pid : Int)]).length + (h.children.terminated.erase pid).card = _
      rw [List.length_append, List.length_singleton, Nat.add_assoc, Nat.add_comm 1,
        Finset.card_erase_add_one hpid]
      exact hcount
    · rw [hr.running] at hret
      simp [handlerLoop, hlast] at hret
  · intro hret
    rcases hwait with ⟨pid, hpid, rfl⟩ | ⟨hempty, rfl⟩
    · have hpos : (0 : Int) < pid := by exact_mod_cast h.children.positive pid hpid
      simp [handlerLoop, htest _ hpos] at hret
    · rw [hempty, Finset.card_empty, Nat.add_zero] at hcount
      refine ⟨?_, ?_⟩
      · show h.children.terminated.erase _ = ∅
        rw [hempty, Finset.erase_empty]
      · rw [List.length_append, hcount, List.length_singleton]

/-- If the result of the last call ends the loop, the handler returns. -/
theorem endsReaping_of_test {test : Int → Bool} {c : Children}
    (htest : ∀ r, 0 < r → test r = true) (hlast : test (if c.running = ∅ then -1 else 0) = false) :
    EndsReaping (handlerLoop test) c := by
  refine ⟨c.terminated.card + 1, fun rs h hrun => ?_⟩
  have hr : Reaped c rs h := by
    induction hrun with
    | nil => exact ⟨rfl, fun _ => Nat.zero_add _, nofun⟩
    | snoc _ he ih => exact reaped_snoc htest hlast ih he
  refine ⟨?_, ?_, fun hret => (hr.returned hret).1⟩
  · cases hret : h.returned with
    | false => exact (Nat.le_add_right _ _).trans ((hr.calling hret).le.trans (Nat.le_succ _))
    | true => exact (hr.returned hret).2.le
  · intro hret
    obtain ⟨r, hwait⟩ := exists_waitpid h.children
    exact ⟨r, hret, hwait⟩

/-- Without a running child the handler can go on for any number of calls. -/
theorem calls_forever {c : Children} (hrunning : c.running = ∅) (k : Nat) :
    ∃ rs h, sigchldHandler.Exec ⟨c, false⟩ rs h ∧ rs.length = k ∧ h.returned = false ∧
      h.children.running = ∅ := by
  induction k with
  | zero => exact ⟨[], _, .nil, rfl, rfl, hrunning⟩
  | succ k ih =>
    obtain ⟨rs, h, hrun, hlen, hcalling, hnone⟩ := ih
    obtain ⟨r, hwait⟩ := exists_waitpid h.children
    -- neither a process id nor `-1` is `0`
    have hr : r ≠ 0 := by
      rcases hwait with ⟨pid, hpid, rfl⟩ | ⟨-, rfl⟩
      · exact_mod_cast (h.children.positive pid hpid).ne'
      · simp [hnone]
    refine ⟨rs ++ [r], _, hrun.snoc ⟨hcalling, hwait⟩, by simp [hlen], ?_, hnone⟩
    simp [sigchldHandler, handlerLoop, hr]

theorem not_endsReaping {c : Children} (hnone : c.running = ∅) :
    ¬ EndsReaping sigchldHandler c := by
  rintro ⟨k, hk⟩
  obtain ⟨rs, h, hrun, hlen, -⟩ := calls_forever hnone (k + 1)
  have hle := (hk rs h hrun).1
  rw [hlen] at hle
  exact Nat.not_succ_le_self k hle

/-- The handler returns, with all terminated children reaped, exactly if some child is
still running. -/
theorem handler_ends_iff (c : Children) : EndsReaping sigchldHandler c ↔ c.running ≠ ∅ := by
  refine ⟨fun hends hnone => not_endsReaping hnone hends, fun hsome => ?_⟩
  refine @endsReaping_of_test (· != 0) c ?_ (by simp [hsome])
  intro r hr
  simpa using hr.ne'

/-- The other handler always does. -/
theorem positive_ends (c : Children) : EndsReaping sigchldHandlerPositive c := by
  refine @endsReaping_of_test (0 < ·) c (fun r hr => by simpa using hr) ?_
  split <;> rfl

/-- Both helper processes have terminated. -/
def helpersGone : Children := ⟨{17, 18}, ∅, by decide⟩

theorem handler_hangs : ¬ EndsReaping sigchldHandler helpersGone :=
  not_endsReaping rfl

end SisProg.PipeFifo
