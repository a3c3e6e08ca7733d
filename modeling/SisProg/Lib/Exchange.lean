import Mathlib.Algebra.Order.BigOperators.Group.Finset
import SisProg.Lib.Machine
import SisProg.Lib.Threads

/-!
# Two sides that wait for each other

A buffer between producers and consumers, as a monitor sees it. A thread of either side
takes one unit of what its side needs (the free slots, or the elements) and makes one unit
of what the other side needs; if there is none it blocks. After it has taken its unit it
owes the other side one notification, which wakes some blocked thread of that side if
there is one. A blocked thread may also wake up by itself.

`exchange_not_all_blocked`: as long as there is room for one unit at all, not all threads
are blocked. The invariant is `Covered`: while a thread of a side is blocked, each unit
for that side is covered by a thread of the side that is not blocked, or by a
notification that the other side still owes.
-/

namespace SisProg

/-- A thread is out of the waiting room, blocked in it, or owes a notification. -/
inductive Phase
  | out
  | blocked
  | owing
deriving DecidableEq

/-- The two sides are `true` and `false`; `units b` is what the side `b` can take. -/
structure Exchange (ι : Type) where
  phase : ι → Phase
  units : Bool → Nat

inductive ExchangeAct (ι : Type)
  | block (i : ι)
  | wake (i : ι)
  | act (i : ι)
  | signal (i : ι) (woken : Option ι)

variable {ι : Type} [DecidableEq ι]

def exchange (side : ι → Bool) : Machine (Exchange ι) (ExchangeAct ι) where
  init s := ∀ i, s.phase i = .out
  enabled s
    | .block i => s.phase i = .out ∧ s.units (side i) = 0
    | .wake i => s.phase i = .blocked
    | .act i => s.phase i = .out ∧ 0 < s.units (side i)
    | .signal i (some j) => s.phase i = .owing ∧ side j = !side i ∧ s.phase j = .blocked
    | .signal i none => s.phase i = .owing ∧ ∀ j, side j = !side i → s.phase j ≠ .blocked
  next s
    | .block i => { s with phase := Function.update s.phase i .blocked }
    | .wake i => { s with phase := Function.update s.phase i .out }
    | .act i =>
        { phase := Function.update s.phase i .owing
          units := fun b => if b = side i then s.units b - 1 else s.units b + 1 }
    | .signal i (some j) =>
        { s with phase := Function.update (Function.update s.phase i .out) j .out }
    | .signal i none => { s with phase := Function.update s.phase i .out }

namespace Exchange

variable {side : ι → Bool}

/-- What a thread in this phase covers for the side `b`: a thread of the side does as long
as it is not blocked, one of the other side as long as it owes a notification. -/
def cover (side : ι → Bool) (b : Bool) (i : ι) (p : Phase) : Nat :=
  if side i = b then if p = .blocked then 0 else 1
  else if p = .owing then 1 else 0

/-- A thread that is blocked after a step that does not block it was blocked before. -/
theorem blocked_of_update {f : ι → Phase} {i k : ι} {p : Phase} (hp : p ≠ .blocked)
    (h : Function.update f i p k = .blocked) : f k = .blocked := by
  rw [Function.update_apply] at h
  split at h
  · exact absurd h hp
  · exact h

variable [Fintype ι]

def covered (side : ι → Bool) (b : Bool) (phase : ι → Phase) : Nat :=
  ∑ i, cover side b i (phase i)

/-- While a thread of a side is blocked, each of its units is covered. -/
def Covered (side : ι → Bool) (s : Exchange ι) : Prop :=
  ∀ i, s.phase i = .blocked → s.units (side i) ≤ covered side (side i) s.phase

/-- One thread changes its phase. -/
theorem covered_update (b : Bool) (f : ι → Phase) (i : ι) (p : Phase) :
    covered side b (Function.update f i p) + cover side b i (f i) =
      covered side b f + cover side b i p :=
  sum_update_add_of_index (cover side b) f i p

/-- A thread leaves the waiting room, or the phase it is in, and covers no less. -/
theorem Covered.update {s : Exchange ι} {i : ι} {p : Phase} (h : Covered side s)
    (hp : p ≠ .blocked) (hcover : ∀ b, cover side b i (s.phase i) ≤ cover side b i p) :
    Covered side { s with phase := Function.update s.phase i p } := by
  intro k hk
  have hsum := @covered_update _ _ side _ (side k) s.phase i p
  have hle := h k (blocked_of_update hp hk)
  have hc := hcover (side k)
  show s.units (side k) ≤ covered side (side k) (Function.update s.phase i p)
  omega

theorem Covered.block {s : Exchange ι} {i : ι} (h : Covered side s)
    (he : (exchange side).enabled s (.block i)) :
    Covered side ((exchange side).next s (.block i)) := by
  obtain ⟨hout, hnone⟩ := he
  intro k hk
  show s.units (side k) ≤ covered side (side k) (Function.update s.phase i .blocked)
  by_cases hside : side k = side i
  · -- nothing is there to be covered
    rw [hside, hnone]
    exact Nat.zero_le _
  · have hne : k ≠ i := fun heq => hside (congrArg side heq)
    have hle := h k (by simpa [exchange, hne] using hk)
    have hsum := @covered_update _ _ side _ (side k) s.phase i .blocked
    have hsame : cover side (side k) i .blocked = cover side (side k) i (s.phase i) := by
      simp [cover, hout, Ne.symm hside]
    omega

/-- The unit that is taken was covered by the thread that takes it, or by another; the new
one is covered by the notification. -/
theorem Covered.act {s : Exchange ι} {i : ι} (h : Covered side s)
    (he : (exchange side).enabled s (.act i)) :
    Covered side ((exchange side).next s (.act i)) := by
  obtain ⟨hout, hpos⟩ := he
  intro k hk
  have hle := h k (blocked_of_update (by simp) hk)
  have hsum := @covered_update _ _ side _ (side k) s.phase i .owing
  show (if side k = side i then s.units (side k) - 1 else s.units (side k) + 1) ≤
    covered side (side k) (Function.update s.phase i .owing)
  by_cases hside : side k = side i
  · have hsame : cover side (side k) i .owing = cover side (side k) i (s.phase i) := by
      simp [cover, hout, hside]
    rw [if_pos hside]
    omega
  · have h₀ : cover side (side k) i (s.phase i) = 0 := by simp [cover, hout, Ne.symm hside]
    have h₁ : cover side (side k) i .owing = 1 := by simp [cover, Ne.symm hside]
    rw [if_neg hside]
    omega

/-- Nobody is waiting for the notification. -/
theorem Covered.signal_none {s : Exchange ι} {i : ι} (h : Covered side s)
    (he : (exchange side).enabled s (.signal i none)) :
    Covered side ((exchange side).next s (.signal i none)) := by
  obtain ⟨howing, hnone⟩ := he
  intro k hk
  have hk' := blocked_of_update (by simp) hk
  have hle := h k hk'
  have hsum := @covered_update _ _ side _ (side k) s.phase i .out
  have hside : side i = side k := by
    by_contra hne
    exact hnone k (Bool.eq_not_of_ne (Ne.symm hne)) hk'
  have hsame : cover side (side k) i .out = cover side (side k) i (s.phase i) := by
    simp [cover, howing, hside]
  show s.units (side k) ≤ covered side (side k) (Function.update s.phase i .out)
  omega

/-- The notification that was owed is a thread that is awake now. -/
theorem Covered.signal_some {s : Exchange ι} {i j : ι} (h : Covered side s)
    (he : (exchange side).enabled s (.signal i (some j))) :
    Covered side ((exchange side).next s (.signal i (some j))) := by
  obtain ⟨howing, hside, hblocked⟩ := he
  have hne : j ≠ i := by
    rintro rfl
    rw [howing] at hblocked
    cases hblocked
  intro k hk
  have hle := h k (blocked_of_update (by simp) (blocked_of_update (by simp) hk))
  have hsum := @covered_update _ _ side _ (side k) s.phase i .out
  have hsum' := @covered_update _ _ side _ (side k) (Function.update s.phase i .out) j .out
  rw [Function.update_of_ne hne, hblocked] at hsum'
  rw [howing] at hsum
  show s.units (side k) ≤
    covered side (side k) (Function.update (Function.update s.phase i .out) j .out)
  by_cases hk' : side i = side k
  · have hj : side j ≠ side k := by simp [hside, hk']
    simp only [cover, hk', if_true, hj, if_false] at hsum hsum'
    simp at hsum hsum'
    omega
  · have hj : side j = side k := by
      rw [hside]
      exact (Bool.eq_not_of_ne (Ne.symm hk')).symm
    simp only [cover, hk', if_false, hj, if_true] at hsum hsum'
    simp at hsum hsum'
    omega

theorem Covered.next {s : Exchange ι} {a : ExchangeAct ι} (h : Covered side s)
    (he : (exchange side).enabled s a) : Covered side ((exchange side).next s a) := by
  cases a with
  | block i => exact h.block he
  | wake i =>
    refine h.update (by simp) fun b => ?_
    rw [(he : s.phase i = .blocked)]
    unfold cover
    split <;> simp
  | act i => exact h.act he
  | signal i woken =>
    cases woken with
    | none => exact h.signal_none he
    | some j => exact h.signal_some he

theorem covered_inv {s : Exchange ι} (h : (exchange side).Reachable s) : Covered side s := by
  refine h.induct ?_ fun s a _ hs he => hs.next he
  intro s hs i hi
  rw [hs i] at hi
  cases hi

end Exchange

open Exchange

/-- Not all threads are blocked, if there are threads on both sides and units for one of
them. -/
theorem exchange_not_all_blocked [Fintype ι] {side : ι → Bool} {s : Exchange ι}
    (h : (exchange side).Reachable s) (hside : ∀ b, ∃ i, side i = b)
    (hunits : 0 < s.units true + s.units false) : ∃ i, s.phase i ≠ .blocked := by
  by_contra hall
  simp only [not_exists, not_not] at hall
  have hnone : ∀ b, s.units b = 0 := by
    intro b
    obtain ⟨i, rfl⟩ := hside b
    have hzero : covered side (side i) s.phase = 0 :=
      Finset.sum_eq_zero fun k _ => by simp [cover, hall k]
    exact Nat.le_zero.mp (hzero ▸ covered_inv h i (hall i))
  rw [hnone, hnone] at hunits
  exact Nat.lt_irrefl 0 hunits

end SisProg
