import Mathlib.Data.Finset.Basic
import Mathlib.Data.Finset.Lattice.Basic

/-!
# The descriptor sets of a select loop

A server that calls `select` keeps the descriptors it watches in one set and the
largest of them in a variable, and scans a copy of the set that `select` has cut
down. Both sets change while the scan goes on.

* `Watching`: the set holds the listener and the clients, all of them are open,
  and none is larger than the variable says. Kept by an `accept` and by a `close`.
* `Ahead`: what the scan has yet to meet is watched.
-/

namespace SisProg.Selector

/-- `master` holds the listener and the descriptors with `client`. -/
structure Watching (client : Nat → Prop) (listener : Nat) (master openFds : Finset Nat)
    (fdMax : Nat) : Prop where
  mem_iff : ∀ fd, fd ∈ master ↔ fd = listener ∨ client fd
  opened : master ⊆ openFds
  le_fdMax : ∀ fd ∈ master, fd ≤ fdMax
  listener : ¬ client listener

variable {client client' : Nat → Prop} {listener c fdMax : Nat} {master openFds : Finset Nat}

theorem Watching.init (hopen : listener ∈ openFds) (hnone : ∀ fd, ¬ client fd) :
    Watching client listener {listener} openFds listener := by
  refine ⟨?_, Finset.singleton_subset_iff.mpr hopen, ?_, hnone listener⟩
  · intro fd
    simp [hnone fd]
  · intro fd hfd
    exact (Finset.mem_singleton.mp hfd).le

theorem Watching.congr (h : Watching client listener master openFds fdMax)
    (hclient : ∀ fd, client' fd ↔ client fd) :
    Watching client' listener master openFds fdMax := by
  refine ⟨?_, h.opened, h.le_fdMax, ?_⟩
  · intro fd
    rw [hclient]
    exact h.mem_iff fd
  · rw [hclient]
    exact h.listener

/-- `accept` returns a descriptor that is not open. -/
theorem Watching.accept (h : Watching client listener master openFds fdMax)
    (hfree : c ∉ openFds) (hclient : ∀ fd, client' fd ↔ fd = c ∨ client fd) :
    Watching client' listener (insert c master) (insert c openFds) (max fdMax c) := by
  have hne : listener ≠ c := by
    rintro rfl
    exact hfree (h.opened ((h.mem_iff _).mpr (.inl rfl)))
  refine ⟨?_, Finset.insert_subset_insert c h.opened, ?_, ?_⟩
  · intro fd
    rw [Finset.mem_insert, hclient, h.mem_iff]
    exact or_left_comm
  · intro fd hfd
    rcases Finset.mem_insert.mp hfd with rfl | hfd
    · exact le_max_right _ _
    · exact le_max_of_le_left (h.le_fdMax fd hfd)
  · rw [hclient]
    exact not_or.mpr ⟨hne, h.listener⟩

/-- A client is closed. -/
theorem Watching.close (h : Watching client listener master openFds fdMax)
    (hne : c ≠ listener) (hclient : ∀ fd, client' fd ↔ fd ≠ c ∧ client fd) :
    Watching client' listener (master.erase c) (openFds.erase c) fdMax := by
  refine ⟨?_, Finset.erase_subset_erase c h.opened, ?_, ?_⟩
  · intro fd
    rw [Finset.mem_erase, hclient, h.mem_iff]
    constructor
    · rintro ⟨hfd, rfl | hc⟩
      · exact .inl rfl
      · exact .inr ⟨hfd, hc⟩
    · rintro (rfl | ⟨hfd, hc⟩)
      · exact ⟨hne.symm, .inl rfl⟩
      · exact ⟨hfd, .inr hc⟩
  · intro fd hfd
    exact h.le_fdMax fd (Finset.mem_of_mem_erase hfd)
  · rw [hclient]
    exact fun hl => h.listener hl.2

/-! ## The scan -/

/-- The descriptors from `p` on that `select` reported are watched. -/
def Ahead (ready master : Finset Nat) (p : Nat) : Prop := ∀ fd ∈ ready, p ≤ fd → fd ∈ master

variable {ready : Finset Nat} {p : Nat}

theorem Ahead.of_subset (h : ready ⊆ master) : Ahead ready master p :=
  fun _ hfd _ => h hfd

theorem Ahead.succ (h : Ahead ready master p) : Ahead ready master (p + 1) :=
  fun fd hfd hle => h fd hfd (Nat.le_of_succ_le hle)

theorem Ahead.insert (h : Ahead ready master p) : Ahead ready (insert c master) p :=
  fun fd hfd hle => Finset.mem_insert_of_mem (h fd hfd hle)

/-- The scan closes the descriptor that it has met last. -/
theorem Ahead.erase (h : Ahead ready master p) : Ahead ready (master.erase p) (p + 1) :=
  fun fd hfd hle =>
    Finset.mem_erase.mpr ⟨(Nat.lt_of_succ_le hle).ne', h.succ fd hfd hle⟩

end SisProg.Selector
