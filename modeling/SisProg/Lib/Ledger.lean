import SisProg.Lib.Machine
import SisProg.Lib.Words

/-!
# Ledgers

The record of what was done with one resource: some entries acquire it, some release it.
It is proper if the resource is free whenever it is acquired, and held whenever it is
released.

* `Proper.countP_eq`: how often it was acquired.
* `Proper.released_once`: after each entry that acquires it, it is released exactly once
  before the next one, or it is held at the end.
-/

namespace SisProg.Ledger

variable {α : Type}

/-- The resource was acquired, and has not been released since. -/
def Held (acq rel : α → Prop) (as : List α) : Prop := Machine.Since acq rel as

structure Proper (acq rel : α → Prop) (as : List α) : Prop where
  free : ∀ bs a cs, as = bs ++ a :: cs → acq a → ¬ Held acq rel bs
  held : ∀ bs a cs, as = bs ++ a :: cs → rel a → Held acq rel bs

variable {acq rel : α → Prop} {as bs cs : List α} {a : α}

theorem not_held_nil : ¬ Held acq rel [] :=
  Machine.not_since_nil acq rel

theorem held_snoc : Held acq rel (as ++ [a]) ↔ acq a ∨ Held acq rel as ∧ ¬ rel a :=
  Machine.since_snoc

/-- An entry that does neither changes nothing. -/
theorem held_snoc_of_neither (hacq : ¬ acq a) (hrel : ¬ rel a) :
    Held acq rel (as ++ [a]) ↔ Held acq rel as := by
  rw [held_snoc]
  exact ⟨fun h => (h.resolve_left hacq).1, fun h => .inr ⟨h, hrel⟩⟩

theorem proper_nil : Proper acq rel [] := by
  refine ⟨?_, ?_⟩
  · intro bs a cs h
    simp at h
  · intro bs a cs h
    simp at h

theorem Proper.of_append (h : Proper acq rel (as ++ bs)) : Proper acq rel as := by
  refine ⟨?_, ?_⟩
  · rintro cs a ds rfl
    exact h.free cs a (ds ++ bs) (by simp)
  · rintro cs a ds rfl
    exact h.held cs a (ds ++ bs) (by simp)

theorem Proper.snoc (h : Proper acq rel as) (hfree : acq a → ¬ Held acq rel as)
    (hheld : rel a → Held acq rel as) : Proper acq rel (as ++ [a]) := by
  have hlast : ∀ bs b cs, as ++ [a] = bs ++ b :: cs →
      (∃ ds, as = bs ++ b :: ds) ∨ as = bs ∧ a = b := by
    intro bs b cs heq
    rcases List.eq_nil_or_concat cs with rfl | ⟨ds, c, rfl⟩
    · obtain ⟨hbs, hab⟩ := List.append_inj' heq rfl
      exact .inr ⟨hbs, by simpa using hab⟩
    · rw [List.concat_eq_append, ← List.cons_append, ← List.append_assoc] at heq
      exact .inl ⟨ds, (List.append_inj' heq rfl).1⟩
  refine ⟨?_, ?_⟩
  · intro bs b cs heq hb
    rcases hlast bs b cs heq with ⟨ds, hds⟩ | ⟨rfl, rfl⟩
    · exact h.free bs b ds hds hb
    · exact hfree hb
  · intro bs b cs heq hb
    rcases hlast bs b cs heq with ⟨ds, hds⟩ | ⟨rfl, rfl⟩
    · exact h.held bs b ds hds hb
    · exact hheld hb

section

variable [DecidablePred acq] [DecidablePred rel]

/-- The resource has been acquired as often as released, and once more while it is held. -/
theorem Proper.countP_eq (hdisj : ∀ a, acq a → ¬ rel a) (h : Proper acq rel as) :
    (Held acq rel as → as.countP (acq ·) = as.countP (rel ·) + 1) ∧
    (¬ Held acq rel as → as.countP (acq ·) = as.countP (rel ·)) := by
  induction as using List.reverseRecOn with
  | nil => exact ⟨fun hheld => (not_held_nil hheld).elim, fun _ => rfl⟩
  | append_singleton as a ih =>
    obtain ⟨hheld, hfree⟩ := ih h.of_append
    rw [List.countP_append, List.countP_append, held_snoc]
    by_cases hacq : acq a
    · have hrel := hdisj a hacq
      simp [hacq, hrel, hfree (h.free as a [] rfl hacq)]
    · by_cases hrel : rel a
      · simp [hacq, hrel, hheld (h.held as a [] rfl hrel)]
      · simpa [hacq, hrel] using ⟨hheld, hfree⟩

/-- The entries until the resource is acquired again. -/
def life (acq : α → Prop) [DecidablePred acq] (cs : List α) : List α :=
  cs.takeWhile fun a => ¬ acq a

theorem countP_life (cs : List α) : (life acq cs).countP (acq ·) = 0 := by
  rw [List.countP_eq_zero]
  intro a ha
  simpa using List.mem_takeWhile_imp ha

/-- After its life the resource is acquired again, or the record is over. -/
theorem life_append (cs : List α) :
    life acq cs = cs ∨ ∃ a ds, acq a ∧ cs = life acq cs ++ a :: ds := by
  have happ : life acq cs ++ cs.dropWhile (fun a => ¬ acq a) = cs :=
    List.takeWhile_append_dropWhile
  cases hrest : cs.dropWhile (fun a => ¬ acq a) with
  | nil =>
    rw [hrest, List.append_nil] at happ
    exact .inl happ
  | cons a ds =>
    have ha : acq a := by simpa using not_of_dropWhile_eq_cons hrest
    rw [hrest] at happ
    exact .inr ⟨a, ds, ha, happ.symm⟩

/-- Between two entries that acquire the resource, it is released once if it is free at
the end, and not at all if it is held. -/
theorem Proper.countP_rel (hdisj : ∀ a, acq a → ¬ rel a) (h : Proper acq rel (bs ++ a :: cs))
    (ha : acq a) (hcs : cs.countP (acq ·) = 0) :
    (Held acq rel (bs ++ a :: cs) → cs.countP (rel ·) = 0) ∧
    (¬ Held acq rel (bs ++ a :: cs) → cs.countP (rel ·) = 1) := by
  have hbefore := (h.of_append.countP_eq hdisj).2 (h.free bs a cs rfl ha)
  obtain ⟨hheld, hfree⟩ := h.countP_eq hdisj
  have hacqs : (bs ++ a :: cs).countP (acq ·) = bs.countP (rel ·) + 1 := by
    rw [List.countP_append, List.countP_cons_of_pos (by simpa using ha), hcs, hbefore]
  have hrels : (bs ++ a :: cs).countP (rel ·) = bs.countP (rel ·) + cs.countP (rel ·) := by
    rw [List.countP_append, List.countP_cons_of_neg (by simpa using hdisj a ha)]
  rw [hacqs, hrels] at hheld hfree
  refine ⟨fun hx => ?_, fun hx => ?_⟩
  · exact (Nat.add_eq_left.mp (Nat.add_right_cancel (hheld hx)).symm)
  · exact (Nat.add_left_cancel (hfree hx)).symm

/-- What happens to the resource after it was acquired. -/
theorem Proper.released_once (hdisj : ∀ a, acq a → ¬ rel a) (h : Proper acq rel as)
    (heq : as = bs ++ a :: cs) (ha : acq a) :
    (life acq cs).countP (rel ·) = 1 ∨
    life acq cs = cs ∧ cs.countP (rel ·) = 0 ∧ Held acq rel as := by
  subst heq
  have hcount : (life acq cs).countP (acq ·) = 0 := countP_life cs
  rcases @life_append _ acq _ cs with hlife | ⟨b, ds, hb, hcs⟩
  · rw [hlife] at hcount ⊢
    obtain ⟨hheld, hfree⟩ := h.countP_rel hdisj ha hcount
    by_cases hx : Held acq rel (bs ++ a :: cs)
    · exact .inr ⟨rfl, hheld hx, hx⟩
    · exact .inl (hfree hx)
  · have hsplit : bs ++ a :: cs = (bs ++ a :: life acq cs) ++ b :: ds := by
      rw [List.append_assoc, List.cons_append, ← hcs]
    have hnot := h.free _ b ds hsplit hb
    rw [hsplit] at h
    exact .inl ((h.of_append.countP_rel hdisj ha hcount).2 hnot)

end

end SisProg.Ledger
