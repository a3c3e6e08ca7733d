import Mathlib.Algebra.BigOperators.Group.Finset.Basic
import Mathlib.Algebra.BigOperators.Group.Finset.Piecewise
import Mathlib.Logic.Function.Basic
import Mathlib.Tactic.Abel

/-!
# Families of threads

The states of all threads are a function `f`, and a step of the thread `i` updates it at
`i`. Two things that every model of threads needs: how a sum over all threads changes,
and that a mutex is held by the one thread that is inside.

* `sum_update_add`: the sum after a step.
* `Exclusive`: the owner of the mutex is the thread inside; kept by a step that stays on
  its side of the lock, by the one that takes it and by the one that releases it.
* `Guarded`: moreover what the thread inside has seen of the shared value is still so.
-/

namespace SisProg

/-- A thread of one side is not one of the other. -/
theorem ne_of_other_side {ι : Type} {side : ι → Bool} {k w : ι} (h : side w = !side k) : w ≠ k :=
  fun heq => (Bool.eq_not_self _).mp (heq ▸ h)

/-! ## Sums -/

section

variable {ι σ N : Type} [Fintype ι] [DecidableEq ι] [AddCommMonoid N]

/-- A sum over all threads, when one of them changes its state. The weight may depend on
the thread. -/
theorem sum_update_add_of_index (w : ι → σ → N) (f : ι → σ) (i : ι) (x : σ) :
    ∑ k, w k (Function.update f i x k) + w i (f i) = ∑ k, w k (f k) + w i x := by
  have hrest : ∑ k ∈ Finset.univ.erase i, w k (Function.update f i x k)
      = ∑ k ∈ Finset.univ.erase i, w k (f k) :=
    Finset.sum_congr rfl fun k hk => by
      rw [Function.update_of_ne (Finset.ne_of_mem_erase hk)]
  rw [← Finset.add_sum_erase _ _ (Finset.mem_univ i),
    ← Finset.add_sum_erase _ (fun k => w k (f k)) (Finset.mem_univ i), hrest,
    Function.update_self]
  abel

theorem sum_update_add (w : σ → N) (f : ι → σ) (i : ι) (x : σ) :
    ∑ k, w (Function.update f i x k) + w (f i) = ∑ k, w (f k) + w x :=
  sum_update_add_of_index (fun _ => w) f i x

end

/-! ## The mutex -/

section

variable {ι σ : Type} {inside : σ → Bool} {owner : Option ι} {f : ι → σ} {i k : ι} {x : σ}

/-- The mutex is held exactly by the thread that is inside. -/
def Exclusive (inside : σ → Bool) (owner : Option ι) (f : ι → σ) : Prop :=
  ∀ k, owner = some k ↔ inside (f k) = true

theorem Exclusive.alone (h : Exclusive inside owner f) (hi : inside (f i) = true)
    (hk : inside (f k) = true) : k = i :=
  Option.some.inj (((h k).mpr hk).symm.trans ((h i).mpr hi))

/-- Nobody else is inside. -/
theorem Exclusive.outside (h : Exclusive inside owner f) (hi : inside (f i) = true)
    (hne : k ≠ i) : inside (f k) = false := by
  by_contra hk
  exact hne (h.alone hi (Bool.eq_true_of_not_eq_false hk))

/-- While the mutex is free, nobody is inside. -/
theorem Exclusive.outside_of_free (h : Exclusive inside none f) (k : ι) : inside (f k) = false := by
  by_contra hk
  cases (h k).mpr (Bool.eq_true_of_not_eq_false hk)

/-- If nobody is inside, the mutex is free. -/
theorem Exclusive.free (h : Exclusive inside owner f) (hout : ∀ k, inside (f k) = false) :
    owner = none := by
  refine Option.eq_none_iff_forall_ne_some.mpr fun k howner => ?_
  have hin := (h k).mp howner
  rw [hout] at hin
  cases hin

theorem Exclusive.congr {g : ι → σ} (h : Exclusive inside owner f)
    (hg : ∀ k, inside (g k) = inside (f k)) : Exclusive inside owner g :=
  fun k => by rw [hg]; exact h k

variable [DecidableEq ι]

/-- A step that stays inside, or stays outside. -/
theorem Exclusive.keep (h : Exclusive inside owner f) (hx : inside x = inside (f i)) :
    Exclusive inside owner (Function.update f i x) := by
  refine h.congr fun k => ?_
  rw [Function.update_apply]
  split
  · next hk => rw [hx, hk]
  · rfl

theorem Exclusive.acquire (h : Exclusive inside none f) (hx : inside x = true) :
    Exclusive inside (some i) (Function.update f i x) := by
  intro k
  rw [Function.update_apply]
  split
  · next hk => simp [hk, hx]
  · next hk =>
    have hout : inside (f k) = false := by
      by_contra hin
      cases (h k).mpr (Bool.eq_true_of_not_eq_false hin)
    simp [hout, Ne.symm hk]

theorem Exclusive.release (h : Exclusive inside owner f) (hi : inside (f i) = true)
    (hx : inside x = false) : Exclusive inside none (Function.update f i x) := by
  intro k
  rw [Function.update_apply]
  split
  · simp [hx]
  · next hk => simp [h.outside hi hk]

end

/-! ## What the thread inside knows -/

section

variable {ι σ β : Type} {inside : σ → Bool} {sees : ι → σ → β → Prop} {owner : Option ι}
  {f g : ι → σ} {i : ι} {x : σ} {b : β}

/-- The mutex is held by the thread inside, and what each thread has seen of the shared
value `b` is so. -/
structure Guarded (inside : σ → Bool) (sees : ι → σ → β → Prop) (owner : Option ι) (f : ι → σ)
    (b : β) : Prop where
  mutex : Exclusive inside owner f
  sees : ∀ k, sees k (f k) b

theorem Guarded.congr (h : Guarded inside sees owner f b)
    (hinside : ∀ k, inside (g k) = inside (f k)) (hsees : ∀ k, sees k (g k) b) :
    Guarded inside sees owner g b :=
  ⟨h.mutex.congr hinside, hsees⟩

variable [DecidableEq ι]

theorem sees_update (h : ∀ k, sees k (f k) b) (hx : sees i x b) (k : ι) :
    sees k (Function.update f i x k) b := by
  rw [Function.update_apply]
  split
  · next hk => rw [hk]; exact hx
  · exact h k

theorem Guarded.keep (h : Guarded inside sees owner f b) (hinside : inside x = inside (f i))
    (hx : sees i x b) : Guarded inside sees owner (Function.update f i x) b :=
  ⟨h.mutex.keep hinside, sees_update h.sees hx⟩

theorem Guarded.acquire (h : Guarded inside sees none f b) (hinside : inside x = true)
    (hx : sees i x b) : Guarded inside sees (some i) (Function.update f i x) b :=
  ⟨h.mutex.acquire hinside, sees_update h.sees hx⟩

theorem Guarded.release (h : Guarded inside sees owner f b) (hi : inside (f i) = true)
    (hinside : inside x = false) (hx : sees i x b) :
    Guarded inside sees none (Function.update f i x) b :=
  ⟨h.mutex.release hi hinside, sees_update h.sees hx⟩

/-- The thread inside changes the shared value. Those outside know nothing of it. -/
theorem Guarded.change {b' : β} (h : Guarded inside sees owner f b) (hi : inside (f i) = true)
    (hinside : inside x = true) (hout : ∀ k y, inside y = false → sees k y b')
    (hx : sees i x b') : Guarded inside sees owner (Function.update f i x) b' := by
  refine ⟨h.mutex.keep (hinside.trans hi.symm), fun k => ?_⟩
  rw [Function.update_apply]
  split
  · next hk => rw [hk]; exact hx
  · next hk => exact hout k _ (h.mutex.outside hi hk)

end

end SisProg
