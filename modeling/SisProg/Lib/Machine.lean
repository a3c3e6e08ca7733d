import Mathlib.Data.List.Induction

/-!
# Guarded transition systems

A `Machine` has a guard and an effect for each action. Its executions are
labelled by the list of actions taken, so that a statement about a run can speak
about what happened (which task was pushed, which descriptor was read) and not
only about the last state.

* `Machine.Exec`, `Machine.Reachable`: executions and reachable states.
* `Machine.Since`: something was done, and nothing has undone it since.
* `Machine.Happened`: a step of the run met a condition on its state and action.
* `Machine.Reachable.induct`: an invariant holds at the start and is kept by
  every enabled action.
* `Machine.restrict`: the same machine, allowed only the steps that meet a
  condition. A condition on every step of a run is stated with it.
* `Machine.Simulation`: every step of a machine is a step of another one, or
  leaves the abstract state alone.
-/

namespace SisProg

/-- A transition system: `enabled s a` is the guard of the action `a` in the
state `s`, `next s a` its effect. -/
structure Machine (σ α : Type) where
  init : σ → Prop
  enabled : σ → α → Prop
  next : σ → α → σ

namespace Machine

variable {σ α τ β : Type} {M : Machine σ α} {A : Machine τ β}

/-- `M.Exec s as t`: the actions `as`, each enabled when it is taken, lead from
`s` to `t`. -/
inductive Exec (M : Machine σ α) (s : σ) : List α → σ → Prop
  | nil : Exec M s [] s
  | snoc {as : List α} {t : σ} {a : α} :
      Exec M s as t → M.enabled t a → Exec M s (as ++ [a]) (M.next t a)

/-- Some execution from an initial state ends in `t`. -/
def Reachable (M : Machine σ α) (t : σ) : Prop :=
  ∃ s as, M.init s ∧ M.Exec s as t

/-! ## Executions -/

theorem Exec.single {s : σ} {a : α} (h : M.enabled s a) : M.Exec s [a] (M.next s a) :=
  Exec.nil.snoc h

theorem Exec.append {s t u : σ} {as bs : List α} (h : M.Exec s as t) (h' : M.Exec t bs u) :
    M.Exec s (as ++ bs) u := by
  induction h' with
  | nil => simpa using h
  | snoc _ he ih =>
    rw [← List.append_assoc]
    exact ih.snoc he

theorem Exec.cons {s t : σ} {a : α} {as : List α} (he : M.enabled s a)
    (h : M.Exec (M.next s a) as t) : M.Exec s (a :: as) t :=
  (Exec.single he).append h

theorem Exec.of_snoc {s u : σ} {as : List α} {a : α} (h : M.Exec s (as ++ [a]) u) :
    ∃ t, M.Exec s as t ∧ M.enabled t a ∧ u = M.next t a := by
  generalize hbs : as ++ [a] = bs at h
  cases h with
  | nil => simp at hbs
  | @snoc cs t b hrun he =>
    obtain ⟨rfl, hab⟩ := List.append_inj' hbs rfl
    obtain rfl : a = b := by simpa using hab
    exact ⟨t, hrun, he, rfl⟩

/-- An execution can be split between any two of its actions. -/
theorem Exec.split {s u : σ} {as bs : List α} (h : M.Exec s (as ++ bs) u) :
    ∃ t, M.Exec s as t ∧ M.Exec t bs u := by
  induction bs using List.reverseRecOn generalizing u with
  | nil => exact ⟨u, by simpa using h, .nil⟩
  | append_singleton bs b ih =>
    rw [← List.append_assoc] at h
    obtain ⟨v, hv, he, rfl⟩ := h.of_snoc
    obtain ⟨t, hst, htv⟩ := ih hv
    exact ⟨t, hst, htv.snoc he⟩

/-- Each action of an execution is enabled in the state that the actions before it
lead to. -/
theorem Exec.enabled_of_cons {s u : σ} {as bs : List α} {a : α}
    (h : M.Exec s (as ++ a :: bs) u) :
    ∃ t, M.Exec s as t ∧ M.enabled t a ∧ M.Exec (M.next t a) bs u := by
  rw [List.append_cons] at h
  obtain ⟨v, hv, hvu⟩ := h.split
  obtain ⟨t, hst, he, rfl⟩ := hv.of_snoc
  exact ⟨t, hst, he, hvu⟩

theorem Exec.of_nil {s t : σ} (h : M.Exec s [] t) : t = s := by
  generalize has : ([] : List α) = as at h
  cases h with
  | nil => rfl
  | snoc _ _ => simp at has

theorem Exec.of_cons {s t : σ} {a : α} {as : List α} (h : M.Exec s (a :: as) t) :
    M.enabled s a ∧ M.Exec (M.next s a) as t := by
  obtain ⟨u, hu, he, hrest⟩ := @Exec.enabled_of_cons _ _ _ _ _ [] _ _ h
  obtain rfl := hu.of_nil
  exact ⟨he, hrest⟩

/-- The actions of an execution determine where it ends. -/
theorem Exec.unique {s t u : σ} {as : List α} (h : M.Exec s as t) (h' : M.Exec s as u) :
    t = u := by
  induction h generalizing u with
  | nil => exact h'.of_nil.symm
  | snoc _ _ ih =>
    obtain ⟨v, hv, -, rfl⟩ := h'.of_snoc
    rw [ih hv]

theorem Exec.reachable {s t : σ} {as : List α} (hs : M.init s) (h : M.Exec s as t) :
    M.Reachable t :=
  ⟨s, as, hs, h⟩

theorem Reachable.exec {s t : σ} {as : List α} (hs : M.Reachable s) (h : M.Exec s as t) :
    M.Reachable t := by
  obtain ⟨s₀, as₀, h₀, hrun⟩ := hs
  exact ⟨s₀, as₀ ++ as, h₀, hrun.append h⟩

theorem Reachable.next {s : σ} {a : α} (hs : M.Reachable s) (he : M.enabled s a) :
    M.Reachable (M.next s a) :=
  hs.exec (Exec.single he)

/-- The invariant rule. The state before the step may be assumed reachable, so
that invariants proved earlier can be used. -/
theorem Reachable.induct {P : σ → Prop} {t : σ} (h : M.Reachable t)
    (h₀ : ∀ s, M.init s → P s)
    (hstep : ∀ s a, M.Reachable s → P s → M.enabled s a → P (M.next s a)) : P t := by
  obtain ⟨s, as, hs, hrun⟩ := h
  induction hrun with
  | nil => exact h₀ s hs
  | snoc hrun he ih => exact hstep _ _ ⟨s, _, hs, hrun⟩ ih he

/-- The invariant rule for a part of a run that starts in any state. -/
theorem Exec.induct {P : σ → Prop} {s t : σ} {as : List α} (h : M.Exec s as t) (hs : P s)
    (hstep : ∀ s a, P s → M.enabled s a → P (M.next s a)) : P t := by
  induction h with
  | nil => exact hs
  | snoc _ he ih => exact hstep _ _ ih he

/-! ## The history of an execution -/

/-- An action with `p` was taken, and since then none with `q`. -/
def Since (p q : α → Prop) (as : List α) : Prop :=
  ∃ bs a cs, as = bs ++ a :: cs ∧ p a ∧ ∀ b ∈ cs, ¬ q b

theorem not_since_nil (p q : α → Prop) : ¬ Since p q [] := by
  rintro ⟨bs, a, cs, h, -⟩
  simp at h

theorem since_snoc {p q : α → Prop} {as : List α} {a : α} :
    Since p q (as ++ [a]) ↔ p a ∨ Since p q as ∧ ¬ q a := by
  constructor
  · rintro ⟨bs, b, cs, heq, hp, hq⟩
    rcases List.eq_nil_or_concat cs with rfl | ⟨cs, c, rfl⟩
    · obtain ⟨-, hab⟩ := List.append_inj' heq rfl
      obtain rfl : a = b := by simpa using hab
      exact .inl hp
    · rw [List.concat_eq_append, ← List.cons_append, ← List.append_assoc] at heq
      obtain ⟨rfl, hac⟩ := List.append_inj' heq rfl
      obtain rfl : a = c := by simpa using hac
      simp only [List.concat_eq_append, List.mem_append, List.mem_singleton] at hq
      exact .inr ⟨⟨bs, b, cs, rfl, hp, fun d hd => hq d (.inl hd)⟩, hq a (.inr rfl)⟩
  · rintro (hp | ⟨⟨bs, b, cs, rfl, hp, hq⟩, hqa⟩)
    · exact ⟨as, a, [], rfl, hp, by simp⟩
    · refine ⟨bs, b, cs ++ [a], by simp, hp, ?_⟩
      intro d hd
      rcases List.mem_append.mp hd with hd | hd
      · exact hq d hd
      · rw [List.mem_singleton.mp hd]
        exact hqa

/-- A step of the run from `s` meets `C`. -/
def Happened (M : Machine σ α) (C : σ → α → Prop) (s : σ) (as : List α) : Prop :=
  ∃ bs a cs t, as = bs ++ a :: cs ∧ M.Exec s bs t ∧ C t a

theorem not_happened_nil {C : σ → α → Prop} {s : σ} : ¬ M.Happened C s [] := by
  rintro ⟨bs, a, cs, t, h, -⟩
  simp at h

theorem happened_snoc {C : σ → α → Prop} {s t : σ} {as : List α} {a : α} (h : M.Exec s as t) :
    M.Happened C s (as ++ [a]) ↔ M.Happened C s as ∨ C t a := by
  constructor
  · rintro ⟨bs, b, cs, u, heq, hu, hC⟩
    rcases List.eq_nil_or_concat cs with rfl | ⟨cs, c, rfl⟩
    · obtain ⟨rfl, hab⟩ := List.append_inj' heq rfl
      obtain rfl := h.unique hu
      obtain rfl := List.singleton_inj.mp hab
      exact .inr hC
    · rw [List.concat_eq_append, ← List.cons_append, ← List.append_assoc] at heq
      exact .inl ⟨bs, b, cs, u, (List.append_inj' heq rfl).1, hu, hC⟩
  · rintro (⟨bs, b, cs, u, rfl, hu, hC⟩ | hC)
    · exact ⟨bs, b, cs ++ [a], u, by simp, hu, hC⟩
    · exact ⟨as, a, [], t, rfl, h, hC⟩

/-- What one more action adds to what is seen of a history. -/
theorem filterMap_snoc (f : α → Option β) (as : List α) (a : α) :
    (as ++ [a]).filterMap f = as.filterMap f ++ (f a).toList := by
  cases h : f a <;> simp [h]

/-! ## Running a machine on a list of actions -/

/-- Takes the actions in order, and stops with `none` at one that is not
enabled. -/
def run (M : Machine σ α) [∀ s a, Decidable (M.enabled s a)] (s : σ) : List α → Option σ
  | [] => some s
  | a :: as => if M.enabled s a then M.run (M.next s a) as else none

theorem exec_of_run [∀ s a, Decidable (M.enabled s a)] {s t : σ} {as : List α}
    (h : M.run s as = some t) : M.Exec s as t := by
  induction as generalizing s with
  | nil =>
    obtain rfl : s = t := by simpa [run] using h
    exact Exec.nil
  | cons a as ih =>
    by_cases he : M.enabled s a
    · exact Exec.cons he (ih (by simpa [run, he] using h))
    · simp [run, he] at h

theorem exec_run_get [∀ s a, Decidable (M.enabled s a)] {s : σ} {as : List α}
    (h : (M.run s as).isSome) : M.Exec s as ((M.run s as).get h) :=
  exec_of_run (Option.some_get h).symm

/-! ## Machines with a condition on their steps -/

/-- The runs of `M` all of whose steps meet `C`. -/
def restrict (M : Machine σ α) (C : σ → α → Prop) : Machine σ α where
  init := M.init
  enabled s a := M.enabled s a ∧ C s a
  next := M.next

theorem Exec.of_restrict {C : σ → α → Prop} {s t : σ} {as : List α}
    (h : (M.restrict C).Exec s as t) : M.Exec s as t := by
  induction h with
  | nil => exact Exec.nil
  | snoc _ he ih => exact ih.snoc he.1

theorem Reachable.of_restrict {C : σ → α → Prop} {t : σ} (h : (M.restrict C).Reachable t) :
    M.Reachable t := by
  obtain ⟨s, as, hs, hrun⟩ := h
  exact ⟨s, as, hs, hrun.of_restrict⟩

/-- A condition on the actions alone. -/
theorem exec_restrict_iff {C : α → Prop} {s t : σ} {as : List α} :
    (M.restrict fun _ a => C a).Exec s as t ↔ M.Exec s as t ∧ ∀ a ∈ as, C a := by
  constructor
  · intro h
    refine ⟨h.of_restrict, ?_⟩
    induction h with
    | nil => exact fun _ ha => absurd ha List.not_mem_nil
    | snoc _ he ih =>
      intro b hb
      rcases List.mem_append.mp hb with hb | hb
      · exact ih b hb
      · exact List.mem_singleton.mp hb ▸ he.2
  · rintro ⟨h, hC⟩
    induction h with
    | nil => exact Exec.nil
    | snoc _ he ih =>
      exact (ih fun b hb => hC b (List.mem_append_left _ hb)).snoc
        ⟨he, hC _ (List.mem_append_right _ List.mem_cons_self)⟩

/-- If every step that can be taken meets the condition, nothing is ruled out. -/
theorem Exec.to_restrict {C : σ → α → Prop} {s t : σ} {as : List α} (h : M.Exec s as t)
    (hs : M.init s) (hC : ∀ s a, (M.restrict C).Reachable s → M.enabled s a → C s a) :
    (M.restrict C).Exec s as t := by
  induction h with
  | nil => exact Exec.nil
  | snoc _ he ih => exact ih.snoc ⟨he, hC _ _ ⟨s, _, hs, ih⟩ he⟩

/-! ## Simulation -/

/-- `M` refines `A`: `abs` maps states and `label` the actions that `A` can see;
an action with no label leaves the abstract state as it is. -/
structure Simulation (M : Machine σ α) (A : Machine τ β) where
  abs : σ → τ
  label : α → Option β
  init : ∀ s, M.init s → A.init (abs s)
  silent : ∀ s a, M.enabled s a → label a = none → abs (M.next s a) = abs s
  visible : ∀ s a b, M.enabled s a → label a = some b →
    A.enabled (abs s) b ∧ abs (M.next s a) = A.next (abs s) b

/-- An execution of the concrete machine is, seen through `abs` and `label`, an
execution of the abstract one. -/
theorem Simulation.exec (S : Simulation M A) {s t : σ} {as : List α} (h : M.Exec s as t) :
    A.Exec (S.abs s) (as.filterMap S.label) (S.abs t) := by
  induction h with
  | nil => exact Exec.nil
  | @snoc as t a _ he ih =>
    rw [List.filterMap_append]
    cases hl : S.label a with
    | none =>
      rw [S.silent t a he hl]
      simpa [hl] using ih
    | some b =>
      obtain ⟨hb, hnext⟩ := S.visible t a b he hl
      rw [hnext]
      simpa [hl] using ih.snoc hb

theorem Simulation.reachable (S : Simulation M A) {s : σ} (h : M.Reachable s) :
    A.Reachable (S.abs s) := by
  obtain ⟨s₀, as, hs₀, hrun⟩ := h
  exact ⟨_, _, S.init s₀ hs₀, S.exec hrun⟩

end Machine

end SisProg
