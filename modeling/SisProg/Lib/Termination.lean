import SisProg.Lib.Machine

/-!
# Runs that end

A measure that every step decreases bounds the length of a run. If in addition some step can
be taken until a final state is reached, a final state is reached; and in any case one in
which no step can be taken (`exists_stopped`). Where some step can always be taken there is no
such bound (`exists_run_of_length`).

Where some steps increase the measure, each of them is given its cost, and the length of a run
is bounded by the measure and what its steps cost (`DecreasesBut.length_le`). Without those
steps a final state is reached (`DecreasesBut.exists_final`).
-/

namespace SisProg.Machine

variable {σ α : Type} {M : Machine σ α} {I F : σ → Prop} {μ : σ → Nat} {s t : σ} {as : List α}

/-- Each step keeps the invariant and decreases the measure. -/
def Decreases (M : Machine σ α) (I : σ → Prop) (μ : σ → Nat) : Prop :=
  ∀ s a, I s → M.enabled s a → I (M.next s a) ∧ μ (M.next s a) < μ s

theorem Decreases.restrict (h : M.Decreases I μ) (C : σ → α → Prop) :
    (M.restrict C).Decreases I μ :=
  fun s a hs he => h s a hs he.1

theorem Decreases.run (h : M.Decreases I μ) (hs : I s) (hrun : M.Exec s as t) :
    I t ∧ as.length + μ t ≤ μ s := by
  induction hrun with
  | nil => exact ⟨hs, by simp⟩
  | @snoc as t a _ he ih =>
    obtain ⟨ht, hle⟩ := ih
    obtain ⟨hnext, hlt⟩ := h t a ht he
    refine ⟨hnext, ?_⟩
    rw [List.length_append, List.length_singleton]
    omega

theorem Decreases.length_le (h : M.Decreases I μ) (hs : I s) (hrun : M.Exec s as t) :
    as.length ≤ μ s :=
  Nat.le_trans (Nat.le_add_right _ _) (h.run hs hrun).2

/-- The induction is on the measure. -/
theorem Decreases.exists_final (h : M.Decreases I μ)
    (hgo : ∀ s, I s → ¬ F s → ∃ a, M.enabled s a) (hs : I s) :
    ∃ as t, M.Exec s as t ∧ F t := by
  induction hn : μ s using Nat.strongRecOn generalizing s with
  | ind n ih =>
    subst hn
    by_cases hF : F s
    · exact ⟨[], s, .nil, hF⟩
    · obtain ⟨a, he⟩ := hgo s hs hF
      obtain ⟨hnext, hlt⟩ := h s a hs he
      obtain ⟨as, t, hrun, ht⟩ := ih _ hlt hnext rfl
      exact ⟨a :: as, t, .cons he hrun, ht⟩

/-- Some run goes on until no step is left. -/
theorem Decreases.exists_stopped (h : M.Decreases I μ) (hs : I s) :
    ∃ as t, M.Exec s as t ∧ ∀ a, ¬ M.enabled t a := by
  refine h.exists_final (F := fun t => ∀ a, ¬ M.enabled t a) ?_ hs
  intro t _ hnot
  obtain ⟨a, ha⟩ := not_forall.mp hnot
  exact ⟨a, not_not.mp ha⟩

/-- Where some step can always be taken, there are runs of any length. -/
theorem exists_run_of_length (hgo : ∀ s, I s → ∃ a, M.enabled s a ∧ I (M.next s a)) (hs : I s)
    (n : Nat) : ∃ as t, M.Exec s as t ∧ as.length = n := by
  induction n generalizing s with
  | zero => exact ⟨[], s, .nil, rfl⟩
  | succ n ih =>
    obtain ⟨a, he, hnext⟩ := hgo s hs
    obtain ⟨as, t, hrun, hlength⟩ := ih hnext
    exact ⟨a :: as, t, .cons he hrun, by rw [List.length_cons, hlength]⟩

/-! ## Steps that cost something -/

/-- Each step keeps the invariant, and decreases the measure up to its cost. -/
def DecreasesBut (M : Machine σ α) (cost : α → Nat) (I : σ → Prop) (μ : σ → Nat) : Prop :=
  ∀ s a, I s → M.enabled s a → I (M.next s a) ∧ μ (M.next s a) + 1 ≤ μ s + cost a

/-- What the steps of a run cost. -/
def totalCost (cost : α → Nat) : List α → Nat
  | [] => 0
  | a :: as => cost a + totalCost cost as

theorem totalCost_snoc (cost : α → Nat) (as : List α) (a : α) :
    totalCost cost (as ++ [a]) = totalCost cost as + cost a := by
  induction as with
  | nil => simp [totalCost]
  | cons b as ih =>
    rw [List.cons_append, totalCost, totalCost, ih]
    omega

variable {cost : α → Nat}

theorem DecreasesBut.run (h : M.DecreasesBut cost I μ) (hs : I s) (hrun : M.Exec s as t) :
    I t ∧ as.length + μ t ≤ μ s + totalCost cost as := by
  induction hrun with
  | nil => exact ⟨hs, by simp⟩
  | @snoc as t a _ he ih =>
    obtain ⟨ht, hle⟩ := ih
    obtain ⟨hnext, hcost⟩ := h t a ht he
    refine ⟨hnext, ?_⟩
    rw [List.length_append, List.length_singleton, totalCost_snoc]
    omega

theorem DecreasesBut.length_le (h : M.DecreasesBut cost I μ) (hs : I s) (hrun : M.Exec s as t) :
    as.length ≤ μ s + totalCost cost as :=
  Nat.le_trans (Nat.le_add_right _ _) (h.run hs hrun).2

/-- Without the steps that cost something the measure decreases. -/
theorem DecreasesBut.free (h : M.DecreasesBut cost I μ) :
    (M.restrict fun _ a => cost a = 0).Decreases I μ := by
  intro s a hs he
  obtain ⟨hnext, hcost⟩ := h s a hs he.1
  rw [he.2] at hcost
  exact ⟨hnext, hcost⟩

theorem DecreasesBut.exists_final (h : M.DecreasesBut cost I μ)
    (hgo : ∀ s, I s → ¬ F s → ∃ a, M.enabled s a ∧ cost a = 0) (hs : I s) :
    ∃ as t, M.Exec s as t ∧ totalCost cost as = 0 ∧ F t := by
  obtain ⟨as, t, hrun, ht⟩ := h.free.exists_final hgo hs
  refine ⟨as, t, hrun.of_restrict, ?_, ht⟩
  clear ht
  induction hrun with
  | nil => rfl
  | snoc _ he ih => rw [totalCost_snoc, ih, he.2]

/-- The same, until every step that is left costs something. -/
theorem DecreasesBut.exists_stopped (h : M.DecreasesBut cost I μ) (hs : I s) :
    ∃ as t, M.Exec s as t ∧ totalCost cost as = 0 ∧ ∀ a, M.enabled t a → cost a ≠ 0 := by
  refine h.exists_final (F := fun t => ∀ a, M.enabled t a → cost a ≠ 0) ?_ hs
  intro t _ hnot
  obtain ⟨a, ha⟩ := not_forall.mp hnot
  obtain ⟨he, hcost⟩ := Classical.not_imp.mp ha
  exact ⟨a, he, not_not.mp hcost⟩

end SisProg.Machine
