import Mathlib.Logic.Relation

/-!
# Commands and what holds after them

A command relates the state before it to the states it may end in. One that has no end in a
state does not return from there. `each` runs a command for every entry of a list.

* `Triple P c Q`: from a state with `P`, the command ends only in states with `Q`.
* `Within c R`: the states before and after the command are related by `R`, which says what
  the command may change. What `R` keeps stays true (`Within.triple`).
* `Triple.each`, `Within.each`: the rules for a list. The invariant may speak of the entries
  that are done.
-/

namespace SisProg

/-- A command, by the states before and after it. -/
abbrev Command (σ : Type) := σ → σ → Prop

namespace Command

variable {σ α : Type} {P P' Q Q' R : σ → Prop} {c d : Command σ}

/-- One command after the other. -/
def seq (c d : Command σ) : Command σ := Relation.Comp c d

/-- The command `c a` for each `a` of a list, in order. -/
def each (c : α → Command σ) : List α → Command σ
  | [] => Eq
  | a :: as => seq (c a) (each c as)

def Triple (P : σ → Prop) (c : Command σ) (Q : σ → Prop) : Prop := ∀ s, P s → ∀ t, c s t → Q t

def Within (c : Command σ) (R : σ → σ → Prop) : Prop := ∀ s t, c s t → R s t

/-! ## Sequences -/

theorem each_append (c : α → Command σ) {as bs : List α} {s t : σ} :
    each c (as ++ bs) s t ↔ seq (each c as) (each c bs) s t := by
  induction as generalizing s with
  | nil =>
    constructor
    · intro h
      exact ⟨s, rfl, h⟩
    · rintro ⟨u, hu, h⟩
      obtain rfl : s = u := hu
      exact h
  | cons a as ih =>
    constructor
    · rintro ⟨u, hu, h⟩
      obtain ⟨v, hv, h⟩ := ih.mp h
      exact ⟨v, ⟨u, hu, hv⟩, h⟩
    · rintro ⟨v, ⟨u, hu, hv⟩, h⟩
      exact ⟨u, hu, ih.mpr ⟨v, hv, h⟩⟩

theorem each_singleton (c : α → Command σ) {a : α} {s t : σ} : each c [a] s t ↔ c a s t := by
  constructor
  · rintro ⟨u, hu, rfl⟩
    exact hu
  · intro h
    exact ⟨t, h, rfl⟩

/-! ## Rules -/

theorem Triple.conseq (h : Triple P c Q) (hP : ∀ s, P' s → P s) (hQ : ∀ s, Q s → Q' s) :
    Triple P' c Q' :=
  fun s hs t ht => hQ t (h s (hP s hs) t ht)

theorem Triple.seq (hc : Triple P c Q) (hd : Triple Q d R) : Triple P (seq c d) R := by
  rintro s hs t ⟨u, hu, ht⟩
  exact hd u (hc s hs u hu) t ht

theorem Triple.append {c : α → Command σ} {as bs : List α} (ha : Triple P (each c as) Q)
    (hb : Triple Q (each c bs) R) : Triple P (each c (as ++ bs)) R :=
  fun s hs t ht => ha.seq hb s hs t ((each_append c).mp ht)

theorem Triple.singleton {c : α → Command σ} {a : α} (h : Triple P (c a) Q) :
    Triple P (each c [a]) Q :=
  fun s hs t ht => h s hs t ((each_singleton c).mp ht)

theorem Triple.and (h : Triple P c Q) (h' : Triple P' c Q') :
    Triple (fun s => P s ∧ P' s) c fun t => Q t ∧ Q' t :=
  fun s hs t ht => ⟨h s hs.1 t ht, h' s hs.2 t ht⟩

/-- The rule for a list. What has been done so far is a prefix `done` of it. -/
theorem Triple.each {c : α → Command σ} {I : List α → σ → Prop} {as : List α}
    (h : ∀ done a rest, as = done ++ a :: rest → Triple (I done) (c a) (I (done ++ [a]))) :
    Triple (I []) (each c as) (I as) := by
  suffices hsuffix : ∀ rest done, as = done ++ rest → Triple (I done) (Command.each c rest) (I as)
    from hsuffix as [] rfl
  intro rest
  induction rest with
  | nil =>
    intro done has s hs t ht
    obtain rfl : s = t := ht
    rw [has, List.append_nil]
    exact hs
  | cons a rest ih =>
    intro done has
    refine (h done a rest has).seq (ih (done ++ [a]) ?_)
    rw [has, List.append_assoc, List.singleton_append]

/-! ## What a command may change -/

section

variable {F : σ → σ → Prop}

theorem Within.seq (htrans : ∀ s t u, F s t → F t u → F s u) (hc : Within c F)
    (hd : Within d F) : Within (seq c d) F := by
  rintro s t ⟨u, hu, ht⟩
  exact htrans s u t (hc s u hu) (hd u t ht)

theorem Within.each (hrefl : ∀ s, F s s) (htrans : ∀ s t u, F s t → F t u → F s u)
    {c : α → Command σ} {as : List α} (h : ∀ a ∈ as, Within (c a) F) :
    Within (Command.each c as) F := by
  induction as with
  | nil =>
    rintro s t rfl
    exact hrefl s
  | cons a as ih =>
    refine Within.seq htrans (h a List.mem_cons_self) ?_
    exact ih fun b hb => h b (List.mem_cons_of_mem a hb)

/-- The frame rule: what the changes of a command keep holds after it if it held before. -/
theorem Within.triple (h : Within c F) (hP : ∀ s t, P s → F s t → P t) : Triple P c P :=
  fun s hs t ht => hP s t hs (h s t ht)

end

end Command

end SisProg
