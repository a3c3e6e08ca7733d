import Mathlib.Data.List.ReduceOption

/-!
# Programs that may fail

`ExceptT ε (StateM σ)` is the monad of code that changes a state and may throw. What
it has changed before it throws stays changed. The two rules for a sequence of steps
are `bind_ok` and `bind_error`.

A function with an `Option` may be mapped over a list. Two of them have the same results
there, all defined, if they have for each element (`mapM_both_iff`). This is so for what
is left of the results too, if it tells from which element it comes
(`reduceOption_both_iff`).
-/

namespace SisProg.Fallible

variable {ε σ α β : Type}

section

variable {x : ExceptT ε (StateM σ) α} {f : α → ExceptT ε (StateM σ) β} {s t : σ}

theorem bind_ok {a : α} (h : x s = (.ok a, t)) : (x >>= f) s = f a t := by
  simp [bind, ExceptT.bind, ExceptT.mk, ExceptT.bindCont, StateT.bind, h]

theorem bind_error {e : ε} (h : x s = (.error e, t)) : (x >>= f) s = (.error e, t) := by
  simp [bind, ExceptT.bind, ExceptT.mk, ExceptT.bindCont, StateT.bind, h]
  rfl

end

/-! ## Lists of results -/

theorem mapM_eq_some_iff {f : α → Option β} {l : List α} {r : List β} :
    l.mapM f = some r ↔ l.map f = r.map some := by
  induction l generalizing r with
  | nil => cases r <;> simp
  | cons a l ih =>
    rw [List.mapM_cons, List.map_cons]
    cases hf : f a with
    | none => cases r <;> simp
    | some b =>
      cases hl : l.mapM f with
      | none =>
        refine iff_of_false nofun fun h => ?_
        cases r with
        | nil => cases h
        | cons c r =>
          have htail := ih.mpr (List.cons.inj h).2
          rw [hl] at htail
          cases htail
      | some bs =>
        have hmap := ih.mp hl
        rw [hmap, ← List.map_cons, List.map_inj_right fun _ _ h => Option.some.inj h]
        exact Option.some_inj

/-- Two functions have the same results on a list, all defined. -/
theorem mapM_both_iff {f g : α → Option β} {l : List α} :
    (∃ r, l.mapM f = some r ∧ l.mapM g = some r) ↔
      ∀ a ∈ l, ∃ b, f a = some b ∧ g a = some b := by
  simp only [mapM_eq_some_iff]
  constructor
  · rintro ⟨r, hf, hg⟩ a ha
    have hmem : f a ∈ r.map some := hf ▸ List.mem_map_of_mem ha
    obtain ⟨b, -, hb⟩ := List.mem_map.mp hmem
    exact ⟨b, hb.symm, (List.map_inj_left.mp (hg.trans hf.symm) a ha).trans hb.symm⟩
  · intro h
    induction l with
    | nil => exact ⟨[], rfl, rfl⟩
    | cons a l ih =>
      obtain ⟨b, hf, hg⟩ := h a List.mem_cons_self
      obtain ⟨r, hfs, hgs⟩ := ih fun a' ha' => h a' (List.mem_cons_of_mem _ ha')
      refine ⟨b :: r, ?_, ?_⟩
      · rw [List.map_cons, hf, hfs, List.map_cons]
      · rw [List.map_cons, hg, hgs, List.map_cons]

section

variable {f g : α → Option (Option β)} {key : β → α} {l : List α}

/-- What one function has got for an element, the other has too. -/
theorem result_of_reduceOption_eq {rf rg : List (Option β)} (hf : l.map f = rf.map some)
    (hg : l.map g = rg.map some) (hkeyf : ∀ a b, f a = some (some b) → key b = a)
    (hkeyg : ∀ a b, g a = some (some b) → key b = a) (heq : rf.reduceOption = rg.reduceOption)
    {a : α} (ha : a ∈ l) {b : β} (hb : f a = some (some b)) : g a = some (some b) := by
  have hrf : some (some b) ∈ rf.map some := hf ▸ hb ▸ List.mem_map_of_mem ha
  have hin : b ∈ rg.reduceOption := by
    rw [← heq, List.reduceOption_mem_iff]
    simpa using hrf
  have hrg : some (some b) ∈ l.map g := by
    rw [hg]
    exact List.mem_map_of_mem (List.reduceOption_mem_iff.mp hin)
  obtain ⟨a', -, hb'⟩ := List.mem_map.mp hrg
  rwa [← hkeyf a b hb, hkeyg a' b hb']

/-- The same for functions that may have nothing for an element: `key` is the element that
a result belongs to. -/
theorem reduceOption_both_iff (hkeyf : ∀ a b, f a = some (some b) → key b = a)
    (hkeyg : ∀ a b, g a = some (some b) → key b = a) :
    (∃ r, (l.mapM f).map List.reduceOption = some r ∧ (l.mapM g).map List.reduceOption = some r) ↔
      ∀ a ∈ l, ∃ o, f a = some o ∧ g a = some o := by
  constructor
  · rintro ⟨r, hmapf, hmapg⟩ a ha
    obtain ⟨rf, hf, rfl⟩ := Option.map_eq_some_iff.mp hmapf
    obtain ⟨rg, hg, heq⟩ := Option.map_eq_some_iff.mp hmapg
    rw [mapM_eq_some_iff] at hf hg
    have hmemf : f a ∈ rf.map some := hf ▸ List.mem_map_of_mem ha
    have hmemg : g a ∈ rg.map some := hg ▸ List.mem_map_of_mem ha
    obtain ⟨of, -, hof⟩ := List.mem_map.mp hmemf
    obtain ⟨og, -, hog⟩ := List.mem_map.mp hmemg
    have hsame : of = og := by
      refine Option.ext fun b => ⟨?_, ?_⟩
      · rintro rfl
        exact Option.some.inj (hog.trans
          (result_of_reduceOption_eq hf hg hkeyf hkeyg heq.symm ha hof.symm))
      · rintro rfl
        exact Option.some.inj (hof.trans
          (result_of_reduceOption_eq hg hf hkeyg hkeyf heq ha hog.symm))
    exact ⟨of, hof.symm, hsame ▸ hog.symm⟩
  · intro h
    obtain ⟨r, hf, hg⟩ := mapM_both_iff.mpr h
    refine ⟨r.reduceOption, ?_, ?_⟩
    · rw [hf, Option.map_some]
    · rw [hg, Option.map_some]

end

end SisProg.Fallible
