import Mathlib.Data.List.Basic
import Mathlib.Data.List.TakeWhile

/-!
# Words

The maximal runs of a list between separators, none of them empty.

* `words_eq_nil`: a list of separators has no words.
* `words_append_word`: the first word, and what follows it.
* `words_eq_cons_of_head`: the same, as a scan from the left finds them.
* `words_spec`: the words hold no separators, and everything else.
-/

namespace SisProg

variable {α : Type} {p : α → Bool}

/-- The maximal runs of elements that are no separators. -/
def words (p : α → Bool) (s : List α) : List (List α) :=
  (s.splitOnP p).filter (!·.isEmpty)

theorem words_append_sep {x : α} (h : p x = true) (s t : List α) :
    words p (s ++ x :: t) = words p s ++ words p t := by
  unfold words
  rw [List.splitOnP_append_cons _ _ h, List.filter_append]

theorem words_cons_sep {x : α} (h : p x = true) (s : List α) : words p (x :: s) = words p s :=
  words_append_sep h [] s

/-- Separators at the front do not matter. -/
theorem words_append_seps {s : List α} (h : ∀ x ∈ s, p x = true) (t : List α) :
    words p (s ++ t) = words p t := by
  induction s with
  | nil => rfl
  | cons x s ih =>
    rw [List.cons_append, words_cons_sep (h x List.mem_cons_self),
      ih fun y hy => h y (List.mem_cons_of_mem _ hy)]

theorem words_eq_nil {s : List α} (h : ∀ x ∈ s, p x = true) : words p s = [] := by
  have happ := words_append_seps h []
  rwa [List.append_nil] at happ

/-- Nor do separators at the end. -/
theorem words_append_seps_right {t : List α} (h : ∀ x ∈ t, p x = true) (s : List α) :
    words p (s ++ t) = words p s := by
  cases t with
  | nil => rw [List.append_nil]
  | cons x t =>
    rw [words_append_sep (h x List.mem_cons_self),
      words_eq_nil fun y hy => h y (List.mem_cons_of_mem _ hy), List.append_nil]

/-- A list without separators is one word. -/
theorem words_eq_singleton {s : List α} (hs : s ≠ []) (h : ∀ x ∈ s, p x = false) :
    words p s = [s] := by
  unfold words
  rw [List.splitOnP_eq_singleton h]
  simp [hs]

/-- The first word, with the separators before it, and the words after it. -/
theorem words_append_word {s w t : List α} (hs : ∀ x ∈ s, p x = true) (hw : w ≠ [])
    (hw' : ∀ x ∈ w, p x = false) {x : α} (hx : p x = true) :
    words p (s ++ w ++ x :: t) = w :: words p t := by
  rw [words_append_sep hx, words_append_seps hs, words_eq_singleton hw hw']
  rfl

/-- The first element that `dropWhile` keeps. -/
theorem not_of_dropWhile_eq_cons {s t : List α} {x : α} (h : s.dropWhile p = x :: t) :
    p x = false := by
  have hhead := List.head?_dropWhile_not p s
  rw [h] at hhead
  exact hhead

theorem words_dropWhile (s : List α) : words p (s.dropWhile p) = words p s := by
  have hseps : ∀ x ∈ s.takeWhile p, p x = true := fun x hx => List.mem_takeWhile_imp hx
  rw [← words_append_seps hseps, List.takeWhile_append_dropWhile]

/-- A list that begins with no separator begins with a word. -/
theorem words_eq_cons_of_head {s : List α} {x : α} (hx : p x = false) :
    words p (x :: s) = (x :: s.takeWhile (!p ·)) :: words p (s.dropWhile (!p ·)) := by
  have hword : (x :: s).takeWhile (!p ·) = x :: s.takeWhile (!p ·) := by simp [hx]
  have hno : ∀ y ∈ (x :: s).takeWhile (!p ·), p y = false := by
    intro y hy
    simpa using List.mem_takeWhile_imp hy
  have hsplit : x :: s = (x :: s).takeWhile (!p ·) ++ s.dropWhile (!p ·) := by
    rw [hword, List.cons_append, List.takeWhile_append_dropWhile]
  rw [hword] at hno hsplit
  cases hrest : s.dropWhile (!p ·) with
  | nil =>
    rw [hrest, List.append_nil] at hsplit
    rw [hsplit, words_eq_singleton (by simp) hno]
    rfl
  | cons y t =>
    have hy : p y = true := by simpa using not_of_dropWhile_eq_cons hrest
    rw [hrest] at hsplit
    rw [hsplit, words_append_sep hy, words_eq_singleton (by simp) hno, words_cons_sep hy]
    rfl

/-- No word is empty or has a separator in it, and together they are what the list has
besides separators. -/
theorem words_spec (s : List α) :
    (∀ w ∈ words p s, w ≠ [] ∧ ∀ x ∈ w, p x = false) ∧
      (words p s).flatten = s.filter (!p ·) := by
  induction hn : s.length using Nat.strong_induction_on generalizing s with
  | _ n ih =>
    cases s with
    | nil => exact ⟨by simp [words_eq_nil], by simp [words_eq_nil]⟩
    | cons x s =>
      have hlen : s.length < n := by rw [← hn]; exact Nat.lt_succ_self _
      cases hx : p x with
      | true =>
        obtain ⟨hwords, hflat⟩ := ih _ hlen s rfl
        rw [words_cons_sep hx]
        exact ⟨hwords, by rw [hflat, List.filter_cons_of_neg (by simp [hx])]⟩
      | false =>
        obtain ⟨hwords, hflat⟩ :=
          ih _ ((List.length_dropWhile_le _ _).trans_lt hlen) (s.dropWhile (!p ·)) rfl
        have hrun : ∀ y ∈ s.takeWhile (!p ·), p y = false := by
          intro y hy
          simpa using List.mem_takeWhile_imp hy
        rw [words_eq_cons_of_head hx]
        refine ⟨?_, ?_⟩
        · intro w hw
          rcases List.mem_cons.mp hw with rfl | hw
          · exact ⟨by simp, List.forall_mem_cons.mpr ⟨hx, hrun⟩⟩
          · exact hwords w hw
        · have hkeep : (s.takeWhile (!p ·)).filter (!p ·) = s.takeWhile (!p ·) := by
            rw [List.filter_eq_self]
            intro y hy
            simpa using hrun y hy
          have hsplit : s.takeWhile (!p ·) ++ s.dropWhile (!p ·) = s :=
            List.takeWhile_append_dropWhile
          rw [List.flatten_cons, hflat, List.filter_cons_of_pos (by simp [hx]), List.cons_append]
          conv_rhs => rw [← hsplit, List.filter_append, hkeep]

end SisProg
