import SisProg.Lib.Bytes
import SisProg.Lib.Machine

/-!
# The raw terminal

`set_tty` of `terminal/p2.c` puts the terminal into raw mode with a timer: a `read` that
finds no input returns `0` after a second. `process_term` reads one byte after the other
and writes something for each key, until it reads `'q'`.

The loop tests the result of `read` for an error only. On a timeout the `switch` runs as
well, on what the variable `c_in` has from before: the last key, or whatever its memory
held when there was none yet.

* `exec_keys`, `exec_silence`: what the loop writes on keys, and while no key arrives.
* `reactsOnce_iff`: it reacts once to each key exactly if no read times out.
* `reactsOnce_of_waits`: it always would on a terminal whose reads wait for input.
-/

namespace SisProg.Terminal

open Bytes (ascii)

/-- The settings of a terminal that the program changes. -/
structure Termios where
  echo : Bool
  echonl : Bool
  icanon : Bool
  isig : Bool
  vmin : UInt8
  vtime : UInt8
deriving DecidableEq

/-- The copy `raw` of the original settings, as `set_tty` changes it. -/
def Termios.raw (orig : Termios) : Termios :=
  { orig with echo := false, echonl := false, icanon := false, isig := false,
              vmin := 0, vtime := 10 }

/-- `set_tty`: the settings from then on, or the message that the program ends with. -/
def setTty (origTermios : Termios) (accepted : Bool) : Except Bytes Termios :=
  if accepted then .ok origTermios.raw else .error (ascii "cannot set raw mode")

/-- After how many tenths of a second a read that finds no input returns `0`. Without a
timer it waits. -/
def Termios.timer (tty : Termios) : Option UInt8 :=
  if tty.icanon = false ∧ tty.vmin = 0 then some tty.vtime else none

/-- What `read(ttyfd, &c_in, 1)` does: it returns `-1`, or `0`, or `1` with a byte. -/
inductive ReadResult
  | error
  | empty
  | byte (c : UInt8)
deriving DecidableEq

/-- What a read may do. A canonical terminal also has an end of file. -/
def Termios.Returns (tty : Termios) : ReadResult → Prop
  | .empty => tty.icanon = true ∨ tty.timer.isSome = true
  | _ => True

instance (tty : Termios) : DecidablePred tty.Returns
  | .error => isTrue trivial
  | .empty => inferInstanceAs (Decidable (_ ∨ _))
  | .byte _ => isTrue trivial

/-- Where control is: in the loop, behind `return 0`, or in `fatal`. -/
inductive Control
  | looping
  | returned
  | fatal (msg : Bytes)
deriving DecidableEq

/-- `process_term`, between two reads: its variable and the buffers written so far. -/
structure TermLoop where
  cIn : UInt8
  writes : List Bytes
  control : Control
deriving DecidableEq

def quit : UInt8 := 'q'.toUInt8

def up : Bytes := 27 :: ascii "[A"
def down : Bytes := 27 :: ascii "[B"

/-- What the arms of the `switch` write, that of `'q'` apart. -/
def output (c : UInt8) : Bytes :=
  if c = 'z'.toUInt8 then ascii "Z"
  else if c = 'u'.toUInt8 then up
  else if c = 'd'.toUInt8 then down
  else if c = 'c'.toUInt8 then 27 :: ascii "[1;34m"
  else ascii "*"

/-- The `switch` on `c_in`. -/
def TermLoop.switch (s : TermLoop) : TermLoop :=
  if s.cIn = quit then { s with control := .returned }
  else { s with writes := s.writes ++ [output s.cIn] }

/-- One round of the loop. -/
def TermLoop.iteration (s : TermLoop) : ReadResult → TermLoop
  | .error => { s with control := .fatal (ascii "read error") }
  | .empty => s.switch
  | .byte c => TermLoop.switch { s with cIn := c }

/-- The loop before its first read; `c` is what the memory of `c_in` holds. -/
def TermLoop.start (c : UInt8) : TermLoop := ⟨c, [], .looping⟩

/-- `process_term`. A step is a read and what is done with its result. -/
def processTerm (tty : Termios) : Machine TermLoop ReadResult where
  init s := ∃ c, s = TermLoop.start c
  enabled s r := s.control = .looping ∧ tty.Returns r
  next := TermLoop.iteration

instance (tty : Termios) (s : TermLoop) (r : ReadResult) :
    Decidable ((processTerm tty).enabled s r) :=
  inferInstanceAs (Decidable (_ ∧ _))

/-- The byte that a read has read. -/
def ReadResult.key : ReadResult → Option UInt8
  | .byte c => some c
  | _ => none

/-- The bytes read before the first `'q'`. -/
def keys (rs : List ReadResult) : Bytes := (rs.filterMap ReadResult.key).takeWhile (· ≠ quit)

/-- One reaction to each key. Whenever `process_term` has made some of the reads `rs`, it has
written the outputs of the keys before the first `'q'`, and has returned if there was one. -/
def ReactsOnce (tty : Termios) (c : UInt8) (rs : List ReadResult) : Prop :=
  ∀ bs s, bs <+: rs → (processTerm tty).Exec (TermLoop.start c) bs s →
    s.writes = (keys bs).map output ∧ (s.control = .returned ↔ .byte quit ∈ bs)

/-- The loop goes on after these. -/
def ReadResult.goesOn (r : ReadResult) : Bool := r != .byte quit && r != .error

/-! ## One round -/

@[simp] theorem next_processTerm (tty : Termios) (s : TermLoop) (r : ReadResult) :
    (processTerm tty).next s r = s.iteration r := rfl

@[simp] theorem iteration_empty (s : TermLoop) : s.iteration .empty = s.switch := rfl

@[simp] theorem iteration_key {s : TermLoop} {c : UInt8} (hc : c ≠ quit) :
    s.iteration (.byte c) = { s with cIn := c, writes := s.writes ++ [output c] } :=
  if_neg hc

@[simp] theorem switch_key {s : TermLoop} (hc : s.cIn ≠ quit) :
    s.switch = { s with writes := s.writes ++ [output s.cIn] } :=
  if_neg hc

/-- Whatever the `switch` finds, something happens. -/
theorem switch_cases (s : TermLoop) :
    s.switch.control = .returned ∨ s.switch.writes = s.writes ++ [output s.cIn] := by
  by_cases hc : s.cIn = quit
  · exact .inl (by simp [TermLoop.switch, hc])
  · exact .inr (by simp [hc])

/-- With the timer of `set_tty` any result is possible. -/
theorem returns_raw (orig : Termios) (r : ReadResult) : orig.raw.Returns r := by
  cases r with
  | empty => exact .inr rfl
  | _ => trivial

/-- Without a timer a raw terminal waits for a key. -/
theorem not_returns_empty {tty : Termios} (hraw : tty.icanon = false) (hmin : tty.vmin ≠ 0) :
    ¬ tty.Returns .empty := by
  simp [Termios.Returns, Termios.timer, hraw, hmin]

/-! ## Keys and silence -/

/-- Each key is answered. -/
theorem exec_keys {tty : Termios} {s : TermLoop} (hs : s.control = .looping) {ks : Bytes}
    (hks : quit ∉ ks) :
    ∃ c, (processTerm tty).Exec s (ks.map .byte)
      { s with cIn := c, writes := s.writes ++ ks.map output } := by
  induction ks using List.reverseRecOn with
  | nil => exact ⟨s.cIn, by simpa using Machine.Exec.nil⟩
  | append_singleton ks k ih =>
    obtain ⟨hks, hk⟩ : quit ∉ ks ∧ k ≠ quit := by simpa [eq_comm] using hks
    obtain ⟨c, hrun⟩ := ih hks
    have hnext := hrun.snoc (show (processTerm tty).enabled _ (.byte k) from ⟨hs, trivial⟩)
    rw [next_processTerm, iteration_key hk] at hnext
    exact ⟨k, by simpa using hnext⟩

/-- While no key arrives, the last one is answered again at each timeout. -/
theorem exec_silence (orig : Termios) {s : TermLoop} (hs : s.control = .looping)
    (hc : s.cIn ≠ quit) (n : Nat) :
    (processTerm orig.raw).Exec s (List.replicate n .empty)
      { s with writes := s.writes ++ List.replicate n (output s.cIn) } := by
  induction n with
  | zero => simpa using Machine.Exec.nil
  | succ n ih =>
    have hnext := ih.snoc ⟨hs, returns_raw orig .empty⟩
    rw [List.replicate_succ', List.replicate_succ']
    simpa [hc] using hnext

example : ((processTerm (Termios.raw ⟨true, false, true, true, 1, 0⟩)).run (TermLoop.start 0)
    [.byte 'z'.toUInt8, .empty, .byte 'q'.toUInt8]).map TermLoop.writes =
      some [ascii "Z", ascii "Z"] := by
  decide

/-! ## One reaction to each key -/

@[simp] theorem keys_map_byte {ks : Bytes} (hks : quit ∉ ks) (rs : List ReadResult) :
    keys (ks.map .byte ++ rs) = ks ++ keys rs := by
  have hmap : (ks.map ReadResult.byte).filterMap ReadResult.key = ks := by
    rw [List.filterMap_map]
    exact List.filterMap_some
  rw [keys, List.filterMap_append, hmap, List.takeWhile_append_of_pos, keys]
  intro k hk
  simpa using ne_of_mem_of_not_mem hk hks

/-- What a run without timeouts looks like: keys, and perhaps a `'q'` or an error. -/
inductive Answered : List ReadResult → TermLoop → Prop
  | looping {c : UInt8} {ks : Bytes} (noQuit : quit ∉ ks) :
      Answered (ks.map .byte) ⟨c, ks.map output, .looping⟩
  | returned {c : UInt8} {ks : Bytes} (noQuit : quit ∉ ks) :
      Answered (ks.map .byte ++ [.byte quit]) ⟨c, ks.map output, .returned⟩
  | fatal {c : UInt8} {ks msg : Bytes} (noQuit : quit ∉ ks) :
      Answered (ks.map .byte ++ [.error]) ⟨c, ks.map output, .fatal msg⟩

/-- While the loop runs, all reads so far have been keys. -/
theorem Answered.keys_of_looping {bs : List ReadResult} {s : TermLoop} (h : Answered bs s)
    (hs : s.control = .looping) :
    ∃ (ks : Bytes) (c : UInt8), quit ∉ ks ∧ bs = ks.map .byte ∧
      s = ⟨c, ks.map output, .looping⟩ := by
  cases h with
  | @looping c ks hks => exact ⟨ks, c, hks, rfl, rfl⟩
  | returned => cases hs
  | fatal => cases hs

/-- Any read but a timeout keeps it so. -/
theorem Answered.snoc {bs : List ReadResult} {s : TermLoop} {r : ReadResult}
    (h : Answered bs s) (hs : s.control = .looping) (hr : r ≠ .empty) :
    Answered (bs ++ [r]) (s.iteration r) := by
  obtain ⟨ks, c, hks, rfl, rfl⟩ := h.keys_of_looping hs
  cases r with
  | error => exact Answered.fatal hks
  | empty => exact absurd rfl hr
  | byte k =>
    by_cases hk : k = quit
    · subst hk
      exact Answered.returned hks
    · have hmem : quit ∉ ks ++ [k] := by simp [hks, Ne.symm hk]
      rw [iteration_key hk]
      simpa using Answered.looping hmem

theorem Answered.reacts {bs : List ReadResult} {s : TermLoop} (h : Answered bs s) :
    s.writes = (keys bs).map output ∧ (s.control = .returned ↔ .byte quit ∈ bs) := by
  cases h with
  | @looping c ks hks =>
    have hkeys : keys (ks.map .byte) = ks := by simpa [keys] using keys_map_byte hks []
    exact ⟨by rw [hkeys], by simp [hks]⟩
  | returned hks =>
    refine ⟨?_, by simp⟩
    rw [keys_map_byte hks]
    simp [keys, ReadResult.key]
  | fatal hks =>
    refine ⟨?_, by simp [hks]⟩
    rw [keys_map_byte hks]
    simp [keys, ReadResult.key]

theorem takeWhile_goesOn {ks : Bytes} (hks : quit ∉ ks) (rs : List ReadResult) :
    (ks.map ReadResult.byte ++ rs).takeWhile ReadResult.goesOn =
      ks.map .byte ++ rs.takeWhile ReadResult.goesOn := by
  refine List.takeWhile_append_of_pos ?_
  intro r hr
  obtain ⟨k, hk, rfl⟩ := List.mem_map.mp hr
  simpa [ReadResult.goesOn] using ne_of_mem_of_not_mem hk hks

theorem takeWhile_subset_append {α : Type} (p : α → Bool) (xs ys : List α) :
    xs.takeWhile p ⊆ (xs ++ ys).takeWhile p := by
  rw [List.takeWhile_append]
  split
  · exact List.subset_append_of_subset_left _ (List.takeWhile_subset p)
  · exact List.Subset.refl _

/-- The run lemma: a run is answered if no read before its end times out. -/
theorem answered_of_exec {tty : Termios} {c : UInt8} {bs : List ReadResult} {s : TermLoop}
    (h : (processTerm tty).Exec (TermLoop.start c) bs s)
    (hbs : .empty ∉ bs.takeWhile ReadResult.goesOn) : Answered bs s := by
  induction h with
  | nil => exact .looping List.not_mem_nil
  | @snoc bs t r _ he ih =>
    have hbefore := ih fun hmem => hbs (takeWhile_subset_append _ bs [r] hmem)
    refine hbefore.snoc he.1 ?_
    rintro rfl
    obtain ⟨ks, _, hks, rfl, -⟩ := hbefore.keys_of_looping he.1
    rw [takeWhile_goesOn hks] at hbs
    exact hbs (List.mem_append_right _ (by decide))

/-- The reads before the end of the loop were keys, if none of them timed out. -/
theorem exists_keys_of_goesOn {bs : List ReadResult} (hgo : ∀ r ∈ bs, r.goesOn = true)
    (hbs : .empty ∉ bs) : ∃ ks : Bytes, quit ∉ ks ∧ bs = ks.map .byte := by
  induction bs with
  | nil => exact ⟨[], List.not_mem_nil, rfl⟩
  | cons r bs ih =>
    obtain ⟨hr, hgo⟩ := List.forall_mem_cons.mp hgo
    obtain ⟨ks, hks, rfl⟩ := ih hgo fun hmem => hbs (List.mem_cons_of_mem r hmem)
    cases r with
    | error => cases hr
    | empty => exact absurd List.mem_cons_self hbs
    | byte k =>
      have hk : k ≠ quit := by simpa [ReadResult.goesOn] using hr
      exact ⟨k :: ks, by simp [hks, Ne.symm hk], rfl⟩

/-- The first timeout is taken for a key. -/
theorem not_reactsOnce (orig : Termios) {c : UInt8} {ks : Bytes} (hks : quit ∉ ks)
    (rs : List ReadResult) : ¬ ReactsOnce orig.raw c (ks.map .byte ++ .empty :: rs) := by
  intro hreacts
  obtain ⟨c', hrun⟩ := @exec_keys orig.raw (TermLoop.start c) rfl ks hks
  have hnext := hrun.snoc ⟨rfl, returns_raw orig .empty⟩
  have hprefix : ks.map ReadResult.byte ++ [.empty] <+: ks.map .byte ++ .empty :: rs :=
    (List.prefix_append_right_inj _).mpr (List.cons_prefix_cons.mpr ⟨rfl, List.nil_prefix⟩)
  obtain ⟨hwrites, hreturned⟩ := hreacts _ _ hprefix hnext
  rw [next_processTerm, iteration_empty] at hwrites hreturned
  rcases switch_cases _ with hret | hwrote
  · -- it returned, on a `'q'` that was not read
    simpa [hks] using hreturned.mp hret
  · have hnone : keys [.empty] = [] := rfl
    rw [hwrote, keys_map_byte hks, hnone] at hwrites
    simp [TermLoop.start] at hwrites

/-- `process_term` reacts once to each key exactly if no read times out before the first
`'q'` is read, or an error ends the loop. -/
theorem reactsOnce_iff (orig : Termios) (c : UInt8) (rs : List ReadResult) :
    ReactsOnce orig.raw c rs ↔ .empty ∉ rs.takeWhile ReadResult.goesOn := by
  refine ⟨fun hreacts hmem => ?_, fun hrs bs s hbs hrun => ?_⟩
  · obtain ⟨as, bs, hsplit, has⟩ := List.eq_append_cons_of_mem hmem
    have hgo : ∀ r ∈ as, r.goesOn = true := by
      intro r hr
      refine List.mem_takeWhile_imp (l := rs) ?_
      rw [hsplit]
      exact List.mem_append_left _ hr
    obtain ⟨ks, hks, rfl⟩ := exists_keys_of_goesOn hgo has
    have hrs : rs = ks.map .byte ++ .empty :: (bs ++ rs.dropWhile ReadResult.goesOn) := by
      rw [← List.cons_append, ← List.append_assoc, ← hsplit, List.takeWhile_append_dropWhile]
    rw [hrs] at hreacts
    exact not_reactsOnce orig hks _ hreacts
  · obtain ⟨cs, rfl⟩ := hbs
    exact (answered_of_exec hrun fun hmem => hrs (takeWhile_subset_append _ bs cs hmem)).reacts

/-- After `'z'` no key arrives for a second: it writes `"Z"` twice. -/
theorem not_reactsOnce_timeout :
    ¬ ReactsOnce (Termios.raw ⟨true, false, true, true, 1, 0⟩) 0
      [.byte 'z'.toUInt8, .empty] :=
  @not_reactsOnce _ _ ['z'.toUInt8] (by decide) []

/-- On a terminal whose reads wait for input the loop keeps to it. -/
theorem reactsOnce_of_waits {tty : Termios} (hraw : tty.icanon = false) (hmin : tty.vmin ≠ 0)
    (c : UInt8) (rs : List ReadResult) : ReactsOnce tty c rs := by
  intro bs s _ hrun
  refine (answered_of_exec hrun fun hmem => ?_).reacts
  obtain ⟨as, cs, rfl⟩ := List.append_of_mem (List.takeWhile_subset _ hmem)
  obtain ⟨t, -, he, -⟩ := hrun.enabled_of_cons
  exact not_returns_empty hraw hmin he.2

end SisProg.Terminal
