import SisProg.Lib.Descriptions

/-!
# What becomes of a file system

A program that names its files can change those that it names and no others. `Evolves` says
so of a file system and what becomes of it: the paths with `written` are those whose files
may have been changed, and a file may have been created where a path with `created` leads.

* `Evolves.refl`, `Evolves.trans`: it holds of any sequence of changes if it holds of each.
  A path that leads to a file keeps leading to it, and a file that is created has a number
  of its own, so a file that is spared at the start is spared by all of them.
-/

namespace SisProg.FileSystem

structure Evolves (written created : Bytes → Prop) (fs t : FileSystem) : Prop where
  entry : t.entry = fs.entry
  next : fs.next ≤ t.next
  found : ∀ q i, fs.lookup q = some i → t.lookup q = some i
  new : ∀ q i, fs.lookup q = none → t.lookup q = some i →
    fs.next ≤ i ∧ ∃ p, created p ∧ fs.entry q = fs.entry p
  kept : ∀ i < fs.next, (∀ p, written p → fs.lookup p ≠ some i) →
    (t.file i).content = (fs.file i).content ∧ (t.file i).mtime = (fs.file i).mtime

variable {written created : Bytes → Prop} {fs t u : FileSystem} {path : Bytes} {ino now : Nat}

theorem Evolves.refl (fs : FileSystem) : Evolves written created fs fs := by
  refine ⟨rfl, le_rfl, fun _ _ h => h, ?_, fun _ _ _ => ⟨rfl, rfl⟩⟩
  intro q i hnone hsome
  cases hnone.symm.trans hsome

/-- Where a path leads to a file that was there, it led there before. -/
theorem Evolves.lookup_of_lt (h : Evolves written created fs t) {q : Bytes} {i : Nat}
    (hi : i < fs.next) (hq : t.lookup q = some i) : fs.lookup q = some i := by
  cases hlookup : fs.lookup q with
  | none => exact absurd hi (Nat.not_lt.mpr (h.new q i hlookup hq).1)
  | some j => rw [← h.found q j hlookup, hq]

theorem Evolves.trans (h : Evolves written created fs t) (h' : Evolves written created t u) :
    Evolves written created fs u := by
  refine ⟨h'.entry.trans h.entry, h.next.trans h'.next,
    fun q i hq => h'.found q i (h.found q i hq), ?_, ?_⟩
  · intro q i hnone hsome
    cases hq : t.lookup q with
    | none =>
      obtain ⟨hle, p, hp, hentry⟩ := h'.new q i hq hsome
      exact ⟨h.next.trans hle, p, hp, by rwa [h.entry] at hentry⟩
    | some j =>
      obtain rfl : j = i := Option.some.inj ((h'.found q j hq).symm.trans hsome)
      exact h.new q j hnone hq
  · intro i hi hspared
    obtain ⟨hcontent, hmtime⟩ := h.kept i hi hspared
    obtain ⟨hcontent', hmtime'⟩ := h'.kept i (hi.trans_le h.next)
      fun p hp hlookup => hspared p hp (h.lookup_of_lt hi hlookup)
    exact ⟨hcontent'.trans hcontent, hmtime'.trans hmtime⟩

theorem Evolves.mono {written' created' : Bytes → Prop} (h : Evolves written created fs t)
    (hwritten : ∀ p, written p → written' p) (hcreated : ∀ p, created p → created' p) :
    Evolves written' created' fs t where
  entry := h.entry
  next := h.next
  found := h.found
  new q i hnone hsome := by
    obtain ⟨hle, p, hp, hentry⟩ := h.new q i hnone hsome
    exact ⟨hle, p, hcreated p hp, hentry⟩
  kept i hi hspared := h.kept i hi fun p hp => hspared p (hwritten p hp)

/-- A file is changed through a path that leads to it. -/
theorem evolves_update {f : File → File} (hpath : fs.lookup path = some ino)
    (hwritten : written path) : Evolves written created fs (fs.update ino f) := by
  refine ⟨rfl, le_rfl, fun _ _ h => h, ?_, ?_⟩
  · intro q i hnone hsome
    cases hnone.symm.trans hsome
  · intro i _ hspared
    have hne : i ≠ ino := by
      rintro rfl
      exact hspared path hwritten hpath
    rw [file_update_of_ne hne]
    exact ⟨rfl, rfl⟩

theorem evolves_writeAt {offset : Nat} {buf : Bytes} (hpath : fs.lookup path = some ino)
    (hwritten : written path) : Evolves written created fs (fs.writeAt ino offset buf now) :=
  evolves_update hpath hwritten

theorem evolves_create (hpath : fs.lookup path = none) (hcreated : created path) :
    Evolves written created fs (fs.create path now) := by
  refine ⟨rfl, Nat.le_succ _, fun q i hq => (lookup_create_of_some hpath hq).1, ?_, ?_⟩
  · intro q i hnone hsome
    by_cases hentry : fs.entry q = fs.entry path
    · rw [lookup_create_self hentry] at hsome
      cases hsome
      exact ⟨le_rfl, path, hcreated, hentry⟩
    · rw [lookup_create_of_ne hentry] at hsome
      cases hnone.symm.trans hsome
  · intro i hi _
    rw [file_create_of_ne hi.ne]
    exact ⟨rfl, rfl⟩

/-- To open a path with `O_TRUNC` changes the file there, and with `O_CREAT` it creates it. -/
theorem evolves_openFile {flags : Flags} {refusal : Option Errno}
    (h : fs.openFile path flags refusal now = (.ok ino, t))
    (hwritten : flags.trunc = true → written path) (hcreated : flags.creat = true → created path) :
    Evolves written created fs t := by
  obtain ⟨-, ⟨hpath, -, rfl⟩ | ⟨hpath, hcreat, -, rfl⟩⟩ := openFile_ok_cases h
  · split
    next htrunc => exact evolves_update hpath (hwritten htrunc)
    next => exact .refl fs
  · exact evolves_create hpath (hcreated hcreat)

end SisProg.FileSystem
