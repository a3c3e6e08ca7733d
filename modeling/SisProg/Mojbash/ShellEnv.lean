import SisProg.Lib.Bytes

/-!
# The prompt of mojbash

`display_prompt` writes the user, the host and the working directory. `format_path` puts a
`~` for the home directory. It compares strings, not the components of paths: the home
directory of `al` is a prefix of that of `alice` (`formatPath_abbreviates_iff`).

Both functions print into arrays of a fixed size, `PATH_MAX` and `BUFFSIZE` bytes, and none
looks at how much there is to print. The second array is much smaller than the first
(`displayPrompt_fits_iff`).
-/

namespace SisProg.Mojbash

open Bytes (ascii)

/-- `PATH_MAX`. -/
def pathMax : Nat := 4096

/-- `HOST_NAME_MAX`. -/
def hostNameMax : Nat := 64

/-- What `new_env` returns. `getcwd` and `gethostname` have got arrays of `PATH_MAX` and
`HOST_NAME_MAX` bytes; `HOME` may not be set. -/
structure ShellEnv where
  cwd : Bytes
  homeDir : Option Bytes
  hostname : Bytes
  username : Bytes
  cwd_lt : cwd.length < pathMax
  hostname_lt : hostname.length < hostNameMax

namespace ShellEnv

/-- `BUFFSIZE`. -/
def buffsize : Nat := 512

end ShellEnv

def slash : UInt8 := 47

def tilde : UInt8 := 126

/-- The string that `format_path` writes. -/
def formatPath (cwd : Bytes) : Option Bytes → Bytes
  | some homeDir =>
    -- `strncmp(cwd, home_dir, strlen(home_dir)) == 0`
    if cwd.take homeDir.length = homeDir then tilde :: cwd.drop homeDir.length else cwd
  | none => cwd

/-- `sprintf` and `strcpy` into an array: the string and a NUL. -/
def printInto (size : Nat) (s : Bytes) : Option Bytes :=
  if s.length + 1 ≤ size then some s else none

/-- `"\033[32m%s@%s:\033[36m%s\033[0m$"`. -/
def prompt (username hostname path : Bytes) : Bytes :=
  27 :: ascii "[32m" ++ username ++ ascii "@" ++ hostname ++ ascii ":" ++
    27 :: ascii "[36m" ++ path ++ 27 :: ascii "[0m" ++ ascii "$"

/-- What `display_prompt` writes. Undefined behaviour is `none`. -/
def displayPrompt (env : ShellEnv) : Option Bytes :=
  (printInto pathMax (formatPath env.cwd env.homeDir)).bind fun path =>
    printInto ShellEnv.buffsize (prompt env.username env.hostname path)

/-! ## The home directory -/

theorem take_length_eq_iff {s t : Bytes} : s.take t.length = t ↔ t <+: s := by
  rw [List.prefix_iff_eq_take, eq_comm]

theorem formatPath_append (home t : Bytes) : formatPath (home ++ t) (some home) = tilde :: t := by
  simp [formatPath]

theorem formatPath_eq_self {cwd home : Bytes} (h : ¬ home <+: cwd) :
    formatPath cwd (some home) = cwd :=
  if_neg fun heq => h (take_length_eq_iff.mp heq)

/-- `path` has a `~` for the home directory and nothing else. -/
structure Abbreviates (cwd home path : Bytes) : Prop where
  tilde_iff : path.head? = some tilde ↔ cwd = home ∨ home ++ [slash] <+: cwd
  expands : path.head? = some tilde → home ++ path.drop 1 = cwd
  same : path.head? ≠ some tilde → path = cwd

/-- The path is abbreviated as it should exactly if what follows the home directory in it,
if anything does, begins with a slash. -/
theorem formatPath_abbreviates_iff {cwd : Bytes} (habs : cwd.head? = some slash) (home : Bytes) :
    Abbreviates cwd home (formatPath cwd (some home)) ↔
      ∀ b t, cwd = home ++ b :: t → b = slash := by
  by_cases hprefix : home <+: cwd
  · obtain ⟨t, rfl⟩ := hprefix
    rw [formatPath_append]
    constructor
    · intro h b t' heq
      obtain rfl : t = b :: t' := List.append_cancel_left heq
      rcases h.tilde_iff.mp rfl with hself | ⟨u, hu⟩
      · simp at hself
      · rw [List.append_assoc] at hu
        exact (List.cons.inj (List.append_cancel_left hu)).1.symm
    · intro hnext
      refine ⟨⟨fun _ => ?_, fun _ => rfl⟩, fun _ => rfl, fun hne => absurd rfl hne⟩
      cases t with
      | nil => exact .inl (List.append_nil home)
      | cons b t =>
        rw [hnext b t rfl]
        exact .inr ⟨t, by simp⟩
  · rw [formatPath_eq_self hprefix]
    have hne : cwd.head? ≠ some tilde := by
      rw [habs]
      decide
    refine iff_of_true ⟨iff_of_false hne ?_, fun h => absurd h hne, fun _ => rfl⟩ ?_
    · rintro (rfl | hsub)
      · exact hprefix List.prefix_rfl
      · exact hprefix ((List.prefix_append home [slash]).trans hsub)
    · rintro b t rfl
      exact absurd (List.prefix_append home (b :: t)) hprefix

theorem formatPath_abbreviates_below :
    Abbreviates (ascii "/home/al/src") (ascii "/home/al")
      (formatPath (ascii "/home/al/src") (some (ascii "/home/al"))) := by
  refine (formatPath_abbreviates_iff (by decide) _).mpr ?_
  intro b t heq
  have hsplit : ascii "/home/al/src" = ascii "/home/al" ++ slash :: ascii "src" := by decide
  exact (List.cons.inj (List.append_cancel_left (heq.symm.trans hsplit))).1

/-- The directory of another user. -/
theorem otherHome_abbreviated :
    formatPath (ascii "/home/alice") (some (ascii "/home/al")) = ascii "~ice" ∧
    ¬ Abbreviates (ascii "/home/alice") (ascii "/home/al")
      (formatPath (ascii "/home/alice") (some (ascii "/home/al"))) := by
  have hpath : formatPath (ascii "/home/alice") (some (ascii "/home/al")) = ascii "~ice" := by
    decide
  refine ⟨hpath, ?_⟩
  rw [hpath]
  intro h
  have hbelow := h.tilde_iff.mp (by decide)
  revert hbelow
  decide

/-! ## The size of the prompt -/

/-- The length of the path that is shown. -/
def shownLength (cwd : Bytes) : Option Bytes → Nat
  | some homeDir =>
    if homeDir <+: cwd then cwd.length - homeDir.length + 1 else cwd.length
  | none => cwd.length

theorem length_formatPath (cwd : Bytes) (homeDir : Option Bytes) :
    (formatPath cwd homeDir).length = shownLength cwd homeDir := by
  cases homeDir with
  | none => rfl
  | some home =>
    show _ = if home <+: cwd then cwd.length - home.length + 1 else cwd.length
    by_cases h : home <+: cwd
    · obtain ⟨t, rfl⟩ := h
      rw [if_pos (List.prefix_append home t), formatPath_append, List.length_cons,
        List.length_append, Nat.add_sub_cancel_left]
    · rw [if_neg h, formatPath_eq_self h]

theorem length_prompt (username hostname path : Bytes) :
    (prompt username hostname path).length =
      username.length + hostname.length + path.length + 17 := by
  have h₁ : (ascii "[32m").length = 4 ∧ (ascii "[36m").length = 4 ∧ (ascii "[0m").length = 3 ∧
      (ascii "@").length = 1 ∧ (ascii ":").length = 1 ∧ (ascii "$").length = 1 := by decide
  simp only [prompt, List.length_append, List.length_cons, h₁]
  omega

theorem printInto_isSome {size : Nat} {s : Bytes} :
    (printInto size s).isSome ↔ s.length + 1 ≤ size := by
  unfold printInto
  split <;> simp_all

theorem printInto_of_isSome {size : Nat} {s : Bytes} (h : (printInto size s).isSome) :
    printInto size s = some s :=
  if_pos (printInto_isSome.mp h)

/-- The path and the prompt fit in their arrays exactly if the user, the host and the path
that is shown have `494` bytes together, or fewer. -/
theorem displayPrompt_fits_iff (env : ShellEnv) :
    ((printInto pathMax (formatPath env.cwd env.homeDir)).isSome ∧ (displayPrompt env).isSome) ↔
      env.username.length + env.hostname.length + shownLength env.cwd env.homeDir ≤ 494 := by
  have hlen := length_prompt env.username env.hostname (formatPath env.cwd env.homeDir)
  rw [length_formatPath] at hlen
  have hprompt : (printInto ShellEnv.buffsize
      (prompt env.username env.hostname (formatPath env.cwd env.homeDir))).isSome ↔
      env.username.length + env.hostname.length + shownLength env.cwd env.homeDir ≤ 494 := by
    rw [printInto_isSome, hlen]
    exact @Nat.add_le_add_iff_right _ 494 18
  unfold displayPrompt
  rw [← hprompt]
  constructor
  · rintro ⟨hpath, hboth⟩
    rwa [printInto_of_isSome hpath] at hboth
  · intro hfits
    -- a path that fits the prompt is shorter than `PATH_MAX`
    have hpath : (printInto pathMax (formatPath env.cwd env.homeDir)).isSome := by
      rw [printInto_isSome, length_formatPath]
      have hle := (Nat.le_add_left _ _).trans (hprompt.mp hfits)
      exact (Nat.succ_le_succ hle).trans (by decide)
    exact ⟨hpath, by rwa [printInto_of_isSome hpath]⟩

/-- The name of a directory, of 250 bytes. -/
def dirName : Bytes := List.replicate 250 97

theorem length_deepCwd : (slash :: dirName ++ slash :: dirName).length = 502 := by
  rw [List.length_append, List.length_cons, show dirName.length = 250 from List.length_replicate]

/-- Two such directories, one in the other. -/
def deep : ShellEnv where
  cwd := slash :: dirName ++ slash :: dirName
  homeDir := none
  hostname := ascii "host"
  username := ascii "user"
  cwd_lt := by rw [length_deepCwd]; decide
  hostname_lt := by decide

/-- The prompt needs `528` bytes. -/
theorem prompt_overflows :
    (prompt deep.username deep.hostname (formatPath deep.cwd deep.homeDir)).length + 1 = 528 ∧
    displayPrompt deep = none := by
  have hnames : deep.username.length = 4 ∧ deep.hostname.length = 4 := by decide
  have hcwd : (formatPath deep.cwd deep.homeDir).length = 502 := length_deepCwd
  have hlen : (prompt deep.username deep.hostname (formatPath deep.cwd deep.homeDir)).length + 1 =
      528 := by
    rw [length_prompt, hnames.1, hnames.2, hcwd]
  refine ⟨hlen, ?_⟩
  unfold displayPrompt
  rw [printInto_of_isSome (printInto_isSome.mpr (by rw [hcwd]; decide)), Option.bind_some]
  refine if_neg ?_
  rw [hlen]
  decide

end SisProg.Mojbash
