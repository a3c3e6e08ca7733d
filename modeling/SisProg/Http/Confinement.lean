import SisProg.Http.HTTPServer

/-!
# Path confinement

The parser rejects endpoints that contain `..` or begin like an absolute URL, and
`handleRequest` removes the first byte, which it takes to be a `/`. Nothing checks
that it is one: the endpoint `x/etc/passwd` is accepted, and the server opens
`/etc/passwd` (`absolute_path_served`).

`paths_confined_iff` says that nothing else is missing: whatever the file system
does, every path handed to it stays below the working directory exactly if the
second byte of the endpoint is not a `/`.
-/

namespace SisProg.Http

open Bytes (ascii)

def slash : UInt8 := 47

/-- The path that a call hands to the file system: the operand of `stat`, of `cat` or
of `ls -l`. -/
def Call.path : Call → Option Bytes
  | .stat path => some path
  | .execute argv => argv.getLast?

/-- A relative path none of whose components is `..`. -/
structure Confined (path : Bytes) : Prop where
  relative : path.head? ≠ some slash
  below : ascii ".." ∉ path.splitOn slash

/-! ## Components -/

theorem splitOnP_eq_cons (p : UInt8 → Bool) (s : Bytes) :
    ∃ c cs, s.splitOnP p = c :: cs ∧ c <+: s ∧ ∀ d ∈ cs, d <:+: s := by
  induction s with
  | nil => exact ⟨[], [], rfl, List.prefix_rfl, by simp⟩
  | cons b s ih =>
    obtain ⟨c, cs, hs, hc, hcs⟩ := ih
    have hinfix : ∀ d, d <:+: s → d <:+: b :: s := fun d hd =>
      hd.trans (List.suffix_cons b s).isInfix
    rw [List.splitOnP_cons_eq_if_modifyHead, hs]
    split
    next =>
      refine ⟨[], c :: cs, rfl, List.nil_prefix, fun d hd => hinfix d ?_⟩
      rcases List.mem_cons.mp hd with rfl | hd
      · exact hc.isInfix
      · exact hcs d hd
    next =>
      exact ⟨b :: c, cs, rfl, (List.prefix_cons_inj b).mpr hc, fun d hd => hinfix d (hcs d hd)⟩

theorem infix_of_mem_splitOnP {p : UInt8 → Bool} {s c : Bytes} (h : c ∈ s.splitOnP p) :
    c <:+: s := by
  obtain ⟨d, ds, hs, hd, hds⟩ := splitOnP_eq_cons p s
  rw [hs] at h
  rcases List.mem_cons.mp h with rfl | h
  · exact hd.isInfix
  · exact hds c h

theorem below_of_no_dots {path : Bytes} (h : ¬ ascii ".." <:+: path) :
    ascii ".." ∉ path.splitOn slash :=
  fun hmem => h (infix_of_mem_splitOnP hmem)

theorem splitOn_indexPath (path : Bytes) :
    (indexPath path).splitOn slash = path.splitOn slash ++ [ascii "index.html"] := by
  have hindex : indexPath path = path ++ slash :: ascii "index.html" := rfl
  rw [hindex, List.splitOn_eq_splitOnP, List.splitOnP_append_cons _ _ (by simp)]
  rfl

/-! ## What the kernel gets -/

theorem head?_cstr {s : Bytes} : s.cstr.head? = some slash ↔ s.head? = some slash := by
  cases s with
  | nil => rfl
  | cons b s =>
    by_cases hb : b = 0
    · subst hb
      simp [Bytes.cstr, slash]
    · simp [Bytes.cstr, hb]

theorem cstr_append_of_mem {s t : Bytes} (h : 0 ∈ s) : (s ++ t).cstr = s.cstr := by
  induction s with
  | nil => cases h
  | cons b s ih =>
    unfold Bytes.cstr at ih ⊢
    rw [List.cons_append, List.takeWhile_cons, List.takeWhile_cons]
    split
    next hb =>
      have hs : 0 ∈ s := by
        rcases List.mem_cons.mp h with rfl | hs
        · simp at hb
        · exact hs
      rw [ih hs]
    next => rfl

/-- What is known of the path once the request has been accepted. -/
structure GoodPath (path : Bytes) : Prop where
  nonempty : path ≠ []
  not_up : ¬ ascii ".." <:+: path

theorem goodPath_requestPath {req : HTTPRequest} (h : Accepted req.endpoint) :
    GoodPath (requestPath req) := by
  unfold requestPath
  split
  next => exact ⟨by decide, by decide⟩
  next hne => exact ⟨hne, fun hup => h.not_up (hup.trans (List.drop_suffix 1 _).isInfix)⟩

theorem head?_requestPath (req : HTTPRequest) :
    (requestPath req).head? = some slash ↔ req.endpoint[1]? = some slash := by
  rw [← List.head?_drop]
  unfold requestPath
  split
  next h =>
    rw [h]
    exact ⟨fun hdot => by simp [ascii, slash] at hdot, fun hnil => by cases hnil⟩
  next => rfl

theorem confined_cstr {path : Bytes} (h : GoodPath path) (hrel : path.head? ≠ some slash) :
    Confined path.cstr where
  relative hs := hrel (head?_cstr.mp hs)
  below := below_of_no_dots fun hup => h.not_up (hup.trans path.cstr_prefix_self.isInfix)

theorem confined_indexPath {path : Bytes} (h : GoodPath path) (hrel : path.head? ≠ some slash) :
    Confined (indexPath path).cstr := by
  by_cases h0 : 0 ∈ path
  · -- the kernel does not see the appended name
    have hindex : (indexPath path).cstr = path.cstr := cstr_append_of_mem h0
    rw [hindex]
    exact confined_cstr h hrel
  · have hindex : (indexPath path).cstr = indexPath path := by
      refine Bytes.cstr_eq_self ?_
      intro hmem
      rcases List.mem_append.mp hmem with hmem | hmem
      · exact h0 hmem
      · revert hmem
        decide
    rw [hindex]
    refine ⟨?_, ?_⟩
    · unfold indexPath
      rw [List.head?_append_of_ne_nil _ h.nonempty]
      exact hrel
    · rw [splitOn_indexPath, List.mem_append, not_or]
      exact ⟨below_of_no_dots h.not_up, by decide⟩

theorem stat_mem_serve (k : Kernel) (req : HTTPRequest) :
    .stat (requestPath req).cstr ∈ (serve k req).2 := by
  rcases serve_cases k req rfl rfl with ⟨-, e, -, hs⟩ | ⟨-, hs⟩ | ⟨-, -, hs⟩ | ⟨-, -, hs⟩
  all_goals
    rw [hs]
    exact List.mem_cons_self

/-- Every path of an accepted request is confined, whatever the kernel answers,
exactly if the second byte of the endpoint is not a `/`. -/
theorem paths_confined_iff {raw : Bytes} {req : HTTPRequest}
    (h : HTTPRequest.parse raw = .ok req) (k : Kernel) :
    (∀ call ∈ (serve k req).2, ∀ path ∈ call.path, Confined path) ↔
      req.endpoint[1]? ≠ some slash := by
  have hgood := goodPath_requestPath (parse_ok h)
  constructor
  · intro hall hslash
    have hconf := hall _ (stat_mem_serve k req) _ rfl
    exact hconf.relative (head?_cstr.mpr ((head?_requestPath req).mpr hslash))
  · intro hslash
    have hrel : (requestPath req).head? ≠ some slash := fun hs =>
      hslash ((head?_requestPath req).mp hs)
    have hpath := confined_cstr hgood hrel
    have hindex := confined_indexPath hgood hrel
    rcases serve_cases k req rfl rfl with ⟨-, e, -, hs⟩ | ⟨-, hs⟩ | ⟨-, -, hs⟩ | ⟨-, -, hs⟩
    all_goals
      rw [hs]
      simp [Call.path, hpath, hindex]

/-- A file system with one regular file, empty. -/
def oneFile (path : Bytes) : Kernel where
  stat _ p := if p = path then .ok .regular else .error .enoent
  execute _ _ := .forked ⟨.ran ⟨[], 0⟩, [], by simp, by simp [Execvp.process]⟩

def indexRaw : Bytes := ascii "GET /index.html HTTP/1.1\r\n\r\n"

def indexRequest : HTTPRequest := ⟨ascii "GET", ascii "/index.html", ascii "HTTP/1.1"⟩

theorem paths_confined_indexRequest :
    .stat (ascii "index.html") ∈ (serve (oneFile (ascii "index.html")) indexRequest).2 ∧
      Confined (ascii "index.html") :=
  have hmem : .stat (ascii "index.html") ∈
      (serve (oneFile (ascii "index.html")) indexRequest).2 := by decide
  ⟨hmem, (@paths_confined_iff indexRaw indexRequest (by decide) _).mpr (by decide) _ hmem _ rfl⟩

def passwdRaw : Bytes := ascii "GET x/etc/passwd HTTP/1.1\r\n\r\n"

/-- The parser accepts the request, and the server opens an absolute path. -/
theorem absolute_path_served :
    ∃ req, HTTPRequest.parse passwdRaw = .ok req ∧
      ∀ k, ∃ call ∈ (serve k req).2, call.path = some (ascii "/etc/passwd") ∧
        ¬ Confined (ascii "/etc/passwd") :=
  ⟨⟨ascii "GET", ascii "x/etc/passwd", ascii "HTTP/1.1"⟩, by decide, fun k =>
    ⟨_, stat_mem_serve k _, by decide, fun h => h.relative (by decide)⟩⟩

end SisProg.Http
