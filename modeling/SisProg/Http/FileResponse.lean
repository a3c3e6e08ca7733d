import SisProg.Http.HTTPServer

/-!
# A file response carries the file

`handleRequest` has a file printed by `cat` and takes what comes out of the pipe for
its contents. It cannot tell a failure: `execute` ignores the exit status, and the
child's standard error goes to the same pipe. So a file that `cat` cannot read is
served as `200 OK`, with the diagnostic for a body (`diagnostic_served`).

`carriesFile_iff` says when the response is right, for a `cat` that does what it is
documented to do (`CatSpec`).
-/

namespace SisProg.Http

open Bytes (ascii)

/-- The regular file that `stat` has found, if any: the path itself, or the index of
a directory. The calls are those made before `cat` is run on it. -/
def target (k : Kernel) (req : HTTPRequest) : Option (List Call × Bytes) :=
  let path := (requestPath req).cstr
  let index := (indexPath (requestPath req)).cstr
  match k.stat [] path with
  | .ok .regular => some ([.stat path], path)
  | .ok .directory =>
    if k.stat [.stat path] index = .ok .regular then some ([.stat path, .stat index], index)
    else none
  | _ => none

def Kernel.cat (k : Kernel) (calls : List Call) (path : Bytes) : Spawn :=
  k.execute calls [ascii "cat", path]

/-- Where a file has been found, the response is what `execute` returns. -/
theorem serve_of_target {k : Kernel} {req : HTTPRequest} {calls : List Call} {path : Bytes}
    (h : target k req = some (calls, path)) :
    ∃ contentType,
      (serve k req).1 = (execute (k.cat calls path)).map (respond contentType) := by
  unfold target at h
  rcases serve_cases k req rfl rfl with ⟨ht, -⟩ | ⟨ht, hs⟩ | ⟨ht, hi, hs⟩ | ⟨ht, hi, -⟩
  · -- neither a regular file nor a directory
    dsimp only at h
    split at h
    next hreg => cases ht _ hreg
    next hdir => cases ht _ hdir
    next => cases h
  · simp only [ht, Option.some.injEq, Prod.mk.injEq] at h
    obtain ⟨rfl, rfl⟩ := h
    exact ⟨_, congrArg Prod.fst hs⟩
  · simp only [ht, hi, if_true, Option.some.injEq, Prod.mk.injEq] at h
    obtain ⟨rfl, rfl⟩ := h
    exact ⟨_, congrArg Prod.fst hs⟩
  · simp [ht, hi] at h

/-- An operand of `cat` that is an option, or stands for standard input. -/
def Dashed (path : Bytes) : Prop := path.head? = some 45

/-- What is assumed of `cat`, `file` being the contents of the files: an operand that
does not begin with `-` is a file name, and an exit status of `0` means that its
bytes, and no diagnostic, were written. -/
def CatSpec (k : Kernel) (file : Bytes → Bytes) : Prop :=
  ∀ calls path child process, ¬ Dashed path → k.cat calls path = .forked child →
    child.execvp = .ran process → process.status = 0 → process.output = file path

/-- The response, if there is one, has the bytes of the file for a body; and there is
none if `cat` could not be executed or failed. -/
def CarriesFile (k : Kernel) (file : Bytes → Bytes) (req : HTTPRequest) : Prop :=
  ∀ calls path, target k req = some (calls, path) →
    (∀ resp, (serve k req).1 = .ok resp → resp.body = file path) ∧
    (∀ child, k.cat calls path = .forked child → child.execvp.process.status ≠ 0 →
      ∃ e, (serve k req).1 = .error e)

/-- The condition: unless `execute` throws, `cat` is executed, ends with status `0`,
and, if it has taken the path for an option, prints the file all the same. -/
def CatSucceeds (k : Kernel) (file : Bytes → Bytes) (req : HTTPRequest) : Prop :=
  ∀ calls path child, target k req = some (calls, path) → k.cat calls path = .forked child →
    .error ∉ child.reads →
    child.execvp.process.status = 0 ∧ (Dashed path → child.execvp.process.output = file path)

theorem output_eq_file {k : Kernel} {file : Bytes → Bytes} (hcat : CatSpec k file)
    {calls : List Call} {path : Bytes} {child : Child} (hc : k.cat calls path = .forked child)
    (hstatus : child.execvp.process.status = 0)
    (hdash : Dashed path → child.execvp.process.output = file path) :
    child.execvp.process.output = file path := by
  by_cases hd : Dashed path
  · exact hdash hd
  · cases hx : child.execvp with
    | failed strerror =>
      rw [hx] at hstatus
      cases hstatus
    | ran process =>
      rw [hx] at hstatus
      exact hcat calls path child process hd hc hx hstatus

/-- For every kernel and every request, the response carries the file exactly if
`cat` succeeds or `execute` throws. -/
theorem carriesFile_iff {k : Kernel} {file : Bytes → Bytes} (hcat : CatSpec k file)
    (req : HTTPRequest) : CarriesFile k file req ↔ CatSucceeds k file req := by
  constructor
  · intro h calls path child ht hc herr
    obtain ⟨contentType, hserve⟩ := serve_of_target ht
    obtain ⟨hbody, hthrow⟩ := h calls path ht
    have hok : (serve k req).1 = .ok (respond contentType child.execvp.process.output) := by
      rw [hserve, hc, execute_forked herr]
      rfl
    refine ⟨?_, fun _ => hbody _ hok⟩
    by_contra hstatus
    obtain ⟨e, he⟩ := hthrow child hc hstatus
    rw [hok] at he
    cases he
  · intro h calls path ht
    obtain ⟨contentType, hserve⟩ := serve_of_target ht
    refine ⟨?_, ?_⟩
    · intro resp hresp
      cases he : execute (k.cat calls path) with
      | error e =>
        rw [hserve, he] at hresp
        cases hresp
      | ok output =>
        obtain ⟨child, hc, herr, rfl⟩ := execute_ok he
        obtain ⟨hstatus, hdash⟩ := h calls path child ht hc herr
        rw [hserve, he] at hresp
        cases hresp
        exact output_eq_file hcat hc hstatus hdash
    · intro child hc hstatus
      by_cases herr : Read.error ∈ child.reads
      · refine ⟨.runtimeError (ascii "Read error"), ?_⟩
        rw [hserve, hc, execute_forked_error herr]
        rfl
      · exact absurd (h calls path child ht hc herr).1 hstatus

/-- A program whose output arrives in one read. -/
def Child.ofProcess (process : Process) (h : process.output ≠ [])
    (h' : process.output.length ≤ maxline - 1) : Child where
  execvp := .ran process
  reads := [.data process.output]
  sized := by simpa [Read.bytes] using ⟨List.length_pos_iff.mpr h, h'⟩
  delivered := by simp [Read.bytes, Execvp.process]

/-- The one file is `notes`, and `child` is what becomes of any program. -/
def notesKernel (child : Child) : Kernel where
  stat _ path := if path = ascii "notes" then .ok .regular else .error .enoent
  execute _ _ := .forked child

def notesRequest : HTTPRequest := ⟨ascii "GET", ascii "/notes", ascii "HTTP/1.1"⟩

def printed : Child := .ofProcess ⟨ascii "hello", 0⟩ (by decide) (by decide)

theorem carriesFile_printed :
    CarriesFile (notesKernel printed) (fun _ => ascii "hello") notesRequest := by
  refine (carriesFile_iff ?_ notesRequest).mpr ?_
  · intro calls path child process _ hc hx _
    obtain rfl : printed = child := by simpa [Kernel.cat, notesKernel] using hc
    obtain rfl : ⟨ascii "hello", 0⟩ = process := by simpa [printed, Child.ofProcess] using hx
    rfl
  · intro calls path child _ hc _
    obtain rfl : printed = child := by simpa [Kernel.cat, notesKernel] using hc
    exact ⟨rfl, fun _ => rfl⟩

def denied : Child :=
  .ofProcess ⟨ascii "cat: notes: Permission denied\n", 1⟩ (by decide) (by decide)

/-- `cat` fails as it is documented to, and the diagnostic is served. -/
theorem diagnostic_served :
    CatSpec (notesKernel denied) (fun _ => ascii "hello") ∧
    (∃ resp, (serve (notesKernel denied) notesRequest).1 = .ok resp ∧ resp.statusCode = 200 ∧
      resp.body = ascii "cat: notes: Permission denied\n") ∧
    ¬ CarriesFile (notesKernel denied) (fun _ => ascii "hello") notesRequest := by
  refine ⟨?_, ⟨respond octetStream (ascii "cat: notes: Permission denied\n"), rfl, rfl, rfl⟩, ?_⟩
  · intro calls path child process _ hc hx hstatus
    obtain rfl : denied = child := by simpa [Kernel.cat, notesKernel] using hc
    obtain rfl : ⟨ascii "cat: notes: Permission denied\n", 1⟩ = process := by
      simpa [denied, Child.ofProcess] using hx
    cases hstatus
  · intro h
    obtain ⟨e, he⟩ := (h [.stat (ascii "notes")] (ascii "notes") rfl).2 denied rfl (by decide)
    cases he

end SisProg.Http
