import SisProg.Http.FileResponse

/-!
# The type of a file

`isHTML` looks at the whole `std::string`, and the kernel at the part before its first
NUL. The parser lets NUL bytes pass, so the two can differ: for `/notes\0.html` the
server opens `notes`, and says that it is `text/html` (`notes_called_html`).
`describesFile_iff` says that the Content-Type is right exactly if the two views of the
name agree.
-/

namespace SisProg.Http

open Bytes (ascii)

/-- The name ends in `.html`, in any letter case. -/
def EndsInHtml (name : Bytes) : Prop := ∃ ext, ext <:+ name ∧ ext.map tolower = ascii ".html"

theorem isHTML_iff {name : Bytes} : isHTML name = true ↔ EndsInHtml name := by
  have hlen : (ascii ".html").length = 5 := rfl
  unfold isHTML EndsInHtml
  constructor
  · intro h
    dsimp only at h
    split at h
    next => cases h
    next => exact ⟨_, List.drop_suffix _ _, eq_of_beq h⟩
  · rintro ⟨ext, hext, hmap⟩
    have hext5 : ext.length = 5 := by
      rw [← hlen, ← hmap, List.length_map]
    have hle := hext.length_le
    dsimp only
    rw [if_neg (by omega), hlen, ← hext5, ← List.suffix_iff_eq_drop.mp hext, hmap]
    exact beq_self_eq_true _

instance (name : Bytes) : Decidable (EndsInHtml name) :=
  decidable_of_iff (isHTML name = true) isHTML_iff

theorem endsInHtml_indexPath (path : Bytes) : EndsInHtml (indexPath path) :=
  ⟨ascii ".html", ⟨path ++ ascii "/index", by rw [List.append_assoc]; rfl⟩, by decide⟩

/-- The name of the regular file that `stat` has found, if any, as the server has it. -/
def opened (k : Kernel) (req : HTTPRequest) : Option Bytes :=
  let path := requestPath req
  match k.stat [] path.cstr with
  | .ok .regular => some path
  | .ok .directory =>
    if k.stat [.stat path.cstr] (indexPath path).cstr = .ok .regular then some (indexPath path)
    else none
  | _ => none

/-- The kernel gets the name up to its first NUL, and the Content-Type is that of the
whole name. -/
theorem serve_of_opened {k : Kernel} {req : HTTPRequest} {name : Bytes}
    (h : opened k req = some name) :
    ∃ calls, target k req = some (calls, name.cstr) ∧
      (serve k req).1 = (execute (k.cat calls name.cstr)).map
        (respond (if EndsInHtml name then textHtml else octetStream)) := by
  unfold opened at h
  unfold target
  rcases serve_cases k req rfl rfl with ⟨ht, -⟩ | ⟨ht, hs⟩ | ⟨ht, hi, hs⟩ | ⟨ht, hi, -⟩
  · dsimp only at h
    split at h
    next hreg => cases ht _ hreg
    next hdir => cases ht _ hdir
    next => cases h
  · obtain rfl : requestPath req = name := by simpa [ht] using h
    simp only [ht]
    refine ⟨_, rfl, ?_⟩
    rw [hs]
    simp only [isHTML_iff]
    rfl
  · obtain rfl : indexPath (requestPath req) = name := by simpa [ht, hi] using h
    simp only [ht, hi, if_true]
    refine ⟨_, rfl, ?_⟩
    rw [hs, if_pos (endsInHtml_indexPath _)]
    rfl
  · simp [ht, hi] at h

theorem opened_of_target {k : Kernel} {req : HTTPRequest} {calls : List Call} {path : Bytes}
    (h : target k req = some (calls, path)) :
    ∃ name, opened k req = some name ∧ path = name.cstr := by
  unfold target at h
  unfold opened
  dsimp only at h ⊢
  cases ht : k.stat [] (requestPath req).cstr with
  | error errno =>
    rw [ht] at h
    cases h
  | ok t =>
    rw [ht] at h
    cases t with
    | regular =>
      simp only [Option.some.injEq, Prod.mk.injEq] at h
      exact ⟨_, rfl, h.2.symm⟩
    | directory =>
      dsimp only at h ⊢
      split at h
      next hi =>
        simp only [Option.some.injEq, Prod.mk.injEq] at h
        exact ⟨_, if_pos hi, h.2.symm⟩
      next => cases h
    | other => cases h

/-- A response for a regular file has the type that belongs to the name which the
kernel has received. -/
def DescribesFile (k : Kernel) (req : HTTPRequest) : Prop :=
  ∀ calls path resp, target k req = some (calls, path) → (serve k req).1 = .ok resp →
    resp.headers.get (ascii "Content-Type") =
      some (if EndsInHtml path then textHtml else octetStream)

/-- The condition: the name that the server has and the name that the kernel gets both
end in `.html`, or neither does; unless `execute` throws. -/
def NamesAgree (k : Kernel) (req : HTTPRequest) : Prop :=
  ∀ calls path child name, target k req = some (calls, path) → k.cat calls path = .forked child →
    .error ∉ child.reads → opened k req = some name → (EndsInHtml name ↔ EndsInHtml path)

/-- The Content-Type tells how the name ends. -/
theorem typeOf_inj {name name' : Bytes}
    (h : (if EndsInHtml name then textHtml else octetStream) =
      if EndsInHtml name' then textHtml else octetStream) :
    EndsInHtml name ↔ EndsInHtml name' := by
  have hne : textHtml ≠ octetStream := by decide
  split at h
  next hn =>
    split at h
    next hn' => exact iff_of_true hn hn'
    next => exact absurd h hne
  next hn =>
    split at h
    next => exact absurd h.symm hne
    next hn' => exact iff_of_false hn hn'

/-- A name without NUL is what the kernel gets. -/
theorem cstr_eq_self_of_opened {k : Kernel} {req : HTTPRequest} {name : Bytes}
    (h0 : 0 ∉ req.endpoint) (h : opened k req = some name) : name.cstr = name := by
  have hpath : 0 ∉ requestPath req := by
    unfold requestPath
    split
    next => decide
    next => exact fun hmem => h0 (List.mem_of_mem_drop hmem)
  have hindex : 0 ∉ indexPath (requestPath req) := by
    intro hmem
    rcases List.mem_append.mp hmem with hmem | hmem
    · exact hpath hmem
    · revert hmem
      decide
  refine Bytes.cstr_eq_self ?_
  unfold opened at h
  dsimp only at h
  split at h
  next =>
    cases h
    exact hpath
  next =>
    split at h
    next =>
      cases h
      exact hindex
    next => cases h
  next => cases h

/-- For every kernel and every request, the Content-Type is right exactly if the two
names agree; and they do if the endpoint has no NUL. -/
theorem describesFile_iff (k : Kernel) (req : HTTPRequest) :
    (DescribesFile k req ↔ NamesAgree k req) ∧ (0 ∉ req.endpoint → NamesAgree k req) := by
  refine ⟨⟨?_, ?_⟩, ?_⟩
  · intro h calls path child name ht hc herr hname
    obtain ⟨calls', ht', hserve⟩ := serve_of_opened hname
    obtain ⟨rfl, rfl⟩ : calls = calls' ∧ path = name.cstr := by simpa [ht] using ht'
    rw [hc, execute_forked herr] at hserve
    have htype := h _ _ _ ht hserve
    rw [contentType_respond, Option.some.injEq] at htype
    exact typeOf_inj htype
  · intro h calls path resp ht hresp
    obtain ⟨name, hname, rfl⟩ := opened_of_target ht
    obtain ⟨calls', ht', hserve⟩ := serve_of_opened hname
    obtain rfl : calls = calls' := by simpa [ht] using ht'
    cases he : execute (k.cat calls name.cstr) with
    | error e =>
      rw [hserve, he] at hresp
      cases hresp
    | ok output =>
      obtain ⟨child, hc, herr, -⟩ := execute_ok he
      rw [hserve, he] at hresp
      cases hresp
      simp only [contentType_respond, h calls _ child name ht hc herr hname]
  · intro h0 calls path child name ht _ _ hname
    obtain ⟨name', hname', rfl⟩ := opened_of_target ht
    obtain rfl : name = name' := by simpa [hname] using hname'
    rw [cstr_eq_self_of_opened h0 hname]

/-- The parser accepts a NUL. -/
def nulRaw : Bytes := ascii "GET /notes\x00.html HTTP/1.1\r\n\r\n"

def nulRequest : HTTPRequest := ⟨ascii "GET", ascii "/notes\x00.html", ascii "HTTP/1.1"⟩

/-- The server opens `notes`, and calls it HTML. -/
theorem notes_called_html :
    HTTPRequest.parse nulRaw = .ok nulRequest ∧
    target (notesKernel printed) nulRequest = some ([.stat (ascii "notes")], ascii "notes") ∧
    (∃ resp, (serve (notesKernel printed) nulRequest).1 = .ok resp ∧
      resp.headers.get (ascii "Content-Type") = some textHtml) ∧
    ¬ DescribesFile (notesKernel printed) nulRequest := by
  have hserve : (serve (notesKernel printed) nulRequest).1 =
      .ok (respond textHtml (ascii "hello")) := rfl
  have htarget : target (notesKernel printed) nulRequest =
      some ([.stat (ascii "notes")], ascii "notes") := by decide
  refine ⟨by decide, htarget, ⟨_, hserve, contentType_respond _ _⟩, ?_⟩
  intro h
  have htype := h _ _ _ htarget hserve
  rw [contentType_respond] at htype
  revert htype
  decide

end SisProg.Http
