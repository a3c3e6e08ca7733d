import SisProg.Http.HTTPServer

/-!
# Reading a response back

`toString` writes the status line, a line for each header, an empty line, and the
body. `decode` is the way back: the status line ends at the first CRLF, the headers
end at the first CRLFCRLF after it, and what follows is the body, whatever it contains.

* `decode_toString`: a response with clean fields and at least one header is decoded to
  itself.
* `decode_build`: so is one that any sequence of calls has built, and what is decoded is
  what was set last.
-/

namespace SisProg.Http

open Bytes (ascii cut)

def crlf : Bytes := [13, 10]

/-! ## Decimal numbers -/

def ofDecimal (s : Bytes) : Nat := s.foldl (fun n b => 10 * n + (b.toNat - 48)) 0

/-- A number with an optional minus sign. -/
def ofSignedDecimal (s : Bytes) : Int :=
  if s.head? = some 45 then -(ofDecimal s.tail : Int) else ofDecimal s

theorem toNat_toUInt8_of_isDigit {c : Char} (h : c.isDigit) :
    c.toNat.toUInt8.toNat = c.toNat ∧ 48 ≤ c.toNat ∧ c.toNat ≤ 57 := by
  have hc : 48 ≤ c.toNat ∧ c.toNat ≤ 57 := by
    simp only [Char.isDigit, Bool.and_eq_true, decide_eq_true_eq] at h
    exact h
  refine ⟨?_, hc⟩
  show c.toNat % 2 ^ 8 = c.toNat
  exact Nat.mod_eq_of_lt (by omega)

theorem ofDecimal_decimal (n : Nat) : ofDecimal (HTTPResponse.decimal n) = n := by
  unfold ofDecimal HTTPResponse.decimal
  rw [List.foldl_map]
  have hdigits : (Nat.toDigits 10 n).foldl (fun m c => 10 * m + (c.toNat.toUInt8.toNat - 48)) 0 =
      Nat.ofDigitChars 10 (Nat.toDigits 10 n) 0 := by
    rw [Nat.ofDigitChars_eq_foldl]
    refine List.foldl_ext _ _ _ ?_
    intro m c hc
    have hdigit := Nat.isDigit_of_mem_toDigits (by decide) (by decide) hc
    rw [(toNat_toUInt8_of_isDigit hdigit).1]
    rfl
  rw [hdigits, Nat.ofDigitChars_ten_toDigits]

/-- The bytes of a decimal number are digits. -/
theorem digit_of_mem_decimal {n : Nat} {b : UInt8} (h : b ∈ HTTPResponse.decimal n) :
    48 ≤ b.toNat ∧ b.toNat ≤ 57 := by
  obtain ⟨c, hc, rfl⟩ := List.mem_map.mp h
  have hdigit := Nat.isDigit_of_mem_toDigits (by decide) (by decide) hc
  obtain ⟨heq, hle⟩ := toNat_toUInt8_of_isDigit hdigit
  rw [heq]
  exact hle

theorem ofSignedDecimal_signedDecimal (n : Int) :
    ofSignedDecimal (HTTPResponse.signedDecimal n) = n := by
  cases n with
  | ofNat n =>
    have hhead : (HTTPResponse.decimal n).head? ≠ some 45 := by
      intro h
      have hmem := digit_of_mem_decimal (List.mem_of_head? h)
      simp at hmem
    show ofSignedDecimal (HTTPResponse.decimal n) = _
    rw [ofSignedDecimal, if_neg hhead, ofDecimal_decimal]
    rfl
  | negSucc n =>
    show ofSignedDecimal (45 :: HTTPResponse.decimal (n + 1)) = _
    rw [ofSignedDecimal, if_pos (by simp), List.tail_cons, ofDecimal_decimal]
    rfl

theorem mem_signedDecimal {n : Int} {b : UInt8} (h : b ∈ HTTPResponse.signedDecimal n) :
    45 ≤ b.toNat := by
  cases n with
  | ofNat n =>
    have hle := (digit_of_mem_decimal h).1
    omega
  | negSucc n =>
    rcases List.mem_append.mp h with h | h
    · obtain rfl : b = 45 := by simpa [ascii] using h
      decide
    · have hle := (digit_of_mem_decimal h).1
      omega

/-! ## Decoding -/

/-- The lines of a text in which every line but the last ends with CRLF. -/
def lines : Bytes → List Bytes
  | [] => [[]]
  | 13 :: 10 :: s => [] :: lines s
  | b :: s =>
    match lines s with
    | [] => [[b]]
    | l :: ls => (b :: l) :: ls

/-- A response as it is read back, with the headers in the order of their lines. -/
structure Decoded where
  statusCode : Int
  statusText : Bytes
  headers : List (Bytes × Bytes)
  body : Bytes
deriving DecidableEq

def decode (s : Bytes) : Option Decoded := do
  let (statusLine, rest) ← cut crlf s
  let (block, body) ← cut crlfcrlf rest
  let headers ← (lines block).mapM (cut (ascii ": "))
  let ([], status) ← cut (ascii "HTTP/1.1 ") statusLine | none
  let (code, text) ← cut (ascii " ") status
  return ⟨ofSignedDecimal code, text, headers, body⟩

/-- A field that can stand on a line. -/
structure Clean (s : Bytes) : Prop where
  no_cr : 13 ∉ s
  no_lf : 10 ∉ s

/-! ## Lines -/

theorem lines_append {l s : Bytes} (h : 13 ∉ l) : lines (l ++ crlf ++ s) = l :: lines s := by
  induction l with
  | nil => rfl
  | cons b l ih =>
    simp only [List.mem_cons, not_or] at h
    rw [List.cons_append, List.cons_append, lines, ih h.2]
    intro s' hb
    exact absurd hb.symm h.1

theorem lines_eq_singleton {l : Bytes} (h : 13 ∉ l) : lines l = [l] := by
  induction l with
  | nil => rfl
  | cons b l ih =>
    simp only [List.mem_cons, not_or] at h
    rw [lines, ih h.2]
    intro s' hb
    exact absurd hb.symm h.1

theorem lines_intercalate {ls : List Bytes} (hne : ls ≠ []) (h : ∀ l ∈ ls, 13 ∉ l) :
    lines (crlf.intercalate ls) = ls := by
  induction ls with
  | nil => exact absurd rfl hne
  | cons l ls ih =>
    have hl := h l List.mem_cons_self
    cases ls with
    | nil => rw [List.intercalate_singleton, lines_eq_singleton hl]
    | cons l' ls =>
      rw [List.intercalate_cons_cons, lines_append hl,
        ih (by simp) fun m hm => h m (List.mem_cons_of_mem l hm)]

/-- A CRLF before a line that is not empty is no part of a CRLFCRLF. -/
theorem cut_crlf_append {l s s' t : Bytes} {b : UInt8} (hb : b ≠ 13) (hl : 13 ∉ l)
    (h : cut crlfcrlf (b :: s) = some (s', t)) :
    cut crlfcrlf (l ++ crlf ++ b :: s) = some (l ++ crlf ++ s', t) := by
  have hlf : cut crlfcrlf (10 :: b :: s) = some (10 :: s', t) := by
    refine Bytes.cut_cons ?_ h
    intro hp
    have heq := (List.cons_prefix_cons.mp hp).1
    cases heq
  have hcr : cut crlfcrlf (13 :: 10 :: b :: s) = some (13 :: 10 :: s', t) := by
    refine Bytes.cut_cons ?_ hlf
    intro hp
    have hp' := (List.cons_prefix_cons.mp (List.cons_prefix_cons.mp hp).2).2
    exact hb (List.cons_prefix_cons.mp hp').1.symm
  rw [List.append_assoc, List.append_assoc]
  exact Bytes.cut_append hl hcr

/-- The first CRLFCRLF of some lines is the one after the last of them. -/
theorem cut_lines {ls : List Bytes} (hne : ls ≠ []) (h : ∀ l ∈ ls, 13 ∉ l ∧ l ≠ [])
    (body : Bytes) :
    cut crlfcrlf (ls.flatMap (· ++ crlf) ++ crlf ++ body) =
      some (crlf.intercalate ls, body) := by
  induction ls with
  | nil => exact absurd rfl hne
  | cons l ls ih =>
    obtain ⟨hl, -⟩ := h l List.mem_cons_self
    cases ls with
    | nil =>
      have hcut : cut crlfcrlf (l ++ (crlfcrlf ++ body)) = some (l, body) :=
        Bytes.cut_append_sep hl body
      rw [List.intercalate_singleton, ← hcut]
      simp [crlf, crlfcrlf]
    | cons l' ls =>
      have hrest := ih (by simp) fun m hm => h m (List.mem_cons_of_mem l hm)
      obtain ⟨hl', hne'⟩ := h l' (by simp)
      obtain ⟨b, l', rfl⟩ := List.exists_cons_of_ne_nil hne'
      have hb : b ≠ 13 := fun hb => hl' (by simp [hb])
      rw [List.flatMap_cons, List.append_assoc, List.append_assoc, ← List.append_assoc _ crlf body]
      rw [List.intercalate_cons_cons]
      exact cut_crlf_append hb hl hrest

/-! ## The round trip -/

/-- A header whose name ends at the first colon of its line. -/
structure CleanHeader (header : Bytes × Bytes) : Prop where
  name : Clean header.1
  value : Clean header.2
  no_colon : 58 ∉ header.1

instance (s : Bytes) : Decidable (Clean s) :=
  decidable_of_iff (13 ∉ s ∧ 10 ∉ s) ⟨fun h => ⟨h.1, h.2⟩, fun h => ⟨h.no_cr, h.no_lf⟩⟩

instance (header : Bytes × Bytes) : Decidable (CleanHeader header) :=
  decidable_of_iff (Clean header.1 ∧ Clean header.2 ∧ 58 ∉ header.1)
    ⟨fun h => ⟨h.1, h.2.1, h.2.2⟩, fun h => ⟨h.name, h.value, h.no_colon⟩⟩

/-- What `toString` can write so that it can be read back. -/
structure CleanResponse (resp : HTTPResponse) : Prop where
  statusText : Clean resp.statusText
  headers : ∀ header ∈ resp.headers.entries, CleanHeader header
  nonempty : resp.headers.entries ≠ []

/-- A header line without its CRLF. -/
def headerField (header : Bytes × Bytes) : Bytes := header.1 ++ ascii ": " ++ header.2

theorem cut_headerField {header : Bytes × Bytes} (h : 58 ∉ header.1) :
    cut (ascii ": ") (headerField header) = some header := by
  have hcut : cut (ascii ": ") (header.1 ++ (ascii ": " ++ header.2)) =
      some (header.1, header.2) := Bytes.cut_append_sep h header.2
  rwa [← List.append_assoc] at hcut

theorem mapM_cut_headerField {headers : List (Bytes × Bytes)} (h : ∀ hd ∈ headers, 58 ∉ hd.1) :
    (headers.map headerField).mapM (cut (ascii ": ")) = some headers := by
  induction headers with
  | nil => rfl
  | cons hd headers ih =>
    rw [List.map_cons, List.mapM_cons, cut_headerField (h hd List.mem_cons_self),
      ih fun hd' hmem => h hd' (List.mem_cons_of_mem _ hmem)]
    rfl

theorem headerField_clean {header : Bytes × Bytes} (h : CleanHeader header) :
    13 ∉ headerField header ∧ headerField header ≠ [] := by
  constructor
  · simp only [headerField, List.mem_append, not_or]
    exact ⟨⟨h.name.no_cr, by decide⟩, h.value.no_cr⟩
  · simp [headerField, ascii]

/-- The header lines and the body are found again. -/
theorem cut_headers {headers : List (Bytes × Bytes)} (hne : headers ≠ [])
    (h : ∀ hd ∈ headers, CleanHeader hd) (body : Bytes) :
    ∃ block, cut crlfcrlf (headers.flatMap HTTPResponse.headerLine ++ crlf ++ body) =
        some (block, body) ∧
      (lines block).mapM (cut (ascii ": ")) = some headers := by
  have hne' : headers.map headerField ≠ [] := by simpa using hne
  have hclean : ∀ l ∈ headers.map headerField, 13 ∉ l ∧ l ≠ [] := by
    intro l hl
    obtain ⟨hd, hmem, rfl⟩ := List.mem_map.mp hl
    exact headerField_clean (h hd hmem)
  have hcut := cut_lines hne' hclean body
  rw [List.flatMap_map] at hcut
  refine ⟨_, hcut, ?_⟩
  rw [lines_intercalate hne' fun l hl => (hclean l hl).1]
  exact mapM_cut_headerField fun hd hmem => (h hd hmem).no_colon

def statusLine (resp : HTTPResponse) : Bytes :=
  ascii "HTTP/1.1 " ++ (HTTPResponse.signedDecimal resp.statusCode ++
    (ascii " " ++ resp.statusText))

theorem statusLine_clean {resp : HTTPResponse} (h : Clean resp.statusText) :
    13 ∉ statusLine resp := by
  simp only [statusLine, List.mem_append, not_or]
  refine ⟨by decide, ?_, by decide, h.no_cr⟩
  intro hmem
  have hle := mem_signedDecimal hmem
  simp at hle

theorem cut_status (resp : HTTPResponse) :
    cut (ascii " ") (HTTPResponse.signedDecimal resp.statusCode ++
      (ascii " " ++ resp.statusText)) =
      some (HTTPResponse.signedDecimal resp.statusCode, resp.statusText) := by
  refine Bytes.cut_append_sep ?_ resp.statusText
  intro hmem
  have hle : 45 ≤ (32 : UInt8).toNat := mem_signedDecimal hmem
  revert hle
  decide

/-- Whatever the order in which the headers are written, a clean response is decoded to
itself. -/
theorem decode_toString {resp : HTTPResponse} (h : CleanResponse resp)
    {order : List (Bytes × Bytes)} (horder : order.Perm resp.headers.entries) :
    decode (resp.toString order) =
      some ⟨resp.statusCode, resp.statusText, order, resp.body⟩ := by
  have hne : order ≠ [] := fun hnil => h.nonempty (by simpa [hnil] using horder.symm)
  have hheaders : ∀ hd ∈ order, CleanHeader hd := fun hd hmem =>
    h.headers hd (horder.mem_iff.mp hmem)
  obtain ⟨block, hblock, hmap⟩ := cut_headers hne hheaders resp.body
  have hline : cut crlf (statusLine resp ++
      (crlf ++ (order.flatMap HTTPResponse.headerLine ++ crlf ++ resp.body))) =
      some (statusLine resp, order.flatMap HTTPResponse.headerLine ++ crlf ++ resp.body) :=
    Bytes.cut_append_sep (statusLine_clean h.statusText) _
  have hversion : cut (ascii "HTTP/1.1 ") (statusLine resp) =
      some ([], HTTPResponse.signedDecimal resp.statusCode ++ (ascii " " ++ resp.statusText)) :=
    Bytes.cut_self (by decide) _
  have hstring : resp.toString order = statusLine resp ++
      (crlf ++ (order.flatMap HTTPResponse.headerLine ++ crlf ++ resp.body)) := by
    simp only [HTTPResponse.toString, statusLine, crlf, List.append_assoc]
    rfl
  rw [hstring]
  unfold decode
  simp only [hline, hblock, hmap, hversion, cut_status, Option.bind_eq_bind, Option.bind_some,
    ofSignedDecimal_signedDecimal]
  rfl

/-! ## Responses as they are built -/

/-- A call that changes a response. -/
inductive Setter
  | setStatus (code : Int) (text : Bytes)
  | addHeader (name value : Bytes)
  | setBody (data : Bytes)
deriving DecidableEq

def HTTPResponse.apply (resp : HTTPResponse) : Setter → HTTPResponse
  | .setStatus code text => resp.setStatus code text
  | .addHeader name value => resp.addHeader name value
  | .setBody data => resp.setBody data

/-- `HTTPResponse(code, text)` after the given calls. -/
def HTTPResponse.build (code : Int) (text : Bytes) (calls : List Setter) : HTTPResponse :=
  calls.foldl HTTPResponse.apply { statusCode := code, statusText := text }

def Setter.status : Setter → Option (Int × Bytes)
  | .setStatus code text => some (code, text)
  | _ => none

def Setter.body : Setter → Option Bytes
  | .setBody data => some data
  | _ => none

/-- The value that a call gives to a header; `setBody` sets the Content-Length. -/
def Setter.value (name : Bytes) : Setter → Option Bytes
  | .addHeader name' value => if name = name' then some value else none
  | .setBody data =>
    if name = ascii "Content-Length" then some (HTTPResponse.decimal data.length) else none
  | .setStatus _ _ => none

/-- What the last call sets that sets it at all. -/
def lastSet {α : Type} (f : Setter → Option α) (calls : List Setter) : Option α :=
  calls.reverse.findSome? f

theorem lastSet_snoc {α : Type} (f : Setter → Option α) (calls : List Setter) (c : Setter) :
    lastSet f (calls ++ [c]) = (f c).or (lastSet f calls) := by
  unfold lastSet
  rw [List.reverse_append, List.reverse_singleton, List.singleton_append, List.findSome?_cons]
  cases f c <;> rfl

theorem build_snoc (code : Int) (text : Bytes) (calls : List Setter) (c : Setter) :
    HTTPResponse.build code text (calls ++ [c]) = (HTTPResponse.build code text calls).apply c := by
  simp [HTTPResponse.build]

theorem status_build (code : Int) (text : Bytes) (calls : List Setter) :
    ((HTTPResponse.build code text calls).statusCode,
      (HTTPResponse.build code text calls).statusText) =
      (lastSet Setter.status calls).getD (code, text) := by
  induction calls using List.reverseRecOn with
  | nil => rfl
  | append_singleton calls c ih =>
    rw [build_snoc, lastSet_snoc]
    cases c with
    | setStatus => rfl
    | addHeader | setBody => exact ih

theorem body_build (code : Int) (text : Bytes) (calls : List Setter) :
    (HTTPResponse.build code text calls).body = (lastSet Setter.body calls).getD [] := by
  induction calls using List.reverseRecOn with
  | nil => rfl
  | append_singleton calls c ih =>
    rw [build_snoc, lastSet_snoc]
    cases c with
    | setBody => rfl
    | addHeader | setStatus => exact ih

/-- Once a body has been set, it is the one set last. -/
theorem lastSet_body (code : Int) (text : Bytes) {calls : List Setter}
    (h : ∃ data, .setBody data ∈ calls) :
    lastSet Setter.body calls = some (HTTPResponse.build code text calls).body := by
  obtain ⟨data, hdata⟩ := h
  have hbody := body_build code text calls
  cases hlast : lastSet Setter.body calls with
  | none =>
    have hnone := List.findSome?_eq_none_iff.mp hlast (.setBody data) (by simpa using hdata)
    cases hnone
  | some data' =>
    rw [hlast] at hbody
    rw [hbody]
    rfl

theorem HeaderMap.get_set (headers : HeaderMap) (name value name' : Bytes) :
    (headers.set name value).get name' =
      if name' = name then some value else headers.get name' := by
  split
  next h => rw [h, HeaderMap.get_set_self]
  next h => rw [HeaderMap.get_set_of_ne _ _ h]

/-- For each name the value set last wins. -/
theorem get_build (code : Int) (text : Bytes) (calls : List Setter) (name : Bytes) :
    (HTTPResponse.build code text calls).headers.get name =
      lastSet (Setter.value name) calls := by
  induction calls using List.reverseRecOn with
  | nil => rfl
  | append_singleton calls c ih =>
    rw [build_snoc, lastSet_snoc, ← ih]
    cases c with
    | setStatus => rfl
    | addHeader name' value =>
      refine (HeaderMap.get_set _ _ _ _).trans ?_
      simp only [Setter.value]
      split <;> rfl
    | setBody data =>
      refine (HeaderMap.get_set _ _ _ _).trans ?_
      simp only [Setter.value]
      split <;> rfl

/-- A call whose arguments can be read back; only `setBody` sets the Content-Length. -/
def Setter.Clean : Setter → Prop
  | .setStatus _ text => Http.Clean text
  | .addHeader name value =>
    CleanHeader (name, value) ∧ name.map tolower ≠ ascii "content-length"
  | .setBody _ => True

instance (c : Setter) : Decidable c.Clean :=
  match c with
  | .setStatus _ text => inferInstanceAs (Decidable (Http.Clean text))
  | .addHeader _ _ => inferInstanceAs (Decidable (CleanHeader _ ∧ _))
  | .setBody _ => inferInstanceAs (Decidable True)

theorem clean_decimal (n : Nat) : Clean (HTTPResponse.decimal n) := by
  constructor
  · intro h
    have hle := (digit_of_mem_decimal h).1
    simp at hle
  · intro h
    have hle := (digit_of_mem_decimal h).1
    simp at hle

theorem clean_contentLength : Clean (ascii "Content-Length") := ⟨by decide, by decide⟩

theorem no_colon_contentLength : 58 ∉ ascii "Content-Length" := by decide

/-- What the headers of a response look like that clean calls have built. -/
structure BuiltHeader (header : Bytes × Bytes) : Prop where
  clean : CleanHeader header
  contentLength : header.1.map tolower = ascii "content-length" →
    header.1 = ascii "Content-Length"

theorem mem_set {headers : HeaderMap} {name value : Bytes} {header : Bytes × Bytes}
    (h : header ∈ (headers.set name value).entries) :
    header = (name, value) ∨ header ∈ headers.entries := by
  rcases List.mem_cons.mp h with h | h
  · exact .inl h
  · exact .inr (List.mem_of_mem_filter h)

theorem builtHeader_of_mem {code : Int} {text : Bytes} {calls : List Setter}
    (h : ∀ c ∈ calls, c.Clean) {header : Bytes × Bytes}
    (hmem : header ∈ (HTTPResponse.build code text calls).headers.entries) :
    BuiltHeader header := by
  induction calls using List.reverseRecOn with
  | nil => cases hmem
  | append_singleton calls c ih =>
    have hcalls : ∀ c ∈ calls, c.Clean := fun c hc => h c (List.mem_append_left _ hc)
    have hc : c.Clean := h c (by simp)
    rw [build_snoc] at hmem
    cases c with
    | setStatus => exact ih hcalls hmem
    | addHeader name value =>
      rcases mem_set hmem with rfl | hmem
      · exact ⟨hc.1, fun hlower => absurd hlower hc.2⟩
      · exact ih hcalls hmem
    | setBody data =>
      rcases mem_set hmem with rfl | hmem
      · exact ⟨⟨clean_contentLength, clean_decimal _, no_colon_contentLength⟩, fun _ => rfl⟩
      · exact ih hcalls hmem

theorem clean_build_statusText {code : Int} {text : Bytes} {calls : List Setter}
    (htext : Clean text) (h : ∀ c ∈ calls, c.Clean) :
    Clean (HTTPResponse.build code text calls).statusText := by
  induction calls using List.reverseRecOn with
  | nil => exact htext
  | append_singleton calls c ih =>
    have hcalls : ∀ c ∈ calls, c.Clean := fun c hc => h c (List.mem_append_left _ hc)
    rw [build_snoc]
    cases c with
    | setStatus code' text' => exact h (.setStatus code' text') (by simp)
    | addHeader | setBody => exact ih hcalls

/-- Once a body is set, the Content-Length is its length. -/
theorem contentLength_build (code : Int) (text : Bytes) {calls : List Setter}
    (h : ∀ c ∈ calls, c.Clean) (hbody : ∃ data, .setBody data ∈ calls) :
    (HTTPResponse.build code text calls).Sized := by
  induction calls using List.reverseRecOn with
  | nil => simp at hbody
  | append_singleton calls c ih =>
    have hcalls : ∀ c ∈ calls, c.Clean := fun c hc => h c (List.mem_append_left _ hc)
    have hc : c.Clean := h c (by simp)
    rw [build_snoc]
    cases c with
    | setBody data => exact sized_setBody _ _
    | setStatus code' text' =>
      refine ih hcalls ?_
      simpa using hbody
    | addHeader name value =>
      have hne : ascii "Content-Length" ≠ name := by
        rintro rfl
        exact hc.2 (by decide)
      refine (HeaderMap.get_set_of_ne _ _ hne).trans (ih hcalls ?_)
      simpa using hbody

theorem clean_build {code : Int} {text : Bytes} {calls : List Setter} (htext : Clean text)
    (h : ∀ c ∈ calls, c.Clean) (hbody : ∃ data, .setBody data ∈ calls) :
    CleanResponse (HTTPResponse.build code text calls) where
  statusText := clean_build_statusText htext h
  headers _ hmem := (builtHeader_of_mem h hmem).clean
  nonempty hnil := by
    have hget := contentLength_build code text h hbody
    rw [HTTPResponse.Sized, HeaderMap.get, hnil] at hget
    cases hget

/-! ## Headers in any order -/

theorem lookup_eq_some_iff_mem {entries : List (Bytes × Bytes)} {name value : Bytes}
    (h : (entries.map Prod.fst).Nodup) :
    entries.lookup name = some value ↔ (name, value) ∈ entries := by
  induction entries with
  | nil => simp
  | cons e entries ih =>
    obtain ⟨n, v⟩ := e
    rw [List.map_cons, List.nodup_cons] at h
    by_cases hn : name = n
    · subst hn
      have hnot : (name, value) ∉ entries := fun hmem =>
        h.1 (List.mem_map.mpr ⟨_, hmem, rfl⟩)
      simp [hnot, eq_comm]
    · have hne : (name == n) = false := by simpa using hn
      rw [List.lookup_cons, hne, List.mem_cons]
      simp only [ih h.2, Prod.mk.injEq, hn, false_and, false_or]

theorem lookup_perm {order : List (Bytes × Bytes)} {headers : HeaderMap}
    (h : order.Perm headers.entries) (name : Bytes) : order.lookup name = headers.get name := by
  have hnodup : (order.map Prod.fst).Nodup := (h.map Prod.fst).nodup_iff.mpr headers.nodup
  refine Option.ext ?_
  intro value
  rw [HeaderMap.get, lookup_eq_some_iff_mem hnodup, lookup_eq_some_iff_mem headers.nodup,
    h.mem_iff]

/-- Whatever calls have built a response and in whatever order its headers are written,
it is decoded to the status, the headers and the body set last; and the Content-Length,
the only header of that name in any letter case, is the length of the body. -/
theorem decode_build {code : Int} {text : Bytes} {calls : List Setter}
    {order : List (Bytes × Bytes)} (htext : Clean text) (hcalls : ∀ c ∈ calls, c.Clean)
    (hbody : ∃ data, .setBody data ∈ calls)
    (horder : order.Perm (HTTPResponse.build code text calls).headers.entries) :
    ∃ d, decode ((HTTPResponse.build code text calls).toString order) = some d ∧
      (d.statusCode, d.statusText) = (lastSet Setter.status calls).getD (code, text) ∧
      (d.headers.map Prod.fst).Nodup ∧
      (∀ name, d.headers.lookup name = lastSet (Setter.value name) calls) ∧
      lastSet Setter.body calls = some d.body ∧
      d.headers.lookup (ascii "Content-Length") = some (HTTPResponse.decimal d.body.length) ∧
      ∀ header ∈ d.headers, header.1.map tolower = ascii "content-length" →
        header.1 = ascii "Content-Length" := by
  refine ⟨_, decode_toString (clean_build htext hcalls hbody) horder, ?_, ?_, ?_, ?_, ?_, ?_⟩
  · exact status_build code text calls
  · exact (horder.map Prod.fst).nodup_iff.mpr (HTTPResponse.build code text calls).headers.nodup
  · intro name
    rw [← get_build code text calls name]
    exact lookup_perm horder name
  · exact lastSet_body code text hbody
  · exact (lookup_perm horder _).trans (contentLength_build code text hcalls hbody)
  · intro header hmem
    exact (builtHeader_of_mem hcalls (horder.mem_iff.mp hmem)).contentLength

/-- A body that looks like the end of a head. -/
def setters : List Setter :=
  [.addHeader (ascii "Server") (ascii "a: b"), .setBody (ascii "old"),
    .setStatus 404 (ascii "Not Found"), .setBody (ascii "\r\n\r\nnew")]

theorem decode_build_setters :
    ∃ d, decode ((HTTPResponse.build 200 (ascii "OK") setters).toString
        (HTTPResponse.build 200 (ascii "OK") setters).headers.entries.reverse) = some d ∧
      (d.statusCode, d.statusText) = (404, ascii "Not Found") ∧
      some (ascii "\r\n\r\nnew") = some d.body := by
  obtain ⟨d, hd, hstatus, -, -, hbody, -⟩ := decode_build (by decide)
    (by decide : ∀ c ∈ setters, c.Clean) ⟨ascii "old", by decide⟩
    (List.reverse_perm (HTTPResponse.build 200 (ascii "OK") setters).headers.entries)
  exact ⟨d, hd, hstatus, hbody⟩

end SisProg.Http
