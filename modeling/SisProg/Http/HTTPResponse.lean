import SisProg.Lib.Bytes

/-!
# Responses

`HTTPResponse` keeps its headers in a `std::unordered_map`: for each name the value
set last. The map may be iterated in any order, which is a parameter of `toString`.
-/

namespace SisProg.Http

open Bytes (ascii)

/-- A `std::unordered_map` from names to values. -/
structure HeaderMap where
  entries : List (Bytes × Bytes)
  nodup : (entries.map Prod.fst).Nodup

namespace HeaderMap

def empty : HeaderMap := ⟨[], List.nodup_nil⟩

/-- `headers[name] = value`. -/
def set (headers : HeaderMap) (name value : Bytes) : HeaderMap where
  entries := (name, value) :: headers.entries.filter (·.1 ≠ name)
  nodup := by
    rw [List.map_cons, List.nodup_cons]
    refine ⟨by simp, ?_⟩
    exact headers.nodup.sublist (List.filter_sublist.map Prod.fst)

/-- The value of a name, if it has one. -/
def get (headers : HeaderMap) (name : Bytes) : Option Bytes :=
  headers.entries.lookup name

@[simp] theorem get_set_self (headers : HeaderMap) (name value : Bytes) :
    (headers.set name value).get name = some value := by
  simp [get, set]

theorem lookup_filter_ne (entries : List (Bytes × Bytes)) {name name' : Bytes}
    (h : name' ≠ name) : (entries.filter (·.1 ≠ name)).lookup name' = entries.lookup name' := by
  induction entries with
  | nil => rfl
  | cons e entries ih =>
    obtain ⟨n, v⟩ := e
    by_cases hn : n = name
    · subst hn
      have hne : (name' == n) = false := by simpa using h
      rw [List.filter_cons_of_neg (by simp), ih, List.lookup_cons, hne]
    · rw [List.filter_cons_of_pos (by simpa using hn), List.lookup_cons, List.lookup_cons, ih]

@[simp] theorem get_set_of_ne (headers : HeaderMap) {name name' : Bytes} (value : Bytes)
    (h : name' ≠ name) : (headers.set name value).get name' = headers.get name' := by
  have hne : (name' == name) = false := by simpa using h
  unfold get set
  rw [List.lookup_cons, hne]
  exact lookup_filter_ne headers.entries h

end HeaderMap

structure HTTPResponse where
  statusCode : Int := 200
  statusText : Bytes := ascii "OK"
  headers : HeaderMap := .empty
  body : Bytes := []

namespace HTTPResponse

def setStatus (resp : HTTPResponse) (code : Int) (text : Bytes) : HTTPResponse :=
  { resp with statusCode := code, statusText := text }

def addHeader (resp : HTTPResponse) (name value : Bytes) : HTTPResponse :=
  { resp with headers := resp.headers.set name value }

/-- `std::to_string`. -/
def decimal (n : Nat) : Bytes := (Nat.toDigits 10 n).map fun c => c.toNat.toUInt8

def setBody (resp : HTTPResponse) (data : Bytes) : HTTPResponse :=
  { resp with
    body := data
    headers := resp.headers.set (ascii "Content-Length") (decimal data.length) }

/-- `out << statusCode`. -/
def signedDecimal : Int → Bytes
  | .ofNat n => decimal n
  | .negSucc n => ascii "-" ++ decimal (n + 1)

/-- A header line, with its CRLF. -/
def headerLine (header : Bytes × Bytes) : Bytes :=
  header.1 ++ ascii ": " ++ header.2 ++ ascii "\r\n"

/-- `order` is the order in which the loop visits the headers. -/
def toString (resp : HTTPResponse) (order : List (Bytes × Bytes)) : Bytes :=
  ascii "HTTP/1.1 " ++ signedDecimal resp.statusCode ++ ascii " " ++ resp.statusText ++
    ascii "\r\n" ++ order.flatMap headerLine ++ ascii "\r\n" ++ resp.body

end HTTPResponse

end SisProg.Http
