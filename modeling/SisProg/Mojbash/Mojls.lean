import SisProg.Lib.Fallible
import SisProg.Lib.FileSystem
import SisProg.Lib.Printf

/-!
# mojls

`mojls` lists its operands, or the working directory if it has none, with a row for each
entry. `read_dir_info` prints the path of an entry with the operand as the format: there
is no `"%s/%s"`. An operand without `%` is then its own output, and each row of its listing
shows the directory itself (`readEntry_literal`). After an operand that cannot be opened,
`readdir` is called on no directory.

* `mojls_lists_iff`: operands without `%` have the listing that they should exactly if they
  can be opened and their entries have the metadata of the directory.
-/

namespace SisProg.Mojbash

open Bytes (ascii)
open Fallible (mapM_both_iff reduceOption_both_iff)
open Printf (snprintf unsignedDecimal signedDecimal)

/-- What the macros `S_IS…` tell apart. -/
inductive FileKind
  | reg | dir | lnk | chr | blk | fifo | sock | other
deriving DecidableEq

def getInodeType : FileKind → Bytes
  | .reg => ascii "-"
  | .dir => ascii "d"
  | .lnk => ascii "l"
  | .chr => ascii "c"
  | .blk => ascii "b"
  | .fifo => ascii "p"
  | .sock => ascii "s"
  | .other => ascii "?"

/-- The fields of `struct stat` that are shown. -/
structure Stat where
  ino : Nat
  kind : FileKind
  nlink : Nat
  uid : UInt32
  gid : UInt32
  size : Nat
  mtime : Int
deriving DecidableEq

/-- What a row shows. -/
structure Row where
  ino : Nat
  type : Bytes
  nlink : Nat
  uid : Int
  gid : Int
  size : Nat
  date : Bytes
  name : Bytes
deriving DecidableEq

/-- `"%lu\t%c\t%lu\t%d\t%d\t%lu\t"` and `"%s\t%s\n"`. -/
def Row.line (r : Row) : Bytes :=
  unsignedDecimal r.ino ++ ascii "\t" ++ r.type ++ ascii "\t" ++ unsignedDecimal r.nlink ++
    ascii "\t" ++ signedDecimal r.uid ++ ascii "\t" ++ signedDecimal r.gid ++ ascii "\t" ++
    unsignedDecimal r.size ++ ascii "\t" ++ r.date ++ ascii "\t" ++ r.name ++ ascii "\n"

/-- What the kernel and the library do with a path or a time. -/
structure Host where
  opendir : Bytes → Except Errno (List Bytes)
  stat : Bytes → Option Stat
  strerror : Errno → Bytes
  /-- `localtime` and `strftime`; a year that is no `int` has no `struct tm`. -/
  date : Int → Option Bytes

/-- What is written for an operand: a message, and rows. -/
structure Listing where
  error : Option Bytes
  rows : List Row
deriving DecidableEq

/-- `print_error("mojls", "opendir", strerror(errno))`. -/
def opendirError (h : Host) (e : Errno) : Bytes :=
  ascii "mojls" ++ ascii ": " ++ ascii "opendir" ++ ascii ": " ++ h.strerror e ++ ascii "\n"

/-- The row for the entry `name`, if there is a `struct stat`. -/
def rowOf (h : Host) (showId : UInt32 → Int) (name : Bytes) : Option Stat → Option (Option Row)
  | none => some none
  | some st => (h.date st.mtime).map fun date =>
    some ⟨st.ino, getInodeType st.kind, st.nlink, showId st.uid, showId st.gid, st.size, date, name⟩

/-- `%d` takes an `int`. -/
def asInt (id : UInt32) : Int := id.toInt32.toInt

/-- The body of the loop of `read_dir_info`. -/
def readEntry (h : Host) (dirpath name : Bytes) : Option (Option Row) :=
  -- `snprintf(fullpath, sizeof(fullpath), dirpath, direntry->d_name)`
  (snprintf 256 dirpath name).bind fun fullpath => rowOf h asInt name (h.stat fullpath)

/-- Undefined behaviour is `none`. -/
def readDirInfo (h : Host) (dirpath : Bytes) : Option Listing :=
  match h.opendir dirpath with
  -- the message is printed, and then `readdir(NULL)` is called
  | .error _ => none
  | .ok names => (names.mapM (readEntry h dirpath)).map fun rows => ⟨none, rows.reduceOption⟩

/-- The directories that are listed. -/
def listed (args : List Bytes) : List Bytes := if args.isEmpty then [ascii "."] else args

def mojls (h : Host) (args : List Bytes) : Option (List Listing) :=
  (listed args).mapM (readDirInfo h)

/-! ## The listing of the operands -/

/-- The row of the file `dirpath/name`. -/
def ownRow (h : Host) (dirpath name : Bytes) : Option (Option Row) :=
  rowOf h (fun id => (id.toNat : Int)) name (h.stat (dirpath ++ ascii "/" ++ name))

/-- What is to be written for an operand. -/
def ownListing (h : Host) (dirpath : Bytes) : Option Listing :=
  match h.opendir dirpath with
  | .error e => some ⟨some (opendirError h e), []⟩
  | .ok names => (names.mapM (ownRow h dirpath)).map fun rows => ⟨none, rows.reduceOption⟩

def Lists (h : Host) (args : List Bytes) (out : List Listing) : Prop :=
  (listed args).mapM (ownListing h) = some out

/-- The files `a` and `b` have the same row, and the owner of `b` is an `int`. -/
structure SameShown (h : Host) (a b : Stat) : Prop where
  ino : a.ino = b.ino
  type : getInodeType a.kind = getInodeType b.kind
  nlink : a.nlink = b.nlink
  uid : a.uid = b.uid ∧ b.uid.toNat < 2147483648
  gid : a.gid = b.gid ∧ b.gid.toNat < 2147483648
  size : a.size = b.size
  date : ∃ date, h.date a.mtime = some date ∧ h.date b.mtime = some date

/-- The results of two calls of `stat`. -/
def SameResult (h : Host) : Option Stat → Option Stat → Prop
  | none, none => True
  | some a, some b => SameShown h a b
  | _, _ => False

theorem asInt_eq_iff {a b : UInt32} :
    asInt a = (b.toNat : Int) ↔ a = b ∧ b.toNat < 2147483648 := by
  unfold asInt
  rw [← UInt32.toNat_inj]
  have hint : a.toInt32.toInt = if 2 * a.toNat < 4294967296 then (a.toNat : Int)
      else (a.toNat : Int) - 4294967296 := BitVec.toInt_eq_toNat_cond a.toBitVec
  have ha := a.toNat_lt
  have hb := b.toNat_lt
  rw [hint]
  split <;> omega

theorem rowOf_eq_iff (h : Host) (name : Bytes) (a b : Option Stat) :
    (∃ row, rowOf h asInt name a = some row ∧
      rowOf h (fun id => (id.toNat : Int)) name b = some row) ↔ SameResult h a b := by
  cases a with
  | none =>
    cases b with
    | none => simp [rowOf, SameResult]
    | some b => simp [rowOf, SameResult]
  | some a =>
    cases b with
    | none => simp [rowOf, SameResult]
    | some b =>
      constructor
      · rintro ⟨row, hrow, hown⟩
        obtain ⟨date, hdate, rfl⟩ := Option.map_eq_some_iff.mp hrow
        obtain ⟨date', hdate', heq⟩ := Option.map_eq_some_iff.mp hown
        obtain ⟨hino, htype, hnlink, huid, hgid, hsize, rfl, -⟩ :=
          Row.mk.inj (Option.some.inj heq).symm
        exact ⟨hino, htype, hnlink, asInt_eq_iff.mp huid, asInt_eq_iff.mp hgid, hsize, date,
          hdate, hdate'⟩
      · rintro ⟨hino, htype, hnlink, huid, hgid, hsize, date, hdate, hdate'⟩
        refine ⟨_, Option.map_eq_some_iff.mpr ⟨date, hdate, rfl⟩,
          Option.map_eq_some_iff.mpr ⟨date, hdate', ?_⟩⟩
        rw [hino, htype, hnlink, hsize, asInt_eq_iff.mpr huid, asInt_eq_iff.mpr hgid]

/-- A row has the name of its entry. -/
theorem name_of_rowOf {h : Host} {showId : UInt32 → Int} {name : Bytes} {st : Option Stat}
    {row : Row} (hrow : rowOf h showId name st = some (some row)) : row.name = name := by
  cases st with
  | none => cases hrow
  | some st =>
    obtain ⟨date, -, heq⟩ := Option.map_eq_some_iff.mp hrow
    obtain rfl := Option.some.inj heq
    rfl

/-! ## Listings -/

/-- The operand is not a format, and is printed. -/
def Literal (dirpath : Bytes) : Prop :=
  Printf.percent ∉ dirpath ∧ dirpath.length ≤ Printf.intMax

instance (dirpath : Bytes) : Decidable (Literal dirpath) :=
  inferInstanceAs (Decidable (_ ∧ _))

/-- A literal operand, up to the size of the array, is the path of each of its entries. -/
theorem readEntry_literal (h : Host) {dirpath : Bytes} (hliteral : Literal dirpath)
    (name : Bytes) :
    readEntry h dirpath name = rowOf h asInt name (h.stat (dirpath.take 255)) := by
  rw [readEntry, Printf.snprintf_literal hliteral.1 hliteral.2, Option.bind_some]

theorem readEntry_both_iff (h : Host) {dirpath : Bytes} (hliteral : Literal dirpath)
    (name : Bytes) :
    (∃ row, readEntry h dirpath name = some row ∧ ownRow h dirpath name = some row) ↔
      SameResult h (h.stat (dirpath.take 255)) (h.stat (dirpath ++ ascii "/" ++ name)) := by
  rw [← rowOf_eq_iff h name, readEntry_literal h hliteral]
  rfl

theorem name_of_readEntry {h : Host} {dirpath name : Bytes} {row : Row}
    (hrow : readEntry h dirpath name = some (some row)) : row.name = name := by
  obtain ⟨fullpath, -, hrow⟩ := Option.bind_eq_some_iff.mp hrow
  exact name_of_rowOf hrow

theorem name_of_ownRow {h : Host} {dirpath name : Bytes} {row : Row}
    (hrow : ownRow h dirpath name = some (some row)) : row.name = name :=
  name_of_rowOf hrow

/-- A listing without a message is told by its rows. -/
theorem listing_both_iff {r s : Option (List (Option Row))} :
    (∃ out : Listing, r.map (fun rows => ⟨none, rows.reduceOption⟩) = some out ∧
      s.map (fun rows => ⟨none, rows.reduceOption⟩) = some out) ↔
      ∃ rows, r.map List.reduceOption = some rows ∧ s.map List.reduceOption = some rows := by
  cases r with
  | none => simp
  | some r =>
    cases s with
    | none => simp
    | some s => simp

/-- An operand is listed as it should if it can be opened, and each of its entries has got
its own row. -/
theorem readDirInfo_both_iff (h : Host) (dirpath : Bytes) :
    (∃ out, readDirInfo h dirpath = some out ∧ ownListing h dirpath = some out) ↔
      ∃ names, h.opendir dirpath = .ok names ∧ ∀ name ∈ names,
        ∃ row, readEntry h dirpath name = some row ∧ ownRow h dirpath name = some row := by
  unfold readDirInfo ownListing
  cases h.opendir dirpath with
  | error e => simp
  | ok names =>
    have hrows := @reduceOption_both_iff _ _ (readEntry h dirpath) (ownRow h dirpath) Row.name names
      (fun _ _ => name_of_readEntry) (fun _ _ => name_of_ownRow)
    dsimp only
    rw [listing_both_iff, hrows]
    simp

/-- The directory can be opened, and its entries have the metadata of the directory itself,
whose path ends with the array. -/
def LikeDirectory (h : Host) (dirpath : Bytes) : Prop :=
  ∃ names, h.opendir dirpath = .ok names ∧ ∀ name ∈ names,
    SameResult h (h.stat (dirpath.take 255)) (h.stat (dirpath ++ ascii "/" ++ name))

/-- Operands without `%` have the listing that they should exactly if their entries have the
metadata of the directory. An operand that cannot be opened spoils any listing. -/
theorem mojls_lists_iff (h : Host) (args : List Bytes) :
    ((∀ dirpath ∈ listed args, Literal dirpath) →
      ((∃ out, mojls h args = some out ∧ Lists h args out) ↔
        ∀ dirpath ∈ listed args, LikeDirectory h dirpath)) ∧
    ((∃ out, mojls h args = some out ∧ Lists h args out) →
      ∀ dirpath ∈ listed args, ∃ names, h.opendir dirpath = .ok names) := by
  unfold mojls Lists
  simp only [mapM_both_iff, readDirInfo_both_iff]
  constructor
  · intro hliteral
    refine forall₂_congr fun dirpath hdir => ?_
    simp only [readEntry_both_iff h (hliteral dirpath hdir)]
    rfl
  · intro hboth dirpath hdir
    obtain ⟨names, hopen, -⟩ := hboth dirpath hdir
    exact ⟨names, hopen⟩

/-- The root directory of a file system without files. -/
def emptyRoot : Host where
  opendir _ := .ok [ascii ".", ascii ".."]
  stat _ := some ⟨2, .dir, 2, 0, 0, 40, 0⟩
  strerror _ := []
  date _ := some (ascii "1970-01-01 00:00")

theorem mojls_lists_emptyRoot :
    ∃ out, mojls emptyRoot [ascii "/"] = some out ∧ Lists emptyRoot [ascii "/"] out := by
  refine ((mojls_lists_iff emptyRoot [ascii "/"]).1 (by decide)).mpr ?_
  rintro dirpath -
  refine ⟨_, rfl, fun name _ => ?_⟩
  exact ⟨rfl, rfl, rfl, ⟨rfl, by decide⟩, ⟨rfl, by decide⟩, rfl, _, rfl, rfl⟩

/-- The working directory, with a file in it. -/
def oneEntry : Host where
  opendir _ := .ok [ascii ".", ascii "f"]
  stat path :=
    if path = ascii "./f" then some ⟨3, .reg, 1, 0, 0, 5, 60⟩ else some ⟨2, .dir, 2, 0, 0, 40, 0⟩
  strerror _ := []
  date _ := some (ascii "1970-01-01 00:00")

/-- A row that shows the directory. -/
def dirRow (name : Bytes) : Row := ⟨2, ascii "d", 2, 0, 0, 40, ascii "1970-01-01 00:00", name⟩

/-- The row of the file shows the directory. -/
theorem directory_shown :
    (mojls oneEntry []).map (fun out => out.flatMap fun l => l.rows.flatMap Row.line) =
      some (ascii "2\td\t2\t0\t0\t40\t1970-01-01 00:00\t.\n" ++
        ascii "2\td\t2\t0\t0\t40\t1970-01-01 00:00\tf\n") ∧
    ¬ ∃ out, mojls oneEntry [] = some out ∧ Lists oneEntry [] out := by
  have hentry : readEntry oneEntry (ascii ".") = fun name =>
      rowOf oneEntry asInt name (oneEntry.stat (ascii ".")) :=
    funext (readEntry_literal oneEntry (by decide))
  have hout : mojls oneEntry [] = some [⟨none, [dirRow (ascii "."), dirRow (ascii "f")]⟩] := by
    have hdir : readDirInfo oneEntry (ascii ".") =
        ([ascii ".", ascii "f"].mapM (readEntry oneEntry (ascii "."))).map
          fun rows => ⟨none, rows.reduceOption⟩ := rfl
    rw [mojls, show listed [] = [ascii "."] from rfl, List.mapM_cons, hdir, hentry]
    decide
  have hown : ¬ Lists oneEntry [] [⟨none, [dirRow (ascii "."), dirRow (ascii "f")]⟩] := by
    unfold Lists
    decide
  rw [hout]
  refine ⟨by decide, ?_⟩
  rintro ⟨out, heq, hlists⟩
  exact hown (Option.some.inj heq ▸ hlists)

end SisProg.Mojbash
