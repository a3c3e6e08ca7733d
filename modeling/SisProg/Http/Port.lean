import SisProg.Lib.Decimal
import SisProg.Lib.Regex

/-!
# Port numbers

The port of the server is read from a string, by a regular expression, `std::stol` and a
check of the range, and then goes through an `int`, an `unsigned int` and a `uint16_t`.

* `ofString_of_digits`: what the constructor does with up to five digits. `stol` cannot throw.
* `asAnnounced_iff`: the last port of the range that the message announces is refused.
-/

namespace SisProg.Http

open Bytes (ascii)
open Decimal (isDigit value)

/-- What the constructor of `Port` may throw: `Error::Port`, or what `stol` throws. -/
inductive PortError
  | port (what : Bytes)
  | stol (e : Decimal.StolError)
deriving DecidableEq

structure Port where
  portNumber : UInt32
deriving DecidableEq

namespace Port

def formatError : Bytes := ascii "Port format error: Port must consist of 1 to 5 digits"

def rangeError : Bytes := ascii "Port range error: Port must be between 0 and 65535"

/-- `^\d{1,5}$`. -/
def portRx : Regex UInt8 := .seq .bol (.seq (.between (.chr isDigit) 1 5) .eol)

def parsePort (s : Bytes) : Except PortError Int32 :=
  if portRx.fullMatch s then
    match Decimal.stol s with
    | .error e => .error (.stol e)
    | .ok p => if p < 0 ∨ p ≥ 65535 then .error (.port rangeError) else .ok (Int32.ofInt p)
  else .error (.port formatError)

/-- The constructor. -/
def ofString (s : Bytes) : Except PortError Port := (parsePort s).map fun n => ⟨n.toUInt32⟩

def get (port : Port) : UInt32 := port.portNumber

/-- `htons`: the high byte comes first. -/
def htons (n : UInt16) : UInt8 × UInt8 := ((n >>> 8).toUInt8, n.toUInt8)

/-- `address.sin_port`, as `bindSocket` sets it. -/
def sinPort (port : Port) : UInt8 × UInt8 := htons port.get.toUInt16

/-! ## What is accepted -/

theorem portRx_iff {s : Bytes} :
    portRx.fullMatch s = true ↔ (∀ b ∈ s, isDigit b = true) ∧ 1 ≤ s.length ∧ s.length ≤ 5 :=
  Regex.fullMatch_between (by decide)

theorem ofString_of_digits {s : Bytes} (hdigits : ∀ b ∈ s, isDigit b = true) (hone : 1 ≤ s.length)
    (hfive : s.length ≤ 5) :
    ofString s = if value s < 65535 then .ok ⟨UInt32.ofNat (value s)⟩
      else .error (.port rangeError) := by
  have hstol : Decimal.stol s = .ok (value s) :=
    Decimal.stol_digits (List.ne_nil_of_length_pos hone) hdigits (hfive.trans (by decide))
  have hcond : ((value s : Int) < 0 ∨ (value s : Int) ≥ 65535) ↔ ¬ value s < 65535 := by omega
  unfold ofString parsePort
  rw [if_pos (portRx_iff.mpr ⟨hdigits, hone, hfive⟩), hstol]
  dsimp only
  simp only [hcond]
  by_cases h : value s < 65535
  · rw [if_pos h, if_neg (not_not_intro h)]
    have hword : (Int32.ofInt (value s)).toUInt32 = UInt32.ofNat (value s) :=
      UInt32.toBitVec_inj.mp (BitVec.ofInt_natCast 32 (value s))
    rw [Except.map, hword]
  · rw [if_neg h, if_pos h]
    rfl

theorem ofString_of_not_match {s : Bytes} (h : ¬ portRx.fullMatch s = true) :
    ofString s = .error (.port formatError) := by
  unfold ofString parsePort
  rw [if_neg h]
  rfl

theorem htons_value (n : UInt16) : 256 * (htons n).1.toNat + (htons n).2.toNat = n.toNat := by
  have hlt : n.toNat < 65536 := n.toNat_lt
  have hhigh : (htons n).1.toNat = n.toNat / 256 := by
    show (n >>> 8).toNat % 256 = n.toNat / 256
    rw [UInt16.toNat_shiftRight]
    show n.toNat >>> 8 % 256 = n.toNat / 256
    rw [Nat.shiftRight_eq_div_pow]
    exact Nat.mod_eq_of_lt (Nat.div_lt_of_lt_mul hlt)
  have hlow : (htons n).2.toNat = n.toNat % 256 := rfl
  rw [hhigh, hlow, Nat.div_add_mod]

/-- A port that is small enough keeps its value in the address. -/
theorem sinPort_value {n : Nat} (h : n < 65536) :
    256 * (sinPort ⟨UInt32.ofNat n⟩).1.toNat + (sinPort ⟨UInt32.ofNat n⟩).2.toNat = n := by
  unfold sinPort
  rw [htons_value]
  show n % 4294967296 % 65536 = n
  rw [Nat.mod_eq_of_lt (h.trans (by decide)), Nat.mod_eq_of_lt h]

/-- A number of one to five digits, in the range of the message. -/
structure InRange (s : Bytes) : Prop where
  digits : ∀ b ∈ s, isDigit b = true
  one_le : 1 ≤ s.length
  le_five : s.length ≤ 5
  le_max : value s ≤ 65535

/-- The numbers of the range are accepted and no others, the others are refused with
`Error::Port`, and the number that is accepted is the one that the server binds. -/
structure AsAnnounced (s : Bytes) : Prop where
  accepted : (∃ port, ofString s = .ok port) ↔ InRange s
  refused : ∀ e, ofString s = .error e → ∃ what, e = .port what
  get : ∀ port, ofString s = .ok port → port.get.toNat = value s
  bound : ∀ port, ofString s = .ok port →
    256 * port.sinPort.1.toNat + port.sinPort.2.toNat = value s

theorem asAnnounced_of_refused {s what : Bytes} (h : ofString s = .error (.port what))
    (hrange : ¬ InRange s) : AsAnnounced s where
  accepted := by
    refine iff_of_false ?_ hrange
    rintro ⟨port, hok⟩
    rw [h] at hok
    cases hok
  refused e he := ⟨what, (Except.error.inj (h.symm.trans he)).symm⟩
  get port hok := by
    rw [h] at hok
    cases hok
  bound port hok := by
    rw [h] at hok
    cases hok

theorem asAnnounced_of_accepted {s : Bytes} (h : ofString s = .ok ⟨UInt32.ofNat (value s)⟩)
    (hrange : InRange s) : AsAnnounced s where
  accepted := iff_of_true ⟨_, h⟩ hrange
  refused e he := by
    rw [h] at he
    cases he
  get port hok := by
    obtain rfl := Except.ok.inj (h.symm.trans hok)
    exact Nat.mod_eq_of_lt (hrange.le_max.trans_lt (by decide))
  bound port hok := by
    obtain rfl := Except.ok.inj (h.symm.trans hok)
    exact sinPort_value (Nat.lt_succ_of_le hrange.le_max)

/-- The last port of the range, which has no other form with five digits. -/
def lastPort : Bytes := ascii "65535"

theorem lastPort_digits : ∀ b ∈ lastPort, isDigit b = true := List.all_eq_true.mp (by decide)

theorem value_lastPort : value lastPort = 65535 := by decide

theorem eq_lastPort {s : Bytes} (hdigits : ∀ b ∈ s, isDigit b = true) (hfive : s.length ≤ 5)
    (hvalue : value s = 65535) : s = lastPort := by
  have hlen : s.length = lastPort.length := by
    refine le_antisymm hfive (Nat.lt_of_not_le fun hle => ?_)
    have hlt := (Decimal.value_lt hdigits).trans_le (Nat.pow_le_pow_right (by decide) hle)
    rw [hvalue] at hlt
    exact absurd hlt (by decide)
  exact Decimal.value_inj hdigits lastPort_digits hlen (hvalue.trans value_lastPort.symm)

theorem lastPort_inRange : InRange lastPort where
  digits := lastPort_digits
  one_le := by decide
  le_five := by decide
  le_max := value_lastPort.le

theorem ofString_lastPort : ofString lastPort = .error (.port rangeError) := by
  rw [ofString_of_digits lastPort_inRange.digits lastPort_inRange.one_le lastPort_inRange.le_five,
    if_neg (by rw [value_lastPort]; decide)]

theorem not_asAnnounced_lastPort : ¬ AsAnnounced lastPort := by
  intro h
  obtain ⟨port, hok⟩ := h.accepted.mpr lastPort_inRange
  rw [ofString_lastPort] at hok
  cases hok

/-- Every string is treated as announced, but for the last port of the range. -/
theorem asAnnounced_iff (s : Bytes) : AsAnnounced s ↔ s ≠ ascii "65535" := by
  constructor
  · rintro h rfl
    exact not_asAnnounced_lastPort h
  · intro hne
    by_cases hmatch : portRx.fullMatch s = true
    · obtain ⟨hdigits, hone, hfive⟩ := portRx_iff.mp hmatch
      have hof := ofString_of_digits hdigits hone hfive
      by_cases hlt : value s < 65535
      · rw [if_pos hlt] at hof
        exact asAnnounced_of_accepted hof ⟨hdigits, hone, hfive, hlt.le⟩
      · rw [if_neg hlt] at hof
        refine asAnnounced_of_refused hof fun hrange => hne ?_
        exact eq_lastPort hdigits hfive (le_antisymm hrange.le_max (Nat.le_of_not_lt hlt))
    · exact asAnnounced_of_refused (ofString_of_not_match hmatch) fun hrange =>
        hmatch (portRx_iff.mpr ⟨hrange.digits, hrange.one_le, hrange.le_five⟩)

/-- The port is refused, with the message that announces it. -/
theorem lastPort_refused :
    ofString (ascii "65535") =
      .error (.port (ascii "Port range error: Port must be between 0 and 65535")) ∧
    InRange (ascii "65535") ∧ ¬ AsAnnounced (ascii "65535") :=
  ⟨ofString_lastPort, lastPort_inRange, not_asAnnounced_lastPort⟩

end Port

end SisProg.Http
