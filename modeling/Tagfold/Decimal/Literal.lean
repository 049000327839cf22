import Tagfold.Decimal.Double
import Tagfold.Issue

/-!
# Reading numbers

A number literal is an optional sign and a decimal or hexadecimal number, with an optional point and
an exponent that a hexadecimal one must have, or one of the names of infinity and of what is not a
number. A single underscore may stand between two digits, or between the hexadecimal mark and a
digit. The value is the nearest double; a literal that rounds past the largest double is out of
range.

A run of digits is a 64-bit integer if it fits, and the nearest double otherwise. A text that is no
number, or too large a number, is an issue that quotes the text.
-/

namespace Tagfold

open scoped CorePower

/-- Why a text is not the literal of a double. -/
inductive LiteralError where
  | invalid
  | outOfRange
  deriving DecidableEq, Repr

namespace Literal

/-- Lower-case an ASCII letter. -/
def lower (b : UInt8) : UInt8 :=
  if 65 ≤ b && b ≤ 90 then b + 32 else b

/-- The digits read so far: their value, how many stand after the point, and what was seen. -/
structure Mantissa where
  value : Nat := 0
  places : Nat := 0
  point : Bool := false
  digits : Bool := false
  deriving DecidableEq, Repr

/-- The value of a digit in the given base. -/
def digitIn? (base : Nat) (b : UInt8) : Option Nat :=
  (Text.hexValue? b).filter (· < base)

/-- Read digits, at most one point, and underscores. -/
def readMantissa (base : Nat) (m : Mantissa) : Text → Mantissa × Text
  | [] => (m, [])
  | b :: rest =>
    if b = 95 then readMantissa base m rest
    else if b = 46 then
      if m.point then (m, b :: rest) else readMantissa base { m with point := true } rest
    else
      match digitIn? base b with
      | some d =>
        let places := if m.point then m.places + 1 else m.places
        readMantissa base { m with value := base * m.value + d, places, digits := true } rest
      | none => (m, b :: rest)

/-- Read the digits of an exponent; once it has five digits the rest of them do not count. -/
def readExponent (e : Nat) : Text → Nat × Text
  | [] => (e, [])
  | b :: rest =>
    if b = 95 then readExponent e rest
    else if Text.isDigit b then
      readExponent (if e < 10000 then 10 * e + Text.digitValue b else e) rest
    else (e, b :: rest)

/-- What the last byte was when underscores are checked. -/
inductive Seen where
  | start
  | digit
  | underscore
  | other
  deriving DecidableEq, Repr

/-- Every underscore stands between digits, given what stands before the text. -/
def underscoresFit (hex : Bool) : Seen → Text → Bool
  | seen, [] => seen != .underscore
  | seen, b :: rest =>
    if (digitIn? (if hex then 16 else 10) b).isSome then underscoresFit hex .digit rest
    else if b = 95 then seen == .digit && underscoresFit hex .underscore rest
    else seen != .underscore && underscoresFit hex .other rest

/-- A sign in front of a text. -/
def splitSign : Text → Bool × Text
  | 43 :: rest => (false, rest)
  | 45 :: rest => (true, rest)
  | t => (false, t)

/-- The named values. -/
def special? (t : Text) : Option Double :=
  let (negative, rest) := splitSign t
  let name := rest.map lower
  if t.map lower = utf8 "nan" then some .nan
  else if name = utf8 "inf" ∨ name = utf8 "infinity" then
    some (.number negative Double.infiniteRank)
  else none

/-- The hexadecimal mark in front of at least one more byte. -/
def hexBody? : Text → Option Text
  | 48 :: x :: b :: rest => if lower x = 120 then some (b :: rest) else none
  | _ => none

/-- The signed exponent behind its letter, and the rest. -/
def signedExponent? (t : Text) : Option (Int × Text) :=
  let (negative, rest) := splitSign t
  match rest with
  | b :: _ =>
    if Text.isDigit b then
      let (e, rest') := readExponent 0 rest
      some (if negative then -(e : Int) else e, rest')
    else none
  | [] => none

/-- The double nearest to `m · base ^ exponent`, divided by `point ^ places`. -/
def rounded (negative : Bool) (m : Mantissa) (point base : Nat) (exponent : Int) :
    Except LiteralError Double :=
  let n := m.value * base ^ exponent.toNat
  let d := point ^ m.places * base ^ (-exponent).toNat
  let rank := Double.nearestRank n d
  if rank < Double.infiniteRank then .ok (.number negative rank) else .error .outOfRange

/-- Read the literal of a double; the whole text must be used. -/
def readDouble (t : Text) : Except LiteralError Double :=
  match special? t with
  | some d => .ok d
  | none =>
    let (negative, unsigned) := splitSign t
    let hex := hexBody? unsigned
    let point := if hex.isSome then 16 else 10
    let base := if hex.isSome then 2 else 10
    let letter : UInt8 := if hex.isSome then 112 else 101
    let (m, rest) := readMantissa point {} (hex.getD unsigned)
    let exponent : Option (Int × Text) :=
      match rest with
      | b :: behind => if lower b = letter then signedExponent? behind else some (0, rest)
      | [] => if hex.isSome then none else some (0, [])
    let fits :=
      !unsigned.contains 95 ||
        (match hex with
        | some body => underscoresFit true .digit body
        | none => underscoresFit false .start unsigned)
    match exponent with
    | some (e, []) =>
      if m.digits && fits then rounded negative m point base e else .error .invalid
    | _ => .error .invalid

end Literal

namespace Number

/-- The words for why a text is not the literal of a double. -/
def reason : LiteralError → Text
  | .invalid => utf8 "invalid syntax"
  | .outOfRange => utf8 "value out of range"

/-- The double that a text denotes. -/
def double (t : Text) : Except Issue Double :=
  (Literal.readDouble t).mapError fun e ↦
    .plain (utf8 "strconv.ParseFloat: parsing " ++ t.quoted ++ utf8 ": " ++ reason e)

/-- The text is a non-empty run of digits. -/
def isNumeral (t : Text) : Bool :=
  !t.isEmpty && t.all Text.isDigit

/-- The value of a run of digits. -/
def integer (t : Text) : Except Issue Value :=
  let n := Text.digitsValue t
  if n < 2 ^ (63 : Nat) then .ok (.int (Int64.ofNat n)) else (double t).map .double

end Number

end Tagfold
