/-!
# Texts

A text is a sequence of bytes. Nothing forces it to be valid UTF-8: names, contents and messages
are kept byte for byte, and characters are looked for only where a rule of the library is about
characters. This module fixes the type, its literals, joining, and decimal numerals; `decimal` and
`digitsValue` are the two directions between natural numbers and their numerals.
-/

namespace Tagfold

/-- A text is a sequence of bytes. -/
abbrev Text := List UInt8

/-- The UTF-8 bytes of a string literal. -/
def utf8 (s : String) : Text :=
  s.toUTF8.data.toList

namespace Text

/-- The line feed byte. -/
def newline : UInt8 := 10

/-- The carriage return byte. -/
def carriageReturn : UInt8 := 13

/-- Put a separator between consecutive texts. -/
def join (separator : Text) (parts : List Text) : Text :=
  separator.intercalate parts

/-- The text repeated a number of times. -/
def times (n : Nat) (t : Text) : Text :=
  (List.replicate n t).flatten

/-- The byte is one of the ten ASCII digits. -/
def isDigit (b : UInt8) : Bool :=
  48 ≤ b && b ≤ 57

/-- The ASCII digit of a number below ten. -/
def digit (n : Nat) : UInt8 :=
  (48 + n).toUInt8

/-- The number that an ASCII digit stands for. -/
def digitValue (b : UInt8) : Nat :=
  b.toNat - 48

/-- The decimal numeral of a natural number, without leading zeros. -/
def decimal (n : Nat) : Text :=
  if n < 10 then [digit n] else decimal (n / 10) ++ [digit (n % 10)]

/-- The number that a run of digits denotes. -/
def digitsValue (t : Text) : Nat :=
  t.foldl (fun n b ↦ 10 * n + digitValue b) 0

/-- The decimal numeral of an integer, a minus sign in front of negative ones. -/
def ofInt (i : Int) : Text :=
  match i with
  | .ofNat n => decimal n
  | .negSucc n => 45 :: decimal (n + 1)

/-- The lower-case hexadecimal digit of a number below sixteen. -/
def hexDigit (n : Nat) : UInt8 :=
  if n < 10 then (48 + n).toUInt8 else (87 + n).toUInt8

/-- The last `width` hexadecimal digits of a number, leading zeros kept. -/
def hex : (width : Nat) → Nat → Text
  | 0, _ => []
  | width + 1, n => hex width (n / 16) ++ [hexDigit (n % 16)]

/-- The number that a hexadecimal digit of either case stands for. -/
def hexValue? (b : UInt8) : Option Nat :=
  if 48 ≤ b && b ≤ 57 then some (b.toNat - 48)
  else if 97 ≤ b && b ≤ 102 then some (b.toNat - 87)
  else if 65 ≤ b && b ≤ 70 then some (b.toNat - 55)
  else none

end Text

end Tagfold
