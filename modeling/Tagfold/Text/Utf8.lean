import Tagfold.Text.Basic
import Tagfold.Unicode.Category

/-!
# Characters of a text

A text is read from left to right as a sequence of runes: a rune is either a Unicode scalar value
in its one UTF-8 spelling, or a single byte that starts no such spelling. Reading loses nothing, so
the bytes of the runes joined together are the text again.

The scalar value at the head of a text is guessed from the bit pattern of the first bytes and
accepted only if its encoding really stands there. Overlong spellings, surrogates and values past
the last plane are refused by that one comparison.

Diagnostics show a text between double quotes on one line. Printable characters stand for
themselves; everything else is written as an escape, so that every byte of the text can be told from
the quoted form.
-/

namespace Tagfold

/-- One step of reading a text: a scalar value, or a byte that belongs to none. -/
inductive Rune where
  | scalar (c : Char)
  | stray (b : UInt8)
  deriving DecidableEq, Repr

namespace Utf8

/-- The UTF-8 bytes of a scalar value. -/
def encode (c : Char) : Text :=
  String.utf8EncodeChar c

/-- The UTF-8 bytes of a sequence of scalar values. -/
def encodeAll (cs : List Char) : Text :=
  cs.flatMap encode

/-- The replacement character, which stands for what is no scalar value. -/
def replacement : Char :=
  Char.ofNat 0xFFFD

/-- The character with the given number, the replacement character if there is none. -/
def ofCode (code : Int) : Char :=
  if h : 0 ≤ code ∧ code.toNat.isValidChar then Char.ofNatAux code.toNat h.2 else replacement

/-- The value of a character that is a hexadecimal digit. -/
def hexDigit? (c : Char) : Option Nat :=
  if c.isDigit then some (c.toNat - 48)
  else if 'a' ≤ c ∧ c ≤ 'f' then some (c.toNat - 87)
  else if 'A' ≤ c ∧ c ≤ 'F' then some (c.toNat - 55)
  else none

/-- The number of bytes announced by a leading byte, and the part of the value it carries. -/
def lead (b : UInt8) : Nat × Nat :=
  let n := b.toNat
  if n < 0x80 then (1, n)
  else if n < 0xE0 then (2, n % 32)
  else if n < 0xF0 then (3, n % 16)
  else (4, n % 8)

/-- The scalar value whose encoding starts the text, if there is one. -/
def head? : Text → Option Char
  | [] => none
  | b :: rest =>
    let (size, high) := lead b
    let value := (rest.take (size - 1)).foldl (fun v x ↦ 64 * v + x.toNat % 64) high
    let c := Char.ofNat value
    if (encode c).isPrefixOf (b :: rest) then some c else none

end Utf8

namespace Rune

/-- The bytes that a rune was read from. -/
def bytes : Rune → Text
  | scalar c => Utf8.encode c
  | stray b => [b]

/-- The number of bytes that a rune was read from. -/
def size (r : Rune) : Nat :=
  r.bytes.length

/-- The character shown for a rune, the replacement character for a stray byte. -/
def char : Rune → Char
  | scalar c => c
  | stray _ => Utf8.replacement

end Rune

namespace Utf8

/-- The first rune of a non-empty text. -/
def first (b : UInt8) (rest : Text) : Rune :=
  match head? (b :: rest) with
  | some c => .scalar c
  | none => .stray b

/-- Read the runes of a text behind those already read, which stand in reverse order. -/
def decodeOnto (read : List Rune) : Text → List Rune
  | [] => read
  | b :: rest =>
    let r := first b rest
    decodeOnto (r :: read) (rest.drop (r.size - 1))
termination_by t => t.length
decreasing_by
  simp only [List.length_cons, List.length_drop]
  omega

/-- The runes of a text, from left to right. -/
def decode (t : Text) : List Rune :=
  (decodeOnto [] t).reverse

/-- The number of runes of a text. -/
def count (t : Text) : Nat :=
  (decode t).length

/-- The characters of a text, a replacement character for every stray byte. -/
def chars (t : Text) : List Char :=
  (decode t).map Rune.char

/-- The characters of a text that is valid UTF-8. -/
def chars? (t : Text) : Option (List Char) :=
  (decode t).mapM fun
    | .scalar c => some c
    | .stray _ => none

/-- The number of bytes of the last rune of a text: the longest ending that encodes a scalar value,
one byte if there is none, and zero for the empty text. -/
def lastSize (t : Text) : Nat :=
  let ends (n : Nat) : Bool :=
    n ≤ t.length &&
      match head? (t.drop (t.length - n)) with
      | some c => (encode c).length == n
      | none => false
  if t.isEmpty then 0 else ([4, 3, 2].find? ends).getD 1

end Utf8

namespace Text

/-- The one-letter escapes of control characters. -/
def controlEscapes : List (Char × UInt8) :=
  [('\x07', 97), ('\x08', 98), ('\x0c', 102), ('\n', 110), ('\r', 114), ('\t', 116), ('\x0b', 118)]

/-- The quoted form of one character between the given quotes. -/
def quoteChar (quote c : Char) : Text :=
  let code := c.toNat
  if c = quote ∨ c = '\\' then 92 :: Utf8.encode c
  else if Unicode.isPrintable code then Utf8.encode c
  else
    match controlEscapes.lookup c with
    | some letter => [92, letter]
    | none =>
      if code < 0x20 ∨ code = 0x7F then utf8 "\\x" ++ hex 2 code
      else if code < 0x10000 then utf8 "\\u" ++ hex 4 code
      else utf8 "\\U" ++ hex 8 code

/-- The quoted form of one rune; a stray byte is written as its number. -/
def quoteRune (quote : Char) : Rune → Text
  | .scalar c => quoteChar quote c
  | .stray b => utf8 "\\x" ++ hex 2 b.toNat

/-- The text between double quotes, with escapes. -/
def quoted (t : Text) : Text :=
  34 :: ((Utf8.decode t).flatMap (quoteRune '"') ++ [34])

end Text

end Tagfold
