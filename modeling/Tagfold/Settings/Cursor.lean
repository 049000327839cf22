/-!
# Cursors

A document is read with a cursor: the characters ahead and the column of the first of them. Line
breaks of all kinds are turned into line feeds before reading, save the two Unicode separators, which
are kept.
-/

namespace Tagfold.Settings

/-- The character ends a line. -/
def isBreak (c : Char) : Bool :=
  c == '\n' || c.toNat == 0x2028 || c.toNat == 0x2029

/-- The character is a space or a tab. -/
def isBlank (c : Char) : Bool :=
  c == ' ' || c == '\t'

/-- The character separates words. -/
def isGap (c : Char) : Bool :=
  isBlank c || isBreak c

/-- Turn carriage returns and next-line characters into line feeds, a pair of them into one. -/
def unifyBreaks : List Char → List Char
  | '\r' :: '\n' :: rest => '\n' :: unifyBreaks rest
  | c :: rest => (if c == '\r' || c.toNat == 0x85 then '\n' else c) :: unifyBreaks rest
  | [] => []

/-- The character may occur in a document. -/
def isAllowed (c : Char) : Bool :=
  let n := c.toNat
  n == 9 || n == 10 || n == 13 || (0x20 ≤ n && n ≤ 0x7E) || n == 0x85 ||
    (0xA0 ≤ n && n ≤ 0xFFFD) || 0x10000 ≤ n

/-- The character is a byte order mark. -/
def isOrderMark (c : Char) : Bool :=
  c.toNat == 0xFEFF

/-- A word ends here. -/
def endsWord : List Char → Bool
  | [] => true
  | c :: _ => isGap c

/-- The characters ahead and the column of the first of them, counted from zero. -/
structure Cursor where
  rest : List Char
  col : Nat
  deriving DecidableEq, Repr

namespace Cursor

/-- Move over a number of characters. -/
def drop (c : Cursor) (n : Nat) : Cursor :=
  let passed := c.rest.take n
  let lastLine := (passed.reverse.takeWhile (!isBreak ·)).length
  ⟨c.rest.drop n, if passed.any isBreak then lastLine else c.col + n⟩

/-- A line that begins with three hyphens or three dots ends the document. -/
def atMarker (c : Cursor) : Bool :=
  c.col == 0 && (c.rest.take 3 == "---".toList || c.rest.take 3 == "...".toList) &&
    endsWord (c.rest.drop 3)

/-- The document ends here. -/
def atEnd (c : Cursor) : Bool :=
  c.rest.isEmpty || c.atMarker

/-- The characters ahead are an indicator that stands as a word of its own. -/
def atIndicator (c : Cursor) (ch : Char) : Bool :=
  c.rest.head? == some ch && endsWord c.rest.tail

/-- Move over blanks, line breaks, comments, and byte order marks in the first column. Outside
brackets a tab may not stand where a new entry could start, which is the case behind a line break and
where the flag says so. The flag that is returned tells whether a new entry could start at the
cursor. -/
def skipGap (inBrackets : Bool) : (fuel : Nat) → (fresh : Bool) → Cursor → Bool × Cursor
  | 0, fresh, c => (fresh, c)
  | fuel + 1, fresh, c =>
    match c.rest with
    | [] => (fresh, c)
    | ch :: rest =>
      if ch == '#' then
        skipGap inBrackets fuel fresh (c.drop (1 + (rest.takeWhile (!isBreak ·)).length))
      else if isBreak ch then skipGap inBrackets fuel (fresh || !inBrackets) (c.drop 1)
      else if ch == ' ' || (ch == '\t' && (inBrackets || !fresh)) ||
          (isOrderMark ch && c.col == 0) then
        skipGap inBrackets fuel fresh (c.drop 1)
      else (fresh, c)

/-- Move over everything between two tokens outside brackets. -/
def toToken (fresh : Bool) (c : Cursor) : Bool × Cursor :=
  skipGap false c.rest.length fresh c

/-- Move over everything between two tokens inside brackets. -/
def toFlowToken (c : Cursor) : Cursor :=
  (skipGap true c.rest.length false c).2

end Cursor

end Tagfold.Settings
