import Tagfold.Text.Utf8

/-!
# Sources

A source is a named text. Offsets into it count bytes; positions count lines and, within a line,
runes, both from one. `Source.lineCol` and `Source.offset` go from offsets to positions and back: on
rune boundaries they undo each other.
-/

namespace Tagfold

/-- A line and a column, both counted from one. Zero stands for an unknown position. -/
structure Pos where
  line : Int
  col : Int
  deriving DecidableEq, Repr

/-- A named text. -/
structure Source where
  name : Text
  content : Text
  deriving DecidableEq, Repr

namespace Source

/-- The number of bytes. -/
def size (s : Source) : Nat :=
  s.content.length

/-- The offsets at which lines start: zero, and after every newline. -/
def lineStarts (s : Source) : List Nat :=
  0 :: s.content.zipIdx.filterMap fun (b, i) ↦ if b = Text.newline then some (i + 1) else none

/-- The number of lines; an empty source has one. -/
def numLines (s : Source) : Nat :=
  s.lineStarts.length

/-- The bytes from one offset up to another. -/
def slice (s : Source) (start stop : Nat) : Text :=
  (s.content.take stop).drop start

/-- The position of an offset. Offsets out of range count as the nearest end. -/
def lineCol (s : Source) (offset : Int) : Pos :=
  let offset := min offset.toNat s.size
  let started := s.lineStarts.filter (· ≤ offset)
  let start := started.getLast?.getD 0
  ⟨started.length, Utf8.count (s.slice start offset) + 1⟩

/-- The empty sum is the numeral zero of the core library, whatever else is imported. -/
local instance (priority := high) coreZero : Zero Nat := Zero.ofOfNat0

/-- The number of bytes of the first `n` runes, or of those before the first newline. -/
def runWidth (n : Nat) (t : Text) : Nat :=
  ((((Utf8.decode t).takeWhile (· ≠ .scalar '\n')).take n).map Rune.size).sum

/-- The offset of a position. It is zero if a coordinate is not positive, the end of the line past
the last column, and the end of the source past the last line. -/
def offset (s : Source) (p : Pos) : Nat :=
  if p.line ≤ 0 ∨ p.col ≤ 0 then 0
  else
    match s.lineStarts[(p.line - 1).toNat]? with
    | none => s.size
    | some start => start + runWidth (p.col - 1).toNat (s.content.drop start)

/-- Remove one carriage return from the end. -/
def trimReturn (t : Text) : Text :=
  if t.getLast? = some Text.carriageReturn then t.dropLast else t

/-- The text of a line without its terminator, empty if there is no such line. -/
def line (s : Source) (n : Int) : Text :=
  if n ≤ 0 then []
  else
    match s.lineStarts[(n - 1).toNat]? with
    | none => []
    | some start =>
      let stop := (s.lineStarts[n.toNat]?.map (· - 1)).getD s.size
      trimReturn (s.slice start stop)

end Source

end Tagfold
