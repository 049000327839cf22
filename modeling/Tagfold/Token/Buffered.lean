import Tagfold.Token.Scan

/-!
# Scanning with one buffer

A scanner can do with one buffer. It collects words and literals in it, keeps the last character of
a block comment there, and remembers beside it where the buffer starts and where the character put
there last stands. A slash that turns out to open a comment is cut off again, so the buffer is cut
and used anew all the time. Indices into the buffer and cuts of it are checked, and one that is out
of range is a fault.
-/

namespace Tagfold

/-- What stops a buffered scan. -/
inductive ScanFault where
  /-- An index or a cut out of the range of the buffer. -/
  | outOfRange
  | lexical (e : LexicalError)
  deriving DecidableEq, Repr

/-- What a buffered scanner is inside of. -/
inductive BufferMode where
  | plain
  | literal
  | lineComment
  | blockComment
  deriving DecidableEq, Repr

/-- A scanner with one buffer, between two characters. The buffer is in reading order, the tokens so
far are kept newest first. -/
structure BufferedScanner where
  mode : BufferMode
  buffer : List Char
  /-- Where the first character of the buffer stands. -/
  start : Place
  /-- Where the character that was pushed last stands. -/
  last : Pos
  /-- Where the block comment starts. -/
  comment : Pos
  place : Place
  tokens : List Token
  deriving DecidableEq, Repr

namespace BufferedScanner

/-- The character at an index. -/
def charAt (cs : List Char) (i : Nat) : Except ScanFault Char :=
  match cs[i]? with
  | some c => .ok c
  | none => .error .outOfRange

/-- The characters with another one at an index. -/
def replaceAt (cs : List Char) (i : Nat) (c : Char) : Except ScanFault (List Char) :=
  if i < cs.length then .ok (cs.set i c) else .error .outOfRange

/-- The characters from an index up to another one. -/
def slice (cs : List Char) (first behind : Int) : Except ScanFault (List Char) :=
  if 0 ≤ first ∧ first ≤ behind ∧ behind ≤ cs.length then
    .ok ((cs.take behind.toNat).drop first.toNat)
  else .error .outOfRange

/-- A check that is only made under a condition. -/
def checkIf (condition : Bool) (check : Except ScanFault Bool) : Except ScanFault Bool :=
  if condition then check else .ok false

/-- The characters from an index on are the given ones. -/
def agreeFrom (cs : List Char) (i : Nat) : List Char → Except ScanFault Bool
  | [] => .ok true
  | c :: rest => do
    if (← charAt cs i) = c then agreeFrom cs (i + 1) rest else return false

/-- The number of consecutive backslashes at an index and before it. The first character is not
counted. -/
def slashesUpTo (cs : List Char) : Nat → Except ScanFault Nat
  | 0 => .ok 0
  | i + 1 => do
    if (← charAt cs (i + 1)) = '\\' then return (← slashesUpTo cs i) + 1 else return 0

/-- The characters of the suffix are at the end of the buffer. -/
def endsWith (suffix : List Char) (s : BufferedScanner) : Except ScanFault Bool :=
  if s.buffer.length < suffix.length then .ok false
  else do
    let tail ← slice s.buffer ((s.buffer.length : Int) - suffix.length) s.buffer.length
    agreeFrom tail 0 suffix

/-- The last character of the buffer is escaped: an odd number of backslashes stands before it. -/
def escaped (s : BufferedScanner) : Except ScanFault Bool := do
  return (← slashesUpTo s.buffer (s.buffer.length - 2)) % 2 == 1

/-- Put a character at the end of the buffer. -/
def push (c : Char) (s : BufferedScanner) : BufferedScanner :=
  { s with
    buffer := s.buffer ++ [c]
    start := if s.buffer.isEmpty then s.place else s.start
    last := s.place.pos }

variable (l : Lexer) (source : Text)

/-- Complete a token that starts at a place. -/
def emit (kind : TokenKind) (text : Text) (p : Place) (s : BufferedScanner) : BufferedScanner :=
  { s with tokens := Lexer.tokenAt source kind text p :: s.tokens }

/-- Complete the word in the buffer, if there is one. -/
def flush (s : BufferedScanner) : BufferedScanner :=
  if s.buffer.isEmpty then s
  else
    let text := Utf8.encodeAll s.buffer
    let kind : TokenKind := if l.isKeyword text then .keyword else .word
    { s.emit source kind text s.start with buffer := [] }

/-- Cut characters off the end of the buffer, and complete the word before them. -/
def flushBefore (cut : Nat) (s : BufferedScanner) : Except ScanFault BufferedScanner := do
  let kept ← slice s.buffer 0 ((s.buffer.length : Int) - cut)
  return flush l source { s with buffer := kept }

/-- One character that neither belongs to a word nor opens a comment. -/
def charStep (c : Char) (s : BufferedScanner) : Except ScanFault BufferedScanner :=
  if c = ' ' ∨ c = '\n' ∨ l.isSymbol c then
    let flushed := s.flush l source
    .ok (if l.isSymbol c then flushed.emit source .symbol (Utf8.encode c) s.place else flushed)
  else if c = '\t' ∨ c = '\r' then .ok s
  else if l.isDelimiter c then .ok { (s.flush l source).push c with mode := .literal }
  else if c = '*' then .ok (s.push c)
  else .error (.lexical (.wrongChar s.place.pos (.scalar c)))

/-- A slash where comments are on. Behind another one it opens a line comment. -/
def slashStep (s : BufferedScanner) : Except ScanFault BufferedScanner := do
  let pushed := s.push '/'
  if ← checkIf l.lineComments (pushed.endsWith ['/', '/']) then
    return { ← pushed.flushBefore l source 2 with mode := .lineComment }
  else return pushed

/-- A star behind a slash where block comments are on. -/
def openBlockComment (s : BufferedScanner) : Except ScanFault BufferedScanner := do
  let flushed ← s.flushBefore l source 1
  return { flushed with mode := .blockComment, comment := flushed.last }

/-- One character outside literals and comments. -/
def plainStep (c : Char) (s : BufferedScanner) : Except ScanFault BufferedScanner := do
  if l.isWordChar c then return s.push c
  else if c = '/' ∧ (l.lineComments ∨ l.blockComments) then s.slashStep l source
  else if ← checkIf (c == '*' && l.blockComments) (s.endsWith ['/']) then
    s.openBlockComment l source
  else s.charStep l source c

/-- One character in a literal. -/
def literalStep (c : Char) (s : BufferedScanner) : Except ScanFault BufferedScanner := do
  let pushed := s.push c
  let opening ← charAt pushed.buffer 0
  if ← checkIf (c == opening) (return !(← pushed.escaped)) then
    let text := Utf8.encodeAll pushed.buffer
    return { pushed.emit source .string text pushed.start with buffer := [], mode := .plain }
  else return pushed

/-- One character in a block comment: the last one is kept to tell whether the next one ends the
comment. -/
def blockCommentStep (c : Char) (s : BufferedScanner) : Except ScanFault BufferedScanner := do
  let grown := { s with buffer := s.buffer ++ [c] }
  if ← grown.endsWith ['*', '/'] then return { grown with buffer := [], mode := .plain }
  else if 1 < grown.buffer.length then
    return { grown with buffer := ← slice (← replaceAt grown.buffer 0 c) 0 1 }
  else return grown

/-- One character, without going on behind it. -/
def modeStep (c : Char) (s : BufferedScanner) : Except ScanFault BufferedScanner :=
  match s.mode with
  | .plain => s.plainStep l source c
  | .literal => s.literalStep source c
  | .lineComment => .ok (if c = '\n' then { s with mode := .plain } else s)
  | .blockComment => s.blockCommentStep c

/-- Take one rune. -/
def step (s : BufferedScanner) (r : Rune) : Except ScanFault BufferedScanner :=
  match r with
  | .stray b => .error (.lexical (.wrongChar s.place.pos (.stray b)))
  | .scalar c => do
    let taken ← s.modeStep l source c
    return { taken with place := taken.place.advance c }

/-- End the scan: the tokens in source order. -/
def finish (s : BufferedScanner) : Except ScanFault (List Token) :=
  match s.mode with
  | .plain => .ok (s.flush l source).tokens.reverse
  | .literal =>
    .error (.lexical (.unterminatedString s.start.pos (Utf8.encodeAll s.buffer)))
  | .lineComment => .ok s.tokens.reverse
  | .blockComment => .error (.lexical (.unterminatedComment s.comment))

/-- The scanner before the first character. -/
def initial : BufferedScanner :=
  ⟨.plain, [], ⟨0, ⟨0, 0⟩⟩, ⟨0, 0⟩, ⟨0, 0⟩, Place.start, []⟩

/-- The scanner behind the runes of a text. -/
def run (s : BufferedScanner) (runes : List Rune) : Except ScanFault BufferedScanner :=
  runes.foldlM (step l source) s

/-- The tokens of a source. -/
def scan (s : Source) : Except ScanFault (List Token) := do
  finish l s.name (← run l s.name initial (Utf8.decode s.content))

end BufferedScanner

end Tagfold
