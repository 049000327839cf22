import Tagfold.Issue
import Tagfold.Token.Lexicon

/-!
# Scanning

A source is scanned one character at a time. Between characters the scanner is collecting a word,
inside a string literal, or inside a comment. A slash is kept with the word until the next character
tells whether it opens a comment. Tabs and carriage returns outside literals are dropped without
ending a word. A stray byte is an error wherever it stands.

The state is folded over the runes of the source, so a scan of two texts joined together continues
the scan of the first one.
-/

namespace Tagfold

/-- Where a character stands: its byte offset and its position. -/
structure Place where
  offset : Int
  pos : Pos
  deriving DecidableEq, Repr

namespace Place

/-- The place of the first character. -/
def start : Place := ⟨0, ⟨1, 1⟩⟩

/-- The place behind a character. -/
def advance (p : Place) (c : Char) : Place where
  offset := p.offset + (Utf8.encode c).length
  pos := if c = '\n' then ⟨p.pos.line + 1, 1⟩ else ⟨p.pos.line, p.pos.col + 1⟩

end Place

/-- A character and where it stands. -/
structure Placed where
  char : Char
  place : Place
  deriving DecidableEq, Repr

/-- What the scanner is inside of. Collected characters are kept newest first. -/
inductive ScanMode where
  /-- Between literals and comments, with the characters of the word so far. -/
  | plain (pending : List Placed)
  /-- In a string literal, with its delimiter and the characters behind it. -/
  | literal (opening : Placed) (body : List Char)
  /-- In a comment that ends with the line. -/
  | lineComment
  /-- In a comment that ends with a star and a slash; the flag tells whether a star came last. -/
  | blockComment (opening : Place) (star : Bool)
  deriving DecidableEq, Repr

/-- The scanner between two characters. The tokens so far are kept newest first. -/
structure ScanState where
  place : Place
  mode : ScanMode
  tokens : List Token
  deriving DecidableEq, Repr

/-- Why a source cannot be scanned. -/
inductive LexicalError where
  | wrongChar (pos : Pos) (rune : Rune)
  | unterminatedString (pos : Pos) (text : Text)
  | unterminatedComment (pos : Pos)
  deriving DecidableEq, Repr

namespace LexicalError

/-- How a rune is shown that no lexeme contains: a stray byte by its number. -/
def shown : Rune → Text
  | .scalar c => Utf8.encode c
  | .stray b => utf8 "\\x" ++ Text.hex 2 b.toNat

/-- The report of an error in the source of the given name. -/
def report (source : Text) : LexicalError → Report
  | wrongChar p r =>
    (Report.located Kind.wrongChar.code (utf8 "wrong char " ++ (shown r).quoted) source p).withText
      (shown r)
  | unterminatedString p text =>
    (Report.located Kind.unterminatedString.code (utf8 "unterminated string") source p).withText text
  | unterminatedComment p =>
    Report.located Kind.unterminatedComment.code (utf8 "unterminated comment") source p

end LexicalError

namespace Lexer

/-- A token that starts at a place of the source of the given name. -/
def tokenAt (source : Text) (kind : TokenKind) (text : Text) (p : Place) : Token :=
  ⟨kind, text, source, p.offset, p.pos⟩

/-- The token of the collected characters, none if there are none. -/
def flush (l : Lexer) (source : Text) (pending : List Placed) : List Token :=
  match pending.getLast? with
  | none => []
  | some first =>
    let text := Utf8.encodeAll (pending.reverse.map Placed.char)
    [tokenAt source (if l.isKeyword text then .keyword else .word) text first.place]

/-- The next character is escaped: an odd number of backslashes came last. -/
def escaped (body : List Char) : Bool :=
  (body.takeWhile (· == '\\')).length % 2 == 1

/-- The slash that was collected last, with the characters before it. -/
def openSlash? : List Placed → Option (Placed × List Placed)
  | [] => none
  | c :: before => if c.char = '/' then some (c, before) else none

/-- One character that neither belongs to a word nor opens a comment. -/
def charStep (l : Lexer) (source : Text) (pending : List Placed) (c : Placed) :
    Except LexicalError (ScanMode × List Token) :=
  let ch := c.char
  if ch = ' ' ∨ ch = '\n' ∨ l.isSymbol ch then
    let symbol :=
      if l.isSymbol ch then [tokenAt source .symbol (Utf8.encode ch) c.place] else []
    .ok (.plain [], l.flush source pending ++ symbol)
  else if ch = '\t' ∨ ch = '\r' then .ok (.plain pending, [])
  else if l.isDelimiter ch then .ok (.literal c [], l.flush source pending)
  else if ch = '*' then .ok (.plain (c :: pending), [])
  else .error (.wrongChar c.place.pos (.scalar ch))

/-- One character outside literals and comments: the mode behind it and the tokens it completes. -/
def plainStep (l : Lexer) (source : Text) (pending : List Placed) (c : Placed) :
    Except LexicalError (ScanMode × List Token) :=
  let collected := .ok (.plain (c :: pending), [])
  if l.isWordChar c.char then collected
  else if c.char = '/' ∧ (l.lineComments ∨ l.blockComments) then
    match openSlash? pending with
    | some (_, before) =>
      if l.lineComments then .ok (.lineComment, l.flush source before) else collected
    | none => collected
  else if c.char = '*' ∧ l.blockComments then
    match openSlash? pending with
    | some (slash, before) =>
      .ok (.blockComment slash.place false, l.flush source before)
    | none => l.charStep source pending c
  else l.charStep source pending c

/-- One character: the mode behind it and the tokens it completes. -/
def modeStep (l : Lexer) (source : Text) (m : ScanMode) (c : Placed) :
    Except LexicalError (ScanMode × List Token) :=
  match m with
  | .plain pending => l.plainStep source pending c
  | .literal opening body =>
    if c.char = opening.char ∧ ¬ escaped body then
      let text := Utf8.encodeAll (opening.char :: (body.reverse ++ [c.char]))
      .ok (.plain [], [tokenAt source .string text opening.place])
    else .ok (.literal opening (c.char :: body), [])
  | .lineComment => .ok (if c.char = '\n' then .plain [] else .lineComment, [])
  | .blockComment opening star =>
    if star ∧ c.char = '/' then .ok (.plain [], [])
    else .ok (.blockComment opening (c.char == '*'), [])

/-- Take one rune. -/
def step (l : Lexer) (source : Text) (s : ScanState) (r : Rune) : Except LexicalError ScanState :=
  match r with
  | .stray b => .error (.wrongChar s.place.pos (.stray b))
  | .scalar c => do
    let (mode, completed) ← l.modeStep source s.mode ⟨c, s.place⟩
    return ⟨s.place.advance c, mode, completed.reverse ++ s.tokens⟩

/-- End the scan: the tokens in source order. -/
def finish (l : Lexer) (source : Text) (s : ScanState) : Except LexicalError (List Token) :=
  match s.mode with
  | .plain pending => .ok (s.tokens.reverse ++ l.flush source pending)
  | .literal opening body =>
    .error (.unterminatedString opening.place.pos
      (Utf8.encodeAll (opening.char :: body.reverse)))
  | .lineComment => .ok s.tokens.reverse
  | .blockComment opening _ => .error (.unterminatedComment opening.pos)

/-- The state before the first character. -/
def initial : ScanState := ⟨Place.start, .plain [], []⟩

/-- The state behind the runes of a text. -/
def run (l : Lexer) (source : Text) (s : ScanState) (runes : List Rune) :
    Except LexicalError ScanState :=
  runes.foldlM (l.step source) s

/-- The tokens of a source. -/
def scan (l : Lexer) (s : Source) : Except LexicalError (List Token) := do
  l.finish s.name (← l.run s.name initial (Utf8.decode s.content))

end Lexer

end Tagfold
