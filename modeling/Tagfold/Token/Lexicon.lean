import Tagfold.Token.Basic

/-!
# Lexicons

A lexicon describes the lexemes of a language: its keywords, one-character symbols, string
delimiters, comment styles, and which characters make up words. A lexer is a lexicon made ready for
scanning, with its texts split into characters.
-/

namespace Tagfold

/-- The lexemes of a language. -/
structure Lexicon where
  /-- Words that are keywords. -/
  keywords : List Text
  /-- Every character is a symbol of its own. -/
  symbols : Text
  /-- Every character opens a string literal, which the same character closes. -/
  delimiters : Text
  /-- Comments from two slashes to the end of the line. -/
  lineComments : Bool
  /-- Comments from a slash and a star to a star and a slash. -/
  blockComments : Bool
  /-- The characters of words; without a predicate there are none. -/
  isWordChar : Option (Char → Bool)

/-- A lexicon made ready for scanning. -/
structure Lexer where
  keywords : List Text
  symbols : List Char
  delimiters : List Char
  lineComments : Bool
  blockComments : Bool
  isWordChar : Char → Bool

namespace Lexicon

/-- The lexicon without any lexemes. -/
def empty : Lexicon := ⟨[], [], [], false, false, none⟩

/-- Make a lexicon ready for scanning. -/
def lexer (l : Lexicon) : Lexer where
  keywords := l.keywords
  symbols := Utf8.chars l.symbols
  delimiters := Utf8.chars l.delimiters
  lineComments := l.lineComments
  blockComments := l.blockComments
  isWordChar := l.isWordChar.getD fun _ ↦ false

end Lexicon

namespace Lexer

/-- The text is a keyword. -/
def isKeyword (l : Lexer) (t : Text) : Bool :=
  l.keywords.contains t

/-- The character is a symbol. -/
def isSymbol (l : Lexer) (c : Char) : Bool :=
  l.symbols.contains c

/-- The number is the code point of a symbol. -/
def isSymbolCode (l : Lexer) (code : Int) : Bool :=
  l.symbols.any fun c ↦ (c.toNat : Int) == code

/-- The character opens a string literal. -/
def isDelimiter (l : Lexer) (c : Char) : Bool :=
  l.delimiters.contains c

end Lexer

end Tagfold
