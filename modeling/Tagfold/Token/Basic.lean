import Tagfold.Source

/-!
# Tokens

A token is a lexeme with its lexical class, its raw text and the place it was found at. Tokens are
made by scanning a source; they can also be made by hand, with any number for the class.
-/

namespace Tagfold

/-- The lexical class of a token. -/
inductive TokenKind where
  | keyword
  | symbol
  | word
  | string
  | other (number : Int)
  deriving DecidableEq, Repr

namespace TokenKind

/-- The class with the given number. -/
def ofInt (n : Int) : TokenKind :=
  if n = 0 then keyword
  else if n = 1 then symbol
  else if n = 2 then word
  else if n = 3 then string
  else other n

/-- The name of a class. -/
def name : TokenKind → Text
  | keyword => utf8 "Keyword"
  | symbol => utf8 "Symbol"
  | word => utf8 "Word"
  | string => utf8 "String"
  | other n => utf8 "TokenType(" ++ Text.ofInt n ++ utf8 ")"

end TokenKind

/-- A lexeme. String tokens include their delimiters. -/
structure Token where
  kind : TokenKind
  text : Text
  source : Text
  offset : Int
  pos : Pos
  deriving DecidableEq, Repr

namespace Token

/-- A short description: the class and the text. -/
def describe (t : Token) : Text :=
  t.kind.name ++ utf8 "(" ++ t.text ++ utf8 ")"

end Token

end Tagfold
