import Tagfold.Reduction.Engine

/-!
# Grammars

Tokens are parsed by folding their leaves, and an error carries the name of the source of the first
token. A grammar joins a lexer and a parser under a name. Building it makes the tags of all keywords
and symbols known first, so that parsing meets only known tags.
-/

namespace Tagfold

namespace Parser

/-- The name of the source of a token list. -/
def sourceName (ts : List Token) : Text :=
  (ts.head?.map Token.source).getD []

/-- The expression of a token list. -/
def parse (p : Parser) (reg : Registry) (ts : List Token) :
    Logged (Except Halt Expr) × Registry :=
  match p.classify reg ts with
  | (.error e, reg) => (⟨[], .error (.failed e)⟩, reg)
  | (.ok leaves, reg) => (p.reduceIn reg (sourceName ts) leaves, reg)

end Parser

/-- A lexer and a parser under a name. -/
structure Grammar where
  name : Text
  lexer : Lexer
  parser : Parser

namespace Grammar

/-- The tag names of the keywords and symbols of a lexicon, in order. -/
def leafTagNames (l : Lexicon) : List Text :=
  l.keywords.map keywordTagName ++
    (Utf8.chars l.symbols).map fun c ↦ symbolTagName (Utf8.encode c)

/-- Build a grammar in a registry. -/
def build (name : Text) (l : Lexicon) (c : ParserConfig) (reg : Registry) :
    Except RuleError (Grammar × Registry) := do
  let (parser, reg) ← c.build (reg.internAll (leafTagNames l))
  return (⟨name, l.lexer, parser⟩, reg)

/-- The expression of a source. -/
def parse (g : Grammar) (reg : Registry) (s : Source) :
    Logged (Except Halt Expr) × Registry :=
  match g.lexer.scan s with
  | .error e => (⟨[], .error (.failed (.lexical s.name e))⟩, reg)
  | .ok tokens =>
    let (parsed, reg) := g.parser.parse reg tokens
    (⟨.scanned s.name tokens.length :: parsed.log, parsed.result⟩, reg)

end Grammar

end Tagfold
