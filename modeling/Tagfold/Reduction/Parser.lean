import Tagfold.Decimal.Literal
import Tagfold.Reduction.Error
import Tagfold.Reduction.Log

/-!
# Parsers

A parser holds compiled rules and the choices that turn tokens into leaves. Keywords and symbols
become leaves tagged by their text, strings get a value from the string decoder, and words are
identifiers or numerals. Leaves may need tags that no rule names, so classification returns the
registry along with its outcome, also when it fails.
-/

namespace Tagfold

/-- The tag names of leaves: `Key_` and `Sym_` are followed by the text of the token. -/
def keywordTagName (t : Text) : Text := utf8 "Key_" ++ t

/-- The tag name of a symbol. -/
def symbolTagName (t : Text) : Text := utf8 "Sym_" ++ t

/-- The tag name of string leaves. -/
def stringTagName : Text := utf8 "String"

/-- The tag name of identifier leaves. -/
def identifierTagName : Text := utf8 "Identifier"

/-- The tag name of numeral leaves. -/
def integerTagName : Text := utf8 "Integer"

/-- A text without its first and last character. -/
def stripDelimiters (raw : Text) : Except Issue Value :=
  let first := ((Utf8.decode raw).head?.map Rune.size).getD 0
  let last := Utf8.lastSize raw
  if raw.length < first + last ∨ first = 0 then
    .error (.plain (utf8 "string literal " ++ raw.quoted ++ utf8 " is too short"))
  else .ok (.text ((raw.take (raw.length - last)).drop first))

/-- The choices that make up a parser. -/
structure ParserConfig where
  /-- Earlier rules come first. -/
  rules : List Rule
  /-- Which words are identifiers. -/
  isIdentifier : Text → Bool := fun _ ↦ false
  /-- The value of a string token with its delimiters. -/
  stringValue : Text → Except Issue Value := stripDelimiters
  /-- Whether matches that share an index with the chosen one are logged. -/
  reportAmbiguity : Bool := false
  /-- How many reductions are allowed for a sequence of the given length. -/
  budget : Nat → Nat

/-- Compiled rules with the choices that turn tokens into leaves. -/
structure Parser where
  rules : List CompiledRule
  isIdentifier : Text → Bool
  stringValue : Text → Except Issue Value
  reportAmbiguity : Bool
  budget : Nat → Nat
  stringTag : Tag
  identifierTag : Tag
  integerTag : Tag

namespace ParserConfig

/-- Build the parser of a configuration in a registry. -/
def build (c : ParserConfig) (reg : Registry) : Except RuleError (Parser × Registry) := do
  let (stringTag, reg) := reg.intern stringTagName
  let (identifierTag, reg) := reg.intern identifierTagName
  let (integerTag, reg) := reg.intern integerTagName
  let (rules, reg) ← Rule.compileAll reg 0 c.rules
  return ({ rules, isIdentifier := c.isIdentifier, stringValue := c.stringValue
            reportAmbiguity := c.reportAmbiguity, budget := c.budget
            stringTag, identifierTag, integerTag }, reg)

end ParserConfig

namespace Parser

/-- The names of the rules in order. -/
def ruleNames (p : Parser) : List Text :=
  p.rules.map CompiledRule.name

/-- The leaf of a word. -/
def wordLeaf (p : Parser) (t : Token) : Except ParseError Expr :=
  if p.isIdentifier t.text then .ok (.leaf p.identifierTag t.pos (.text t.text) t.text)
  else if Number.isNumeral t.text then
    match Number.integer t.text with
    | .ok v => .ok (.leaf p.integerTag t.pos v t.text)
    | .error i => .error (.integerRange t i)
  else .error (.invalidIdentifier t)

/-- The leaf of a token. -/
def classifyToken (p : Parser) (reg : Registry) (t : Token) :
    Except ParseError Expr × Registry :=
  match t.kind with
  | .keyword =>
    let (tag, reg) := reg.intern (keywordTagName t.text)
    (.ok (.leaf tag t.pos .absent t.text), reg)
  | .symbol =>
    let (tag, reg) := reg.intern (symbolTagName t.text)
    (.ok (.leaf tag t.pos .absent t.text), reg)
  | .string =>
    match p.stringValue t.text with
    | .ok v => (.ok (.leaf p.stringTag t.pos v t.text), reg)
    | .error i => (.error (.badString t i), reg)
  | .word => (p.wordLeaf t, reg)
  | .other _ => (.error (.unknownToken t), reg)

/-- The leaves of tokens behind those already made, which stand in reverse order. -/
def classifyOnto (p : Parser) (made : List Expr) (reg : Registry) :
    List Token → Except ParseError (List Expr) × Registry
  | [] => (.ok made.reverse, reg)
  | t :: ts =>
    match p.classifyToken reg t with
    | (.ok e, reg) => p.classifyOnto (e :: made) reg ts
    | (.error e, reg) => (.error e, reg)

/-- The leaves of tokens, one each, up to the first token that has none. -/
def classify (p : Parser) (reg : Registry) (ts : List Token) :
    Except ParseError (List Expr) × Registry :=
  p.classifyOnto [] reg ts

end Parser

end Tagfold
