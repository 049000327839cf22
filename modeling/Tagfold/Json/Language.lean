import Tagfold.Grammar
import Tagfold.Json.Printer

/-!
# The JSON front end

The lexemes of JSON are keywords, numerals, strings and punctuation. Texts are parsed to trees, and
trees are printed as texts or decoded to data. Parsing a text needs no tags beyond those of the
grammar, so that every text can be parsed from the same registry.
-/

namespace Tagfold.Json

/-- The characters of keywords and numerals: lower-case letters and digits. -/
def isWordChar (c : Char) : Bool :=
  ('a' ≤ c && c ≤ 'z') || ('0' ≤ c && c ≤ '9')

/-- The lexemes of JSON as a settings document. -/
def lexiconText : Text :=
  utf8 (String.intercalate "\n"
    ["keywords: [\"true\", \"false\", \"null\"]",
      "symbols: \"\x7b\x7d[]:,.\"",
      "string_delimiters: '\"'",
      "line_comments: false",
      "block_comments: false",
      "identifier_chars: \"[a-z0-9]\"", ""])

/-- The lexemes of JSON. -/
def lexicon : Lexicon where
  keywords := [utf8 "true", utf8 "false", utf8 "null"]
  symbols := utf8 "\x7b\x7d[]:,."
  delimiters := utf8 "\""
  lineComments := false
  blockComments := false
  isWordChar := some isWordChar

/-- The value of a string token. -/
def unquote (raw : Text) : Except Issue Value :=
  match decodeString? raw with
  | some t => .ok (.text t)
  | none => .error (.wrapped (utf8 "cannot decode string") .withheld)

/-- The choices of the JSON parser. No expression is folded alone twice, so that twice the length of
a sequence is enough for all its reductions. -/
def config (t : Tags) (reportAmbiguity : Bool) : ParserConfig where
  rules := rules t
  stringValue := unquote
  reportAmbiguity := reportAmbiguity
  budget n := 2 * n

/-- The grammar of JSON and its registry. -/
def grammar (reportAmbiguity : Bool) : Except RuleError (Grammar × Registry) :=
  let (tags, reg) := internTags .empty
  Grammar.build (utf8 "json") lexicon (config tags reportAmbiguity) reg

/-- The JSON grammar with its registry. -/
structure Language where
  grammar : Grammar
  registry : Registry

namespace Language

/-- Build the front end. -/
def build (reportAmbiguity : Bool) : Except RuleError Language := do
  let (grammar, registry) ← Json.grammar reportAmbiguity
  return ⟨grammar, registry⟩

/-- The tree of a JSON text. -/
def parse (l : Language) (s : Source) : Except Halt Expr :=
  (l.grammar.parse l.registry s).1.result

end Language

end Tagfold.Json
