import Tagfold.Source

/-!
# The diagnostics log

Scanning and reduction tell what they do in log entries. An entry has a level, a message, and named
fields, which are listed by name; entries of a named grammar also carry its name.
-/

namespace Tagfold

/-- A rule that matches: its index, the start of the span, and the length of the span. -/
structure Match where
  rule : Nat
  pos : Nat
  len : Nat
  deriving DecidableEq, Repr

namespace Match

/-- The spans have an index in common. -/
def overlaps (m other : Match) : Bool :=
  m.pos < other.pos + other.len && other.pos < m.pos + m.len

end Match

/-- What is told in the log. -/
inductive LogEntry where
  /-- A source was split into tokens. -/
  | scanned (source : Text) (tokens : Nat)
  /-- A span was folded into an expression. -/
  | reduced (rule : Text) (m : Match) (tag : Text) (place : Pos)
  /-- No rule matches the remaining expressions. -/
  | stalled (remaining : Text)
  /-- Other matches share an index with the chosen one. -/
  | ambiguous (rule : Text) (m : Match) (rivals : List (Text × Nat)) (place : Pos) (pending : Text)
  deriving DecidableEq, Repr

/-- The value of a field. -/
inductive FieldValue where
  | text (t : Text)
  | number (n : Int)
  deriving DecidableEq, Repr

namespace LogEntry

/-- The name of the level of an entry. -/
def level : LogEntry → Text
  | ambiguous .. => utf8 "warning"
  | _ => utf8 "debug"

/-- The message of an entry. -/
def message : LogEntry → Text
  | scanned .. => utf8 "scanned"
  | reduced .. => utf8 "reduced"
  | stalled .. => utf8 "no rule matches"
  | ambiguous .. => utf8 "ambiguous reduction"

/-- A rival match: the name of its rule and where it starts. -/
def rival (r : Text × Nat) : Text :=
  r.1 ++ utf8 "@" ++ Text.decimal r.2

/-- The fields of an entry by name, with the name of the grammar if there is one. -/
def fields (grammar : Option Text) (e : LogEntry) : List (Text × FieldValue) :=
  let named : List (Text × FieldValue) := grammar.toList.map fun g ↦ (utf8 "grammar", .text g)
  match e with
  | scanned source tokens =>
    named ++ [(utf8 "source", .text source), (utf8 "tokens", .number tokens)]
  | reduced rule m tag p =>
    (utf8 "col", .number p.col) :: named ++
      [(utf8 "len", .number m.len), (utf8 "line", .number p.line), (utf8 "pos", .number m.pos),
        (utf8 "rule", .text rule), (utf8 "tag", .text tag)]
  | stalled remaining => named ++ [(utf8 "remaining", .text remaining)]
  | ambiguous rule m rivals p pending =>
    (utf8 "col", .number p.col) :: named ++
      [(utf8 "line", .number p.line), (utf8 "pending", .text pending), (utf8 "pos", .number m.pos),
        (utf8 "rivals", .text (Text.join (utf8 ", ") (rivals.map rival))), (utf8 "rule", .text rule)]

end LogEntry

/-- A result together with the entries written on the way to it, in order. -/
structure Logged (α : Type) where
  log : List LogEntry
  result : α

end Tagfold
