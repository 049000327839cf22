import Tagfold.Rule.Basic
import Tagfold.Token.Scan

/-!
# Why a source has no tree

A source may fail to be scanned, a token may fail to become a leaf, and a sequence may fail to be
folded into one expression. Every failure is reported with a code, the name of the source and, where
there is one, a position.
-/

namespace Tagfold

/-- What a reducer did wrong. -/
inductive ReducerFailure where
  | failed (i : Issue)
  | noResult
  | unknownTag (name : Text)
  deriving Repr

namespace ReducerFailure

/-- The words for a failure. -/
def message : ReducerFailure → Text
  | failed i => i.message
  | noResult => utf8 "no result"
  | unknownTag name => utf8 "unknown tag " ++ name.quoted

/-- The issue that the reducer itself reported. -/
def cause : ReducerFailure → Option Issue
  | failed i => some i
  | _ => none

end ReducerFailure

/-- Why a source has no tree. -/
inductive ParseError where
  /-- The source cannot be split into tokens. -/
  | lexical (source : Text) (e : LexicalError)
  /-- A word is neither an identifier nor a numeral. -/
  | invalidIdentifier (t : Token)
  /-- A numeral is too large even for a double. -/
  | integerRange (t : Token) (reason : Issue)
  /-- A string literal has no value. -/
  | badString (t : Token) (reason : Issue)
  /-- The class of a token is unknown. -/
  | unknownToken (t : Token)
  /-- There are no expressions. -/
  | emptyInput (source : Text)
  /-- A rule that matches at an expression with the given tag and position has no good result. -/
  | reducer (source rule : Text) (tag : Text) (place : Pos) (failure : ReducerFailure)
  /-- No rule matches; the culprit is named by its tag and position. -/
  | stalled (source : Text) (tag : Text) (place : Pos) (names : Text) (remaining : List Expr)
  deriving Repr

namespace ParseError

/-- A report about a token. -/
def aboutToken (k : Kind) (t : Token) (message : Text) : Report :=
  (Report.located k.code message t.source t.pos).withText t.text

/-- The report of an error. -/
def report : ParseError → Report
  | lexical source e => e.report source
  | invalidIdentifier t =>
    aboutToken .invalidIdentifier t (utf8 "invalid identifier " ++ t.text.quoted)
  | integerRange t _ =>
    aboutToken .integerRange t (utf8 "integer " ++ t.text ++ utf8 " out of range")
  | badString t reason =>
    aboutToken .badString t (utf8 "bad string " ++ t.text ++ utf8 ": " ++ reason.message)
  | unknownToken t => aboutToken .unknownToken t (utf8 "unknown token type " ++ t.kind.name)
  | emptyInput source => Report.located Kind.emptyInput.code (utf8 "empty input") source ⟨0, 0⟩
  | reducer source rule tag place failure =>
    (Report.located Kind.reducer.code (utf8 "rule " ++ rule ++ utf8 ": " ++ failure.message)
      source place).withText tag
  | stalled source tag place names _ =>
    (Report.located Kind.incompleteTree.code (utf8 "incomplete tree: no rule matches " ++ names)
      source place).withText tag

/-- The issue behind an error. -/
def cause : ParseError → Option Issue
  | integerRange _ reason => some reason
  | badString _ reason => some reason
  | reducer _ _ _ _ failure => failure.cause
  | _ => none

/-- The issue of an error. -/
def issue (e : ParseError) : Issue :=
  .coded e.report e.cause

/-- The expressions that are left over when no rule matches. -/
def remaining? : ParseError → Option (List Expr)
  | stalled _ _ _ _ remaining => some remaining
  | _ => none

end ParseError

/-- Why a reduction ends without an expression. -/
inductive Halt where
  /-- An error to report. -/
  | failed (e : ParseError)
  /-- A misuse of the library. -/
  | misused (m : Misuse)
  /-- More reductions were needed than allowed. -/
  | overBudget
  deriving Repr

namespace Halt

/-- Carry a misuse into a reduction. -/
def ofMisuse {α : Type} (x : Except Misuse α) : Except Halt α :=
  x.mapError misused

end Halt

end Tagfold
