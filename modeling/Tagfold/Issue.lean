import Tagfold.Source
import Tagfold.Text.Template

/-!
# Issues

What went wrong is told by an issue: a plain message, an issue with a context in front of it, or a
coded report with an optional cause. Codes are grouped by a hundred; the group tells whether the
lexical stage or the reduction stage reported. The code of an issue is the code of the first report
on the way from the outside to the inside.
-/

namespace Tagfold

/-- The kinds of coded reports. -/
inductive Kind where
  | wrongChar
  | unterminatedString
  | unterminatedComment
  | badConfig
  | invalidIdentifier
  | integerRange
  | badString
  | incompleteTree
  | emptyInput
  | reducer
  | badRule
  | unknownToken
  deriving DecidableEq, Repr

namespace Kind

/-- The first code of the lexical group. -/
def lexicalBase : Int := 101

/-- The first code of the reduction group. -/
def reductionBase : Int := 201

/-- The code of a kind. -/
def code : Kind → Int
  | wrongChar => lexicalBase
  | unterminatedString => lexicalBase + 1
  | unterminatedComment => lexicalBase + 2
  | badConfig => lexicalBase + 3
  | invalidIdentifier => reductionBase
  | integerRange => reductionBase + 1
  | badString => reductionBase + 2
  | incompleteTree => reductionBase + 3
  | emptyInput => reductionBase + 4
  | reducer => reductionBase + 5
  | badRule => reductionBase + 6
  | unknownToken => reductionBase + 7

/-- All kinds, by code. -/
def all : List Kind :=
  [wrongChar, unterminatedString, unterminatedComment, badConfig, invalidIdentifier, integerRange,
    badString, incompleteTree, emptyInput, reducer, badRule, unknownToken]

end Kind

/-- A coded message with the place it is about. The message contains the place. -/
structure Report where
  code : Int
  message : Text
  source : Text
  pos : Pos
  text : Text
  deriving DecidableEq, Repr

namespace Report

/-- The words that tell a place, none if a coordinate is zero. -/
def whereabouts (source : Text) (p : Pos) : Text :=
  if p.line = 0 ∨ p.col = 0 then []
  else
    (if source.isEmpty then [] else utf8 " in " ++ source) ++
      utf8 " at line " ++ Text.ofInt p.line ++ utf8 " col " ++ Text.ofInt p.col

/-- A report whose message ends with its place. -/
def located (code : Int) (message source : Text) (p : Pos) : Report :=
  ⟨code, message ++ whereabouts source p, source, p, []⟩

/-- A report without a place. -/
def unlocated (code : Int) (message : Text) : Report :=
  located code message [] ⟨0, 0⟩

/-- The report with the text it is about. -/
def withText (r : Report) (text : Text) : Report :=
  { r with text }

end Report

/-- What went wrong. -/
inductive Issue where
  | plain (message : Text)
  | wrapped (context : Text) (inner : Issue)
  | coded (report : Report) (cause : Option Issue)
  | withheld
  deriving Repr

namespace Issue

/-- The message of an issue. The wording of a withheld reason is not part of messages. -/
def message : Issue → Text
  | plain m => m
  | wrapped context inner => context ++ utf8 ": " ++ inner.message
  | coded report _ => report.message
  | withheld => utf8 "<cause>"

/-- The code of the outermost report, zero if there is none. -/
def code : Issue → Int
  | wrapped _ inner => inner.code
  | coded report _ => report.code
  | _ => 0

/-- The code belongs to the hundred codes from the given one. -/
def inGroup (base code : Int) : Bool :=
  base ≤ code && code < base + 100

/-- The lexical stage reported the issue. -/
def isLexical (i : Issue) : Bool :=
  inGroup Kind.lexicalBase i.code

/-- The reduction stage reported the issue. -/
def isReduction (i : Issue) : Bool :=
  inGroup Kind.reductionBase i.code

end Issue

/-- A call that breaks a rule of the library instead of reporting an issue. -/
inductive Misuse where
  /-- A container without children was given no position. -/
  | emptyContainer (tag : Text)
  /-- A missing expression was asked for its tag or position. -/
  | missingExpr
  /-- A container stands where a leaf is needed, or an index is out of range. -/
  | wrongShape
  deriving DecidableEq, Repr

namespace Misuse

/-- The message of a misuse that has one. -/
def message? : Misuse → Option Text
  | emptyContainer tag =>
    some (utf8 "tree: empty container " ++ tag ++ utf8 " needs explicit position")
  | _ => none

end Misuse

end Tagfold
