import Tagfold.Expr.Basic

/-!
# Rules

A rule folds a span of consecutive expressions into one. Its pattern has a matcher for every place of
the span, and a matcher accepts the tags it names. A reducer is given the whole sequence and the
index at which the span starts.
-/

namespace Tagfold

/-- Why a computation on expressions has no result: an issue to report, or a misuse. -/
inductive Fault where
  | issue (i : Issue)
  | misuse (m : Misuse)
  deriving Repr

namespace Fault

/-- Carry a misuse into a computation that may also report issues. -/
def ofMisuse {α : Type} (x : Except Misuse α) : Except Fault α :=
  x.mapError misuse

/-- Carry an issue into a computation that may also be misused. -/
def ofIssue {α : Type} (x : Except Issue α) : Except Fault α :=
  x.mapError issue

end Fault

/-- Accepts any of the named tags at one place of a pattern. -/
structure Matcher where
  names : List Text
  deriving DecidableEq, Repr

namespace Matcher

/-- Accepts a single tag. -/
def tag (name : Text) : Matcher := ⟨[name]⟩

/-- A single name as it is, others between braces. -/
def describe (m : Matcher) : Text :=
  match m.names with
  | [name] => name
  | names => utf8 "\x7b" ++ Text.join (utf8 "|") names ++ utf8 "\x7d"

end Matcher

/-- Folds the span that starts at an index of a sequence into one expression. -/
abbrev Reducer := List Expr → Nat → Except Fault Expr

/-- A reduction rule. Without a name it is called by its pattern. -/
structure Rule where
  name : Text
  pattern : List Matcher
  reduce : Option Reducer

/-- Why a rule cannot be used. Rules and places are counted from zero. -/
inductive RuleError where
  | emptyPattern (rule : Nat)
  | noReducer (rule : Nat)
  | emptyMatcher (rule place : Nat)
  deriving DecidableEq, Repr

namespace RuleError

/-- The message about the rule with an index. -/
def about (rule : Nat) (what : Text) : Text :=
  utf8 "rule #" ++ Text.decimal rule ++ utf8 ": " ++ what

/-- The report of a bad rule. -/
def report (e : RuleError) : Report :=
  Report.unlocated Kind.badRule.code <|
    match e with
    | emptyPattern rule => about rule (utf8 "empty pattern")
    | noReducer rule => about rule (utf8 "no reducer")
    | emptyMatcher rule place => about rule (utf8 "empty matcher #" ++ Text.decimal place)

end RuleError

/-- A rule made ready for matching in a registry: a set of tags for every place. -/
structure CompiledRule where
  name : Text
  pattern : List Matcher
  sets : List TagSet
  reduce : Reducer

namespace CompiledRule

/-- The number of expressions that the rule folds. -/
def width (r : CompiledRule) : Nat :=
  r.sets.length

end CompiledRule

namespace Rule

/-- The name of a rule in messages. -/
def title (r : Rule) : Text :=
  if r.name.isEmpty then Text.join (utf8 " ") (r.pattern.map Matcher.describe) else r.name

/-- The tag sets of the matchers from the given place on. -/
def compilePattern (rule : Nat) (reg : Registry) :
    (place : Nat) → List Matcher → Except RuleError (List TagSet × Registry)
  | _, [] => .ok ([], reg)
  | place, m :: ms =>
    if m.names.isEmpty then .error (.emptyMatcher rule place)
    else do
      let (set, reg) := reg.internSet m.names
      let (sets, reg) ← compilePattern rule reg (place + 1) ms
      return (set :: sets, reg)

/-- Make the rule with the given index ready for matching. -/
def compile (r : Rule) (rule : Nat) (reg : Registry) :
    Except RuleError (CompiledRule × Registry) :=
  if r.pattern.isEmpty then .error (.emptyPattern rule)
  else
    match r.reduce with
    | none => .error (.noReducer rule)
    | some reduce => do
      let (sets, reg) ← compilePattern rule reg 0 r.pattern
      return (⟨r.title, r.pattern, sets, reduce⟩, reg)

/-- Make rules ready for matching, the first of which has the given index. -/
def compileAll (reg : Registry) :
    (rule : Nat) → List Rule → Except RuleError (List CompiledRule × Registry)
  | _, [] => .ok ([], reg)
  | rule, r :: rs => do
    let (c, reg) ← r.compile rule reg
    let (cs, reg) ← compileAll reg (rule + 1) rs
    return (c :: cs, reg)

end Rule

end Tagfold
