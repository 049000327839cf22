import Tagfold.Unicode.Folding

/-!
# Patterns over a single character

A pattern is matched against a text of exactly one character. Such a text has two places, before and
behind the character, and a pattern is known by the pairs of places it can lead from and to. Patterns
are therefore evaluated in an algebra of three truth values, in which sequence, choice and
repetition are short formulas.
-/

namespace Tagfold.CharClass

/-- A set of code points. -/
abbrev CodeSet := Nat → Bool

namespace CodeSet

/-- The code points from one to another, both included. -/
def range (low high : Nat) : CodeSet := fun c ↦ low ≤ c && c ≤ high

/-- The code points of either set. -/
def union (s t : CodeSet) : CodeSet := fun c ↦ s c || t c

/-- The code points that are not in the set. -/
def complement (s : CodeSet) : CodeSet := fun c ↦ !s c

/-- The code points that differ only in case from one in the set. -/
def caseless (s : CodeSet) : CodeSet := fun c ↦ (Unicode.caseVariants c).any s

end CodeSet

/-- Conditions on a place. -/
inductive Assertion where
  | textStart
  | textEnd
  | lineStart
  | lineEnd
  | wordBoundary
  | noWordBoundary
  deriving DecidableEq, Repr

/-- A regular pattern. -/
inductive Pattern where
  | empty
  | one (s : CodeSet)
  | check (a : Assertion)
  | both (first second : Pattern)
  | either (first second : Pattern)
  | repeated (p : Pattern) (least : Nat) (most : Option Nat)

/-- The ways through a one-character text: staying before the character, crossing it, and staying
behind it. -/
structure Ways where
  before : Bool
  across : Bool
  behind : Bool
  deriving DecidableEq, Repr

namespace Ways

/-- Stay anywhere. -/
def stay : Ways := ⟨true, false, true⟩

/-- One way and then another. -/
def append (v w : Ways) : Ways where
  before := v.before && w.before
  across := (v.before && w.across) || (v.across && w.behind)
  behind := v.behind && w.behind

/-- One way or another. -/
def orElse (v w : Ways) : Ways where
  before := v.before || w.before
  across := v.across || w.across
  behind := v.behind || w.behind

/-- The same way a number of times. -/
def power (w : Ways) : Nat → Ways
  | 0 => stay
  | n + 1 => append (power w n) w

/-- The same way any number of times. -/
def star (w : Ways) : Ways := ⟨true, w.across, true⟩

/-- There is a way. -/
def any (w : Ways) : Bool := w.before || w.across || w.behind

end Ways

/-- The ASCII characters of words. -/
def isWordCode : CodeSet := fun c ↦
  CodeSet.range 48 57 c || CodeSet.range 65 90 c || CodeSet.range 97 122 c || c == 95

namespace Assertion

/-- Where the condition holds in the text of the given character. -/
def ways (c : Nat) : Assertion → Ways
  | textStart => ⟨true, false, false⟩
  | textEnd => ⟨false, false, true⟩
  | lineStart => ⟨true, false, c == 10⟩
  | lineEnd => ⟨c == 10, false, true⟩
  | wordBoundary => ⟨isWordCode c, false, isWordCode c⟩
  | noWordBoundary => ⟨!isWordCode c, false, !isWordCode c⟩

end Assertion

namespace Pattern

/-- The ways of a pattern through the text of the given character. -/
def ways (c : Nat) : Pattern → Ways
  | empty => .stay
  | one s => ⟨false, s c, false⟩
  | check a => a.ways c
  | both p q => (p.ways c).append (q.ways c)
  | either p q => (p.ways c).orElse (q.ways c)
  | repeated p least most =>
    let w := p.ways c
    match most with
    | none => (w.power least).append w.star
    | some most => (w.power least).append ((w.orElse .stay).power (most - least))

/-- The pattern matches somewhere in the text of the given character. -/
def matchesChar (p : Pattern) (c : Nat) : Bool :=
  (p.ways c).any

/-- Counted repetitions inside one another multiply to at most the given number. -/
def repeatsWithin (n : Nat) : Pattern → Bool
  | both p q => p.repeatsWithin n && q.repeatsWithin n
  | either p q => p.repeatsWithin n && q.repeatsWithin n
  | repeated p least most =>
    let m := most.getD least
    if most = some 0 then true
    else m ≤ n && p.repeatsWithin (if m = 0 then n else n / m)
  | _ => true

end Pattern

end Tagfold.CharClass
