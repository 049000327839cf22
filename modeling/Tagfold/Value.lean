import Tagfold.Text.Utf8
import Tagfold.Decimal.Layout

/-!
# Scalar values

The value of a leaf is a text, a 64-bit integer, a double, a truth value, or absent. Values of
different kinds are never equal, and doubles are compared as numbers, so that a value which is not a
number differs from itself.
-/

namespace Tagfold

/-- The value of a leaf. -/
inductive Value where
  | absent
  | bool (b : Bool)
  | text (t : Text)
  | int (i : Int64)
  | double (d : Double)
  deriving DecidableEq, Repr

namespace Value

/-- Equality of values, with numerical equality of doubles. -/
def equals : Value → Value → Bool
  | absent, absent => true
  | bool a, bool b => a == b
  | text a, text b => a == b
  | int a, int b => a == b
  | double a, double b => a.equals b
  | _, _ => false

/-- The text of a truth value. -/
def boolText (b : Bool) : Text :=
  utf8 (if b then "true" else "false")

/-- The text of a value in messages and dumps, texts as they are. -/
def render : Value → Text
  | absent => utf8 "<nil>"
  | bool b => boolText b
  | text t => t
  | int i => Text.ofInt i.toInt
  | double d => Layout.general.render d

/-- The text of a value in dumps, where texts are quoted. -/
def display : Value → Text
  | text t => t.quoted
  | v => v.render

/-- The text, if the value is one. -/
def text? : Value → Option Text
  | text t => some t
  | _ => none

/-- The integer, if the value is one. -/
def int? : Value → Option Int64
  | int i => some i
  | _ => none

/-- The double, if the value is one. -/
def double? : Value → Option Double
  | double d => some d
  | _ => none

end Value

end Tagfold
