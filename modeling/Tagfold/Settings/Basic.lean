import Tagfold.Text.Utf8

/-!
# Settings

Settings are a flat document: names with a scalar or a list of scalars each. A scalar that is written
without quotes may stand for nothing or for a truth value; a quoted one is always a text. Every
scalar can be used as a text, its own spelling.
-/

namespace Tagfold.Settings

/-- A scalar of a document: its characters and whether it was quoted. -/
structure Scalar where
  chars : List Char
  quoted : Bool
  deriving DecidableEq, Repr

namespace Scalar

/-- The scalar of a value that is not written at all. -/
def missing : Scalar := ⟨[], false⟩

/-- The scalar stands for nothing. -/
def isNull (s : Scalar) : Bool :=
  !s.quoted && ["", "~", "null", "Null", "NULL"].contains (String.ofList s.chars)

/-- The text of a scalar. -/
def text (s : Scalar) : Text :=
  Utf8.encodeAll s.chars

/-- The truth value of a scalar: `true` and `false` without quotes, or a word for yes or no. -/
def bool? (s : Scalar) : Option Bool :=
  let word := String.ofList s.chars
  if !s.quoted && ["true", "True", "TRUE"].contains word then some true
  else if !s.quoted && ["false", "False", "FALSE"].contains word then some false
  else if ["y", "Y", "yes", "on"].contains word then some true
  else if ["n", "N", "no", "off"].contains word then some false
  else none

end Scalar

/-- What a name is set to. -/
inductive Setting where
  | scalar (s : Scalar)
  | list (items : List Scalar)
  deriving DecidableEq, Repr

/-- The settings of a document, in order. -/
abbrev Document := List (Scalar × Setting)

end Tagfold.Settings
