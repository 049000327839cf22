import Tagfold.Value

/-!
# Message templates

A template is a text in which a percent sign and a letter stand for the next argument: `%s` and `%v`
for its text, `%d` for an integer, `%q` for a quoted text, and `%%` for a percent sign. An argument
that does not fit its letter, a missing and a surplus argument are shown in the message.
-/

namespace Tagfold.Template

/-- The name of the kind of a value. -/
def kindName : Value → Text
  | .absent => utf8 "<nil>"
  | .bool _ => utf8 "bool"
  | .text _ => utf8 "string"
  | .int _ => utf8 "int64"
  | .double _ => utf8 "float64"

/-- A value with the name of its kind. -/
def tagged : Value → Text
  | .absent => utf8 "<nil>"
  | v => kindName v ++ utf8 "=" ++ v.render

/-- The mark of an argument that does not fit its letter. -/
def misfit (letter : Char) (v : Value) : Text :=
  utf8 "%!" ++ Utf8.encode letter ++ utf8 "(" ++ tagged v ++ utf8 ")"

/-- The text of an argument under a letter. -/
def argument (letter : Char) (v : Value) : Text :=
  match letter, v with
  | 'v', v => v.render
  | 's', .text t => t
  | 'q', .text t => t.quoted
  | 'd', .int _ => v.render
  | 'q', .int i => 39 :: (Text.quoteChar '\'' (Utf8.ofCode i.toInt) ++ [39])
  | letter, v => misfit letter v

/-- The mark of arguments that no letter has asked for. -/
def surplus : List Value → Text
  | [] => []
  | vs => utf8 "%!(EXTRA " ++ Text.join (utf8 ", ") (vs.map tagged) ++ utf8 ")"

/-- Fill in the arguments from left to right. -/
def fill : List Rune → List Value → Text
  | [], vs => surplus vs
  | [.scalar '%'], vs => utf8 "%!(NOVERB)" ++ surplus vs
  | .scalar '%' :: .scalar '%' :: rest, vs => utf8 "%" ++ fill rest vs
  | .scalar '%' :: r :: rest, [] =>
    utf8 "%!" ++ Utf8.encode r.char ++ utf8 "(MISSING)" ++ fill rest []
  | .scalar '%' :: r :: rest, v :: vs => argument r.char v ++ fill rest vs
  | r :: rest, vs => r.bytes ++ fill rest vs

/-- The message of a template; without arguments the template is the message. -/
def format (template : Text) (vs : List Value) : Text :=
  if vs.isEmpty then template else fill (Utf8.decode template) vs

end Tagfold.Template
