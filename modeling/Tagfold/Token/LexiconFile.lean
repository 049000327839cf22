import Tagfold.CharClass.Basic
import Tagfold.Settings.Reader
import Tagfold.Token.Lexicon

/-!
# Lexicons in settings

A lexicon can be written as a settings document. Unknown and repeated names are refused, as are
values of the wrong shape. The characters of words are given by a character class; an empty class is
the same as none.
-/

namespace Tagfold.Lexicon

open Settings

/-- The settings that a lexicon is made of. -/
structure Written where
  keywords : List Text := []
  symbols : Text := []
  delimiters : Text := []
  lineComments : Bool := false
  blockComments : Bool := false
  wordChars : Text := []

/-- A setting as a text; a scalar that stands for nothing is the empty text. -/
def text? : Setting → Option Text
  | .scalar s => some (if s.isNull then [] else s.text)
  | .list _ => none

/-- A setting as a truth value; a scalar that stands for nothing is false. -/
def bool? : Setting → Option Bool
  | .scalar s => if s.isNull then some false else s.bool?
  | .list _ => none

/-- A setting as a list of texts, without the items that stand for nothing. -/
def texts? : Setting → Option (List Text)
  | .scalar s => if s.isNull then some [] else none
  | .list items => some ((items.filter (!·.isNull)).map Scalar.text)

/-- Take over one setting. -/
def Written.set? (w : Written) (name : String) (s : Setting) : Option Written :=
  match name with
  | "keywords" => (texts? s).map fun keywords ↦ { w with keywords }
  | "symbols" => (text? s).map fun symbols ↦ { w with symbols }
  | "string_delimiters" => (text? s).map fun delimiters ↦ { w with delimiters }
  | "line_comments" => (bool? s).map fun lineComments ↦ { w with lineComments }
  | "block_comments" => (bool? s).map fun blockComments ↦ { w with blockComments }
  | "identifier_chars" => (text? s).map fun wordChars ↦ { w with wordChars }
  | _ => none

/-- No name occurs twice. -/
def distinct : List (List Char) → Bool
  | [] => true
  | name :: names => !names.contains name && distinct names

/-- The settings of a document; entries whose name stands for nothing are left out. -/
def written? (d : Document) : Option Written :=
  if distinct (d.map fun (key, _) ↦ key.chars) then
    (d.filter fun (key, _) ↦ !key.isNull).foldlM
      (fun w (key, value) ↦ w.set? (String.ofList key.chars) value) {}
  else none

/-- The issue of a bad lexicon document. -/
def badConfig (cause : Issue) : Issue :=
  .coded (Report.unlocated Kind.badConfig.code cause.message) (some cause)

/-- Read a lexicon from a settings document. -/
def ofDocument (t : Text) : Except Issue Lexicon := do
  match (read? t).bind written? with
  | none => .error (badConfig (.wrapped (utf8 "cannot decode lexer config") .withheld))
  | some w =>
    let isWordChar ←
      if w.wordChars.isEmpty then pure none
      else
        match CharClass.compile w.wordChars with
        | .ok p => pure (some (CharClass.containsChar p))
        | .error i => .error (badConfig i)
    return ⟨w.keywords, w.symbols, w.delimiters, w.lineComments, w.blockComments, isWordChar⟩

end Tagfold.Lexicon
