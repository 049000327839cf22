import Tagfold.Reduction.Parser
import Tagfold.Rule.Reducer

/-!
# The rules of JSON

Eleven rules fold the leaves of a JSON text. Members and elements are collected under tags of their
own, which no finished object or array contains. Numbers have no sign and no exponent; a fraction is
an integer, a point, and an integer.
-/

namespace Tagfold.Json

/-- The tag name of numbers with a fraction. -/
def decimalName : Text := utf8 "Decimal"

/-- The tag name of keys. -/
def pairKeyName : Text := utf8 "PairKey"

/-- The tag name of a key with its value. -/
def pairName : Text := utf8 "Pair"

/-- The tag name of the pairs of an unfinished object. -/
def membersName : Text := utf8 "Members"

/-- The tag name of objects. -/
def objectName : Text := utf8 "Object"

/-- The tag name of the values of an unfinished array. -/
def elementsName : Text := utf8 "Elements"

/-- The tag name of arrays. -/
def arrayName : Text := utf8 "Array"

/-- The tag name of the keyword `true`. -/
def trueName : Text := keywordTagName (utf8 "true")

/-- The tag name of the keyword `false`. -/
def falseName : Text := keywordTagName (utf8 "false")

/-- The tag name of the keyword `null`. -/
def nullName : Text := keywordTagName (utf8 "null")

/-- The tag names of complete values. -/
def valueNames : List Text :=
  [stringTagName, integerTagName, decimalName, objectName, arrayName, trueName, falseName, nullName]

/-- The tags of folded expressions. -/
structure Tags where
  decimal : Tag
  pairKey : Tag
  pair : Tag
  members : Tag
  object : Tag
  elements : Tag
  array : Tag
  deriving Repr

/-- The tags of folded expressions in a registry. -/
def internTags (reg : Registry) : Tags × Registry :=
  let (decimal, reg) := reg.intern decimalName
  let (pairKey, reg) := reg.intern pairKeyName
  let (pair, reg) := reg.intern pairName
  let (members, reg) := reg.intern membersName
  let (object, reg) := reg.intern objectName
  let (elements, reg) := reg.intern elementsName
  let (array, reg) := reg.intern arrayName
  (⟨decimal, pairKey, pair, members, object, elements, array⟩, reg)

namespace Tags

/-- An integer, a point and an integer are the number they spell together. -/
def reduceDecimal (t : Tags) : Reducer :=
  Reducer.decimal 0 t.decimal 0 2

/-- A string before a colon is a key with the value of the string. -/
def reducePairKey (t : Tags) : Reducer := fun seq i ↦ do
  let (p, v, _) ← Reducer.leafAt seq i 0
  return .simple t.pairKey p v

/-- A key and a value are a pair. -/
def reducePair (t : Tags) : Reducer :=
  Reducer.collect t.pair 0 2

/-- A pair is a list of one member. -/
def reduceMember (t : Tags) : Reducer :=
  Reducer.collect t.members 0 1

/-- Two lists of members around a comma are one list. -/
def reduceMembers (t : Tags) : Reducer := fun seq i ↦ do
  let before ← Reducer.exprAt seq i 0
  let behind ← Reducer.exprAt seq i 2
  Reducer.nodeOf t.members (before.children ++ behind.children)

/-- Members between braces are an object. -/
def reduceObject (t : Tags) : Reducer := fun seq i ↦ do
  Reducer.nodeOf t.object (← Reducer.exprAt seq i 1).children

/-- A value behind an opening bracket is a list of one element. -/
def reduceFirstElement (t : Tags) : Reducer :=
  Reducer.collect t.elements 1 2

/-- Elements, a comma and a value are a longer list of elements. -/
def reduceNextElement (t : Tags) : Reducer :=
  Reducer.append t.elements [0, 2]

/-- Elements before a closing bracket are an array. -/
def reduceArray (t : Tags) : Reducer := fun seq i ↦ do
  Reducer.nodeOf t.array (← Reducer.exprAt seq i 0).children

/-- Two brackets are the array without elements. -/
def reduceEmptyArray (t : Tags) : Reducer :=
  Reducer.empty 0 t.array

/-- Two braces are the object without members. -/
def reduceEmptyObject (t : Tags) : Reducer :=
  Reducer.empty 0 t.object

end Tags

/-- The matcher of a symbol. -/
def symbol (s : String) : Matcher :=
  .tag (symbolTagName (utf8 s))

/-- The matcher of complete values. -/
def anyValue : Matcher := ⟨valueNames⟩

/-- The rules, earlier ones first. -/
def rules (t : Tags) : List Rule :=
  [⟨utf8 "decimal", [.tag integerTagName, symbol ".", .tag integerTagName], t.reduceDecimal⟩,
    ⟨utf8 "pair key", [.tag stringTagName, symbol ":"], t.reducePairKey⟩,
    ⟨utf8 "pair", [.tag pairKeyName, anyValue], t.reducePair⟩,
    ⟨utf8 "member", [.tag pairName], t.reduceMember⟩,
    ⟨utf8 "members", [.tag membersName, symbol ",", .tag membersName], t.reduceMembers⟩,
    ⟨utf8 "object", [symbol "\x7b", .tag membersName, symbol "\x7d"], t.reduceObject⟩,
    ⟨utf8 "first element", [symbol "[", anyValue], t.reduceFirstElement⟩,
    ⟨utf8 "next element", [.tag elementsName, symbol ",", anyValue], t.reduceNextElement⟩,
    ⟨utf8 "array", [.tag elementsName, symbol "]"], t.reduceArray⟩,
    ⟨utf8 "empty array", [symbol "[", symbol "]"], t.reduceEmptyArray⟩,
    ⟨utf8 "empty object", [symbol "\x7b", symbol "\x7d"], t.reduceEmptyObject⟩]

end Tagfold.Json
