import Tagfold.Expr.Dump
import Tagfold.Json.Data
import Tagfold.Json.String

/-!
# Printing JSON

A tree is written as JSON without white space. Keys keep their order and repetitions. Decimals always
have a fraction, and integers too large for 64 bits are written with their own digits.
-/

namespace Tagfold.Json

/-- The literal of a text value. -/
def printString (e : Expr) : Except Fault Text :=
  match e.value with
  | .text t => .ok (encodeString t)
  | _ => unexpected e

/-- The numeral of an integer: raw digits without leading zeros if the value is a double. -/
def printInteger (e : Expr) : Except Fault Text :=
  match e.value with
  | .int i => .ok (Text.ofInt i.toInt)
  | .double d =>
    let digits := e.text.dropWhile (· == 48)
    .ok (if digits.isEmpty then Layout.plain.render d else digits)
  | _ => unexpected e

/-- The numeral of a decimal, which has a point. -/
def printDecimal (e : Expr) : Except Fault Text :=
  match e.value with
  | .double d =>
    let digits := Layout.plain.render d
    .ok (if digits.contains 46 then digits else digits ++ utf8 ".0")
  | _ => unexpected e

/-- The spelling of an expression that does not depend on its children, if its tag has one. -/
def printScalar? (name : Text) (e : Expr) : Option (Except Fault Text) :=
  if name = stringTagName then some (printString e)
  else if name = integerTagName then some (printInteger e)
  else if name = decimalName then some (printDecimal e)
  else if name = trueName then some (.ok (utf8 "true"))
  else if name = falseName then some (.ok (utf8 "false"))
  else if name = nullName then some (.ok (utf8 "null"))
  else none

mutual

/-- The JSON text of an expression. -/
def print : Expr → Except Fault Text
  | .hole => .error (.issue missing)
  | .leaf t p v x =>
    match printScalar? t.name (.leaf t p v x) with
    | some printed => printed
    | none =>
      if t.name = arrayName then .ok (utf8 "[]")
      else if t.name = objectName then .ok (utf8 "\x7b\x7d")
      else unexpected (.leaf t p v x)
  | .node t p cs =>
    match printScalar? t.name (.node t p cs) with
    | some printed => printed
    | none =>
      if t.name = arrayName then do
        return utf8 "[" ++ Text.join (utf8 ",") (← printItems cs) ++ utf8 "]"
      else if t.name = objectName then do
        return utf8 "\x7b" ++ Text.join (utf8 ",") (← printMembers cs) ++ utf8 "\x7d"
      else unexpected (.node t p cs)

/-- The JSON texts of the values of an array. -/
def printItems : List Expr → Except Fault (List Text)
  | [] => .ok []
  | e :: es => do
    let item ← print e
    let items ← printItems es
    return item :: items

/-- The JSON texts of the pairs of an object. -/
def printMembers : List Expr → Except Fault (List Text)
  | [] => .ok []
  | .node t p [k, v] :: es =>
    if t.name = pairName then do
      let key ← keyText k
      let value ← print v
      let members ← printMembers es
      return (encodeString key ++ utf8 ":" ++ value) :: members
    else unexpected (.node t p [k, v])
  | e :: _ => unexpected e

end

/-- Write the JSON text of an expression to a sink in one piece. -/
def printTo (sink : Sink) (e : Expr) : Except Fault Sink := do
  let text ← print e
  match sink.write text with
  | (sink, none) => return sink
  | (_, some issue) => .error (.issue issue)

end Tagfold.Json
