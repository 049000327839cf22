import Tagfold.Json.Rules

/-!
# JSON data

A parsed tree is decoded to plain data. Objects keep their keys in the order of first occurrence, and
a repeated key keeps its place and takes the last value.
-/

namespace Tagfold.Json

/-- Plain data. -/
inductive Data where
  | scalar (v : Value)
  | list (items : List Data)
  | object (entries : List (Text × Data))
  deriving Repr

namespace Data

/-- Set the value of a key: in its place if the key is there, at the end otherwise. -/
def put (entries : List (Text × Data)) (key : Text) (value : Data) : List (Text × Data) :=
  match entries with
  | [] => [(key, value)]
  | (k, v) :: rest => if k = key then (k, value) :: rest else (k, v) :: put rest key value

end Data

/-- The issue of a missing expression. -/
def missing : Issue := .plain (utf8 "nil expression")

/-- The fault of an expression that cannot stand where it stands. -/
def unexpected {α : Type} (e : Expr) : Except Fault α := do
  let name ← Fault.ofMisuse e.name
  let p ← Fault.ofMisuse e.pos
  .error (.issue (.plain (utf8 "unexpected " ++ name ++ utf8 " at line " ++ Text.ofInt p.line ++
    utf8 " col " ++ Text.ofInt p.col)))

/-- The text of a key expression. -/
def keyText (k : Expr) : Except Fault Text :=
  match k with
  | .leaf t _ (.text key) _ => if t.name = pairKeyName then .ok key else unexpected k
  | _ => unexpected k

mutual

/-- The data of an expression. -/
def decode : Expr → Except Fault Data
  | .hole => .error (.issue missing)
  | .leaf t p v x =>
    if t.name = stringTagName ∨ t.name = integerTagName ∨ t.name = decimalName then .ok (.scalar v)
    else if t.name = trueName then .ok (.scalar (.bool true))
    else if t.name = falseName then .ok (.scalar (.bool false))
    else if t.name = nullName then .ok (.scalar .absent)
    else if t.name = arrayName then .ok (.list [])
    else if t.name = objectName then .ok (.object [])
    else unexpected (.leaf t p v x)
  | .node t p cs =>
    if t.name = trueName then .ok (.scalar (.bool true))
    else if t.name = falseName then .ok (.scalar (.bool false))
    else if t.name = nullName then .ok (.scalar .absent)
    else if t.name = arrayName then (decodeItems cs).map .list
    else if t.name = objectName then (decodeMembers [] cs).map .object
    else unexpected (.node t p cs)

/-- The data of the values of an array. -/
def decodeItems : List Expr → Except Fault (List Data)
  | [] => .ok []
  | e :: es => do
    let item ← decode e
    let items ← decodeItems es
    return item :: items

/-- The entries of the pairs of an object, put behind those already there. -/
def decodeMembers (entries : List (Text × Data)) : List Expr → Except Fault (List (Text × Data))
  | [] => .ok entries
  | .node t p [k, v] :: es =>
    if t.name = pairName then do
      let key ← keyText k
      let value ← decode v
      decodeMembers (Data.put entries key value) es
    else unexpected (.node t p [k, v])
  | e :: _ => unexpected e

end

end Tagfold.Json
