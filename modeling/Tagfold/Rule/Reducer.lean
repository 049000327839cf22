import Tagfold.Decimal.Literal
import Tagfold.Rule.Basic

/-!
# Stock reducers

Ready-made reducers for common rules. Places of the span are counted from its first expression, and a
result stands where the expression at the reference place stands.
-/

namespace Tagfold.Reducer

/-- The expression at a distance from the start of the span. -/
def exprAt (seq : List Expr) (i : Nat) (k : Int) : Except Fault Expr :=
  let j := (i : Int) + k
  if j < 0 then .error (.misuse .wrongShape)
  else
    match seq[j.toNat]? with
    | some e => .ok e
    | none => .error (.misuse .wrongShape)

/-- The position, value and text of the leaf at a distance from the start of the span. -/
def leafAt (seq : List Expr) (i : Nat) (k : Int) : Except Fault (Pos × Value × Text) := do
  match ← exprAt seq i k with
  | .leaf _ p v t => return (p, v, t)
  | _ => .error (.misuse .wrongShape)

/-- The position of the expression at a distance from the start of the span. -/
def posAt (seq : List Expr) (i : Nat) (k : Int) : Except Fault Pos := do
  Fault.ofMisuse (← exprAt seq i k).pos

/-- A node of at least one child. -/
def nodeOf (t : Tag) (cs : List Expr) : Except Fault Expr :=
  Fault.ofMisuse (Expr.nodeOf t cs)

/-- Always fails with a message. -/
def fail (message : Text) : Reducer := fun _ _ ↦
  .error (.issue (.plain message))

/-- Has no result. -/
def nothing : Reducer := fun _ _ ↦
  .ok .hole

/-- The expression at a place, as it is. -/
def pass (k : Int) : Reducer := fun seq i ↦
  exprAt seq i k

/-- A leaf with a fixed value and text. -/
def const (k : Int) (t : Tag) (v : Value) (text : Text) : Reducer := fun seq i ↦ do
  return .leaf t (← posAt seq i k) v text

/-- A leaf with the value of the leaf at a place. -/
def copy (k : Int) (t : Tag) : Reducer := fun seq i ↦ do
  let e ← exprAt seq i k
  return .simple t (← Fault.ofMisuse e.pos) e.value

/-- A node of the expressions from one place up to another. -/
def collect (t : Tag) (start stop : Int) : Reducer := fun seq i ↦ do
  let low := (i : Int) + start
  let high := (i : Int) + stop
  if low < 0 ∨ high < low ∨ seq.length < high then .error (.misuse .wrongShape)
  else nodeOf t ((seq.take high.toNat).drop low.toNat)

/-- A node without children. -/
def empty (k : Int) (t : Tag) : Reducer := fun seq i ↦ do
  return .node t (← posAt seq i k) []

/-- A node of the expressions at the given places. -/
def pick (t : Tag) (parts : List Int) : Reducer := fun seq i ↦ do
  nodeOf t (← parts.mapM (exprAt seq i))

/-- The children of a node, or the expression itself if it is no node. -/
def spread (e : Expr) : List Expr :=
  if e.isNode then e.children else [e]

/-- A node of the expressions at the given places, nodes replaced by their children. -/
def splice (k : Int) (t : Tag) (parts : List Int) : Reducer := fun seq i ↦ do
  let p ← posAt seq i k
  let es ← parts.mapM (exprAt seq i)
  Fault.ofMisuse (Expr.nodeAt t (es.flatMap spread) p)

/-- A node of the children at the first of the given places and the expressions at the others. -/
def append (t : Tag) (parts : List Int) : Reducer := fun seq i ↦ do
  match parts with
  | [] => .error (.misuse .wrongShape)
  | k :: ks =>
    let e ← exprAt seq i k
    nodeOf t (e.children ++ (← ks.mapM (exprAt seq i)))

/-- A leaf with the sum of the integers at the given places; other values count as zero. -/
def sum (k : Int) (t : Tag) (parts : List Int) : Reducer := fun seq i ↦ do
  let p ← posAt seq i k
  let es ← parts.mapM (exprAt seq i)
  return .simple t p (.int (es.foldl (fun n e ↦ n + e.value.int?.getD 0) 0))

/-- A leaf with the double that the texts of two leaves denote with a point between them. -/
def decimal (k : Int) (t : Tag) (whole fraction : Int) : Reducer := fun seq i ↦ do
  let (_, _, a) ← leafAt seq i whole
  let (_, _, b) ← leafAt seq i fraction
  let d ← Fault.ofIssue (Number.double (a ++ utf8 "." ++ b))
  return .simple t (← posAt seq i k) (.double d)

end Tagfold.Reducer
