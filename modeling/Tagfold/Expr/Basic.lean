import Tagfold.Issue
import Tagfold.Tag

/-!
# Expressions

An expression is a leaf with a scalar value and the raw text it was made of, or a node with ordered
children. Where an expression may be missing there is a hole; a hole has no tag and no position, and
asking for them is a misuse. A node stands where its first child stands.
-/

namespace Tagfold

/-- A tree of tagged expressions. -/
inductive Expr where
  | hole
  | leaf (tag : Tag) (pos : Pos) (value : Value) (text : Text)
  | node (tag : Tag) (pos : Pos) (children : List Expr)
  deriving Repr, Inhabited

namespace Expr

/-- The expression is missing. -/
def isHole : Expr → Bool
  | hole => true
  | _ => false

/-- The expression is a node. -/
def isNode : Expr → Bool
  | node _ _ _ => true
  | _ => false

/-- The tag of an expression. -/
def tag : Expr → Except Misuse Tag
  | hole => .error .missingExpr
  | leaf t _ _ _ => .ok t
  | node t _ _ => .ok t

/-- The name of the tag of an expression. -/
def name (e : Expr) : Except Misuse Text :=
  e.tag.map Tag.name

/-- The position of an expression. -/
def pos : Expr → Except Misuse Pos
  | hole => .error .missingExpr
  | leaf _ p _ _ => .ok p
  | node _ p _ => .ok p

/-- The children of a node; nothing else has any. -/
def children : Expr → List Expr
  | node _ _ cs => cs
  | _ => []

/-- The value of a leaf; it is absent elsewhere. -/
def value : Expr → Value
  | leaf _ _ v _ => v
  | _ => .absent

/-- The raw text of a leaf; it is empty elsewhere. -/
def text : Expr → Text
  | leaf _ _ _ t => t
  | _ => []

/-- A leaf that was made of no text. -/
def simple (t : Tag) (p : Pos) (v : Value) : Expr :=
  leaf t p v []

/-- A node with the given children. It takes the position of the first child, and the given one if
there are no children. -/
def nodeAt (t : Tag) (cs : List Expr) (p : Pos) : Except Misuse Expr :=
  match cs with
  | [] => .ok (node t p [])
  | c :: _ => c.pos.map fun p ↦ node t p cs

/-- A node with at least one child. -/
def nodeOf (t : Tag) (cs : List Expr) : Except Misuse Expr :=
  if cs.isEmpty then .error (.emptyContainer t.name) else nodeAt t cs ⟨0, 0⟩

/-- The child with the given index, or a hole. -/
def child (e : Expr) (i : Int) : Expr :=
  if i < 0 then hole else e.children[i.toNat]?.getD hole

/-- The child with the given index; negative indexes count from the end. -/
def nth (e : Expr) (i : Int) : Expr :=
  e.child (if i < 0 then i + e.children.length else i)

/-- The tag names of a sequence, separated by spaces. -/
def tagNames (seq : List Expr) : Except Misuse Text :=
  (seq.mapM name).map (Text.join (utf8 " "))

/-- A short description: the tag with the value of a leaf or the number of children of a node. -/
def describe : Expr → Text
  | hole => utf8 "<nil>"
  | leaf t _ .absent _ => t.name
  | leaf t _ v _ => t.name ++ utf8 "(" ++ v.display ++ utf8 ")"
  | node t _ cs => t.name ++ utf8 "[" ++ Text.decimal cs.length ++ utf8 "]"

end Expr

end Tagfold
