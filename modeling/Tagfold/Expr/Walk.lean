import Tagfold.Expr.Basic

/-!
# Walks

A walk visits an expression and its descendants depth first, from left to right or from right to
left. The visitor carries a state and decides at every expression whether its children are visited.
Counting descendants and finding the outermost leaves are recursions of their own; they agree with
what a walk that never prunes sees.
-/

namespace Tagfold

/-- The order in which the children of a node are visited. -/
inductive Direction where
  | leftToRight
  | rightToLeft
  deriving DecidableEq, Repr

/-- What is done with an expression at a level: the state afterwards, and whether the children are
visited. -/
abbrev Visitor (σ : Type) := σ → Nat → Expr → σ × Bool

namespace Expr

mutual

/-- Visit an expression at a level and, if the visitor agrees, its descendants. -/
def visit {σ : Type} (d : Direction) (v : Visitor σ) (level : Nat) (s : σ) : Expr → σ
  | hole => (v s level hole).1
  | leaf t p x y => (v s level (leaf t p x y)).1
  | node t p cs =>
    match v s level (node t p cs) with
    | (s, true) => visitAll d v (level + 1) s cs
    | (s, false) => s

/-- Visit the expressions of a list at one level. -/
def visitAll {σ : Type} (d : Direction) (v : Visitor σ) (level : Nat) (s : σ) : List Expr → σ
  | [] => s
  | c :: cs =>
    match d with
    | .leftToRight => visitAll d v level (visit d v level s c) cs
    | .rightToLeft => visit d v level (visitAll d v level s cs) c

end

/-- Walk through an expression from level zero; a hole is not walked through. -/
def walk {σ : Type} (d : Direction) (v : Visitor σ) (s : σ) (e : Expr) : σ :=
  if e.isHole then s else visit d v 0 s e

/-- The expressions that a walk visits, with their levels, in visiting order. -/
def visited (d : Direction) (descend : Expr → Bool) (e : Expr) : List (Nat × Expr) :=
  (walk d (fun seen level e ↦ ((level, e) :: seen, descend e)) [] e).reverse

mutual

/-- The number of descendants of an expression down to the given depth: zero means children only,
and a negative depth is no bound. -/
def numNodes (depth : Int) : Expr → Nat
  | node _ _ cs => numNodesAll depth cs
  | _ => 0

/-- The expressions of a list and their descendants down to the given depth. -/
def numNodesAll (depth : Int) : List Expr → Nat
  | [] => 0
  | c :: cs => 1 + (if depth = 0 then 0 else numNodes (depth - 1) c) + numNodesAll depth cs

end

mutual

/-- The leftmost leaf, or a hole. -/
def firstLeaf : Expr → Expr
  | hole => hole
  | leaf t p v x => leaf t p v x
  | node _ _ cs => firstLeafOf cs

/-- The leftmost leaf of a list, or a hole. -/
def firstLeafOf : List Expr → Expr
  | [] => hole
  | c :: cs =>
    match firstLeaf c with
    | hole => firstLeafOf cs
    | e => e

end

mutual

/-- The rightmost leaf, or a hole. -/
def lastLeaf : Expr → Expr
  | hole => hole
  | leaf t p v x => leaf t p v x
  | node _ _ cs => lastLeafOf cs

/-- The rightmost leaf of a list, or a hole. -/
def lastLeafOf : List Expr → Expr
  | [] => hole
  | c :: cs =>
    match lastLeafOf cs with
    | hole => lastLeaf c
    | e => e

end

mutual

/-- Structural equality: the same tag names, positions, texts and values all over. -/
def equals : Expr → Expr → Bool
  | hole, hole => true
  | leaf t p v x, leaf t' p' v' x' => t.name == t'.name && p == p' && x == x' && v.equals v'
  | node t p cs, node t' p' cs' => t.name == t'.name && p == p' && equalsAll cs cs'
  | _, _ => false

/-- Structural equality of two lists, place by place. -/
def equalsAll : List Expr → List Expr → Bool
  | [], [] => true
  | c :: cs, c' :: cs' => equals c c' && equalsAll cs cs'
  | _, _ => false

end

end Expr

end Tagfold
