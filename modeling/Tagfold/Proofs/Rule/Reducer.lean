import Mathlib.Data.List.Basic
import Tagfold.Rule.Reducer

/-!
# Reducers on a span

A reducer sees the whole sequence and the index of its span. Here the sequence is split before the
span, and the expressions that a reducer asks for are those of the span: `exprAt_span` and
`collect_span` are the general facts, and the lemmas about the first three places are what the
proofs about particular rules use.
-/

namespace Tagfold

/-- A node of at least one child stands where its first child stands. -/
theorem Expr.nodeOf_cons (t : Tag) {c : Expr} {p : Pos} (hp : c.pos = .ok p) (cs : List Expr) :
    Expr.nodeOf t (c :: cs) = .ok (.node t p (c :: cs)) := by
  simp [Expr.nodeOf, Expr.nodeAt, hp, Except.map]

namespace Reducer

/-- A node of at least one child is made by its first child. -/
theorem nodeOf_cons (t : Tag) {c : Expr} {p : Pos} (hp : c.pos = .ok p) (cs : List Expr) :
    nodeOf t (c :: cs) = .ok (.node t p (c :: cs)) := by
  simp [nodeOf, Expr.nodeOf_cons t hp, Fault.ofMisuse, Except.mapError]

/-- The expression behind the first ones of the span is at the distance of their number. -/
theorem exprAt_span (before skipped : List Expr) (e : Expr) (rest : List Expr) :
    exprAt (before ++ (skipped ++ e :: rest)) before.length skipped.length = .ok e := by
  have hindex :
      ((before.length : Int) + skipped.length).toNat = before.length + skipped.length := by
    omega
  have hget : (before ++ (skipped ++ e :: rest))[before.length + skipped.length]? = some e := by
    rw [List.getElem?_append_right (by omega), Nat.add_sub_cancel_left,
      List.getElem?_append_right (Nat.le_refl _), Nat.sub_self, List.getElem?_cons_zero]
  unfold exprAt
  rw [if_neg (by omega), hindex, hget]

/-- The first expression of the span. -/
@[simp]
theorem exprAt_zero (before : List Expr) (a : Expr) (rest : List Expr) :
    exprAt (before ++ a :: rest) before.length 0 = .ok a :=
  exprAt_span before [] a rest

/-- The second expression of the span. -/
@[simp]
theorem exprAt_one (before : List Expr) (a b : Expr) (rest : List Expr) :
    exprAt (before ++ a :: b :: rest) before.length 1 = .ok b :=
  exprAt_span before [a] b rest

/-- The third expression of the span. -/
@[simp]
theorem exprAt_two (before : List Expr) (a b c : Expr) (rest : List Expr) :
    exprAt (before ++ a :: b :: c :: rest) before.length 2 = .ok c :=
  exprAt_span before [a, b] c rest

/-- Collecting takes the expressions between two places of the span. -/
theorem collect_span (t : Tag) (before skipped taken rest : List Expr) :
    collect t skipped.length (skipped.length + taken.length)
        (before ++ (skipped ++ (taken ++ rest))) before.length = nodeOf t taken := by
  have hlow : ((before.length : Int) + skipped.length).toNat = before.length + skipped.length := by
    omega
  have hhigh : ((before.length : Int) + (skipped.length + taken.length)).toNat =
      before.length + (skipped.length + taken.length) := by
    omega
  have htaken : ((before ++ (skipped ++ (taken ++ rest))).take
      (before.length + (skipped.length + taken.length))).drop (before.length + skipped.length) =
        taken := by
    simp [List.take_length_add_append, List.drop_length_add_append]
  have hinside : ¬ ((before.length : Int) + skipped.length < 0 ∨
      (before.length : Int) + (skipped.length + taken.length) < before.length + skipped.length ∨
      ((before ++ (skipped ++ (taken ++ rest))).length : Int) <
        before.length + (skipped.length + taken.length)) := by
    simp only [List.length_append]
    omega
  simp only [collect, if_neg hinside, hlow, hhigh, htaken]

/-- Collecting the first expression of the span. -/
@[simp]
theorem collect_first (t : Tag) (before : List Expr) (a : Expr) (rest : List Expr) :
    collect t 0 1 (before ++ a :: rest) before.length = nodeOf t [a] :=
  collect_span t before [] [a] rest

/-- Collecting the first two expressions of the span. -/
@[simp]
theorem collect_two (t : Tag) (before : List Expr) (a b : Expr) (rest : List Expr) :
    collect t 0 2 (before ++ a :: b :: rest) before.length = nodeOf t [a, b] :=
  collect_span t before [] [a, b] rest

/-- Collecting the second expression of the span. -/
@[simp]
theorem collect_second (t : Tag) (before : List Expr) (a b : Expr) (rest : List Expr) :
    collect t 1 2 (before ++ a :: b :: rest) before.length = nodeOf t [b] :=
  collect_span t before [a] [b] rest

/-- Two leaves around one expression give the double that their texts denote. -/
theorem decimal_span (t : Tag) (before rest : List Expr) (s u : Tag) (p q : Pos) (v w : Value)
    (whole fraction : Text) (point : Expr) :
    decimal 0 t 0 2 (before ++ .leaf s p v whole :: point :: .leaf u q w fraction :: rest)
        before.length =
      (Fault.ofIssue (Number.double (whole ++ utf8 "." ++ fraction))).map fun d ↦
        .simple t p (.double d) := by
  simp only [decimal, leafAt, posAt, exprAt_zero, exprAt_two, bind, Except.bind, pure, Except.pure,
    Expr.pos, Fault.ofMisuse, Except.mapError]
  cases Fault.ofIssue (Number.double (whole ++ utf8 "." ++ fraction)) <;> rfl

end Reducer

end Tagfold
