import Tagfold.Json.Language
import Tagfold.Proofs.Decimal.Literal

/-!
# JSON syntax

JSON values as trees of their own, apart from tagged expressions: `Tree` keeps the places and
spellings of the leaves, and `Tree.expr` is the tagged expression of a tree in a registry. `Derives`
is the grammar of JSON over lists of tokens, one constructor for every production; it also says
which tree a derivation has.
-/

namespace Tagfold

mutual

/-- The tag names of an expression and all its descendants. -/
def Expr.allNames : Expr → List Text
  | .hole => []
  | .leaf t _ _ _ => [t.name]
  | .node t _ cs => t.name :: Expr.allNamesOf cs

/-- The tag names of a list of expressions and all their descendants. -/
def Expr.allNamesOf : List Expr → List Text
  | [] => []
  | c :: cs => c.allNames ++ Expr.allNamesOf cs

end

namespace Json

open Text Double

/-- A punctuation mark. -/
inductive Punct where
  | openBrace
  | closeBrace
  | openBracket
  | closeBracket
  | colon
  | comma
  | point
  deriving DecidableEq

/-- The text of a punctuation mark. -/
def Punct.text : Punct → Text
  | openBrace => utf8 "\x7b"
  | closeBrace => utf8 "\x7d"
  | openBracket => utf8 "["
  | closeBracket => utf8 "]"
  | colon => utf8 ":"
  | comma => utf8 ","
  | point => utf8 "."

/-- A value that is a keyword. -/
inductive Constant where
  | yes
  | no
  | null
  deriving DecidableEq

/-- The keyword of a constant. -/
def Constant.text : Constant → Text
  | yes => utf8 "true"
  | no => utf8 "false"
  | null => utf8 "null"

/-- A run of digits that denotes a number in the range of doubles. -/
structure Numeral where
  text : Text
  isNumeral : Number.isNumeral text = true
  inRange : digitsValue text < overflowBound

namespace Numeral

variable (n : Numeral)

/-- A numeral has only digits. -/
theorem digits : Digits n.text :=
  (Number.isNumeral_iff.mp n.isNumeral).2

/-- A numeral has digits. -/
theorem text_ne_nil : n.text ≠ [] :=
  (Number.isNumeral_iff.mp n.isNumeral).1

/-- The value of a numeral: a 64-bit integer if it fits, and the nearest double otherwise. -/
def value : Value :=
  if digitsValue n.text < 2 ^ 63 then .int (Int64.ofNat (digitsValue n.text))
  else .double (.number false (nearestRank (digitsValue n.text) 1))

/-- A numeral is read as its value. -/
theorem integer_text : Number.integer n.text = .ok n.value :=
  Number.integer_of_lt n.isNumeral n.inRange

/-- The double of two numerals around a point. -/
def withFraction (fraction : Numeral) : Double :=
  .number false
    (nearestRank (digitsValue (n.text ++ fraction.text)) (10 ^ fraction.text.length))

/-- Two numerals around a point are read as their double. -/
theorem double_withFraction (fraction : Numeral) :
    Number.double (n.text ++ utf8 "." ++ fraction.text) = .ok (n.withFraction fraction) := by
  unfold Number.double
  rw [Literal.readDouble_point n.digits n.text_ne_nil fraction.digits,
    if_pos (Literal.digitsValue_append_lt_overflowBound fraction.digits n.inRange)]
  rfl

end Numeral

mutual

/-- A JSON value. Leaves carry their places, and objects and arrays those of their brackets. -/
inductive Tree where
  | string (pos : Pos) (value raw : Text)
  | integer (pos : Pos) (numeral : Numeral)
  | decimal (pos : Pos) (whole fraction : Numeral)
  | constant (pos : Pos) (c : Constant)
  | object (pos : Pos) (members : List Member)
  | array (pos : Pos) (items : List Tree)

/-- A member of an object: a key, its place, and a value. -/
inductive Member where
  | mk (pos : Pos) (key : Text) (value : Tree)

end

namespace Member

/-- The place of a member is that of its key. -/
def pos : Member → Pos
  | mk p _ _ => p

/-- The key of a member. -/
def key : Member → Text
  | mk _ k _ => k

/-- The value of a member. -/
def value : Member → Tree
  | mk _ _ v => v

end Member

namespace Tree

/-- What holds of a tree as soon as it holds of its values holds of every tree. -/
@[elab_as_elim]
theorem induct {motive : Tree → Prop} (string : ∀ p s raw, motive (.string p s raw))
    (integer : ∀ p n, motive (.integer p n)) (decimal : ∀ p a b, motive (.decimal p a b))
    (constant : ∀ p c, motive (.constant p c))
    (object : ∀ p ms, (∀ m ∈ ms, motive m.value) → motive (.object p ms))
    (array : ∀ p vs, (∀ v ∈ vs, motive v) → motive (.array p vs)) (v : Tree) : motive v :=
  @Tree.rec motive (fun m ↦ motive m.value) (fun ms ↦ ∀ m ∈ ms, motive m.value)
    (fun vs ↦ ∀ v ∈ vs, motive v) string integer decimal constant object array
    (fun _ _ _ hv ↦ hv) (by simp) (fun _ _ hm hms ↦ by simpa using ⟨hm, hms⟩) (by simp)
    (fun _ _ hv hvs ↦ by simpa using ⟨hv, hvs⟩) v

mutual

/-- The place of a value: a nonempty object or array stands where its first part stands. -/
def pos : Tree → Pos
  | string p _ _ => p
  | integer p _ => p
  | decimal p _ _ => p
  | constant p _ => p
  | object p [] => p
  | object _ (m :: _) => m.pos
  | array p vs => firstPos p vs

/-- The place of the first value of a list, or the given one. -/
def firstPos (p : Pos) : List Tree → Pos
  | [] => p
  | v :: _ => v.pos

end

mutual

/-- The tagged expression of a value. -/
def expr (reg : Registry) : Tree → Expr
  | string p s raw => .leaf (reg.lookup stringTagName) p (.text s) raw
  | integer p n => .leaf (reg.lookup integerTagName) p n.value n.text
  | decimal p a b => .simple (reg.lookup decimalName) p (.double (a.withFraction b))
  | constant p c => .leaf (reg.lookup (keywordTagName c.text)) p .absent c.text
  | object p ms => .node (reg.lookup objectName) (object p ms).pos (membersExpr reg ms)
  | array p vs => .node (reg.lookup arrayName) (array p vs).pos (itemsExpr reg vs)

/-- The tagged expression of a member: a node of its key and its value. -/
def memberExpr (reg : Registry) : Member → Expr
  | .mk p k v =>
    .node (reg.lookup pairName) p [.simple (reg.lookup pairKeyName) p (.text k), v.expr reg]

/-- The tagged expressions of members. -/
def membersExpr (reg : Registry) : List Member → List Expr
  | [] => []
  | m :: ms => memberExpr reg m :: membersExpr reg ms

/-- The tagged expressions of values. -/
def itemsExpr (reg : Registry) : List Tree → List Expr
  | [] => []
  | v :: vs => v.expr reg :: itemsExpr reg vs

end

variable (reg : Registry)

/-- The members of an object are tagged one by one. -/
theorem membersExpr_eq_map (ms : List Member) : membersExpr reg ms = ms.map (memberExpr reg) := by
  induction ms with
  | nil => rfl
  | cons m ms ih => rw [membersExpr, ih, List.map_cons]

/-- The values of an array are tagged one by one. -/
theorem itemsExpr_eq_map (vs : List Tree) : itemsExpr reg vs = vs.map (expr reg) := by
  induction vs with
  | nil => rfl
  | cons v vs ih => rw [itemsExpr, ih, List.map_cons]

/-- The expression of a value stands where the value stands. -/
theorem pos_expr (v : Tree) : (v.expr reg).pos = .ok v.pos := by
  cases v <;> rfl

/-- The expression of a member stands where its key stands. -/
theorem pos_memberExpr (m : Member) : (memberExpr reg m).pos = .ok m.pos := by
  cases m
  rfl

end Tree

/-- The token is a punctuation mark. -/
def IsPunct (p : Punct) (t : Token) : Prop := t.kind = .symbol ∧ t.text = p.text

/-- The token is the keyword of a constant. -/
def IsConstant (c : Constant) (t : Token) : Prop := t.kind = .keyword ∧ t.text = c.text

/-- The token is a string literal of a text. -/
def IsString (s : Text) (t : Token) : Prop := t.kind = .string ∧ decodeString? t.text = some s

/-- The token is a numeral. -/
def IsNumeral (n : Numeral) (t : Token) : Prop := t.kind = .word ∧ t.text = n.text

/-- The tokens of JSON texts: punctuation marks, keywords, literals that denote a text, and numerals
in range. -/
inductive Lexeme (t : Token) : Prop where
  | punct (p : Punct) : IsPunct p t → Lexeme t
  | constant (c : Constant) : IsConstant c t → Lexeme t
  | string (s : Text) : IsString s t → Lexeme t
  | numeral (n : Numeral) : IsNumeral n t → Lexeme t

/-- What a list of tokens can be derived from, with its tree. -/
inductive Phrase where
  | value (v : Tree)
  | pair (m : Member)
  | members (ms : List Member)
  | items (vs : List Tree)

/-- The grammar of JSON: a list of tokens is a phrase. -/
inductive Derives : List Token → Phrase → Prop where
  | string {t : Token} {s : Text} : IsString s t → Derives [t] (.value (.string t.pos s t.text))
  | integer {t : Token} {n : Numeral} : IsNumeral n t → Derives [t] (.value (.integer t.pos n))
  | decimal {t p u : Token} {m n : Numeral} :
      IsNumeral m t → IsPunct .point p → IsNumeral n u →
      Derives [t, p, u] (.value (.decimal t.pos m n))
  | constant {t : Token} {c : Constant} : IsConstant c t → Derives [t] (.value (.constant t.pos c))
  | emptyObject {o c : Token} :
      IsPunct .openBrace o → IsPunct .closeBrace c → Derives [o, c] (.value (.object o.pos []))
  | object {o c : Token} {ts : List Token} {ms : List Member} :
      IsPunct .openBrace o → Derives ts (.members ms) → IsPunct .closeBrace c →
      Derives (o :: (ts ++ [c])) (.value (.object o.pos ms))
  | emptyArray {o c : Token} :
      IsPunct .openBracket o → IsPunct .closeBracket c → Derives [o, c] (.value (.array o.pos []))
  | array {o c : Token} {ts : List Token} {vs : List Tree} :
      IsPunct .openBracket o → Derives ts (.items vs) → IsPunct .closeBracket c →
      Derives (o :: (ts ++ [c])) (.value (.array o.pos vs))
  | pair {k c : Token} {s : Text} {ts : List Token} {v : Tree} :
      IsString s k → IsPunct .colon c → Derives ts (.value v) →
      Derives (k :: c :: ts) (.pair (.mk k.pos s v))
  | lastMember {ts : List Token} {m : Member} : Derives ts (.pair m) → Derives ts (.members [m])
  | nextMember {ts us : List Token} {c : Token} {m : Member} {ms : List Member} :
      Derives ts (.pair m) → IsPunct .comma c → Derives us (.members ms) →
      Derives (ts ++ c :: us) (.members (m :: ms))
  | lastItem {ts : List Token} {v : Tree} : Derives ts (.value v) → Derives ts (.items [v])
  | nextItem {ts us : List Token} {c : Token} {v : Tree} {vs : List Tree} :
      Derives ts (.value v) → IsPunct .comma c → Derives us (.items vs) →
      Derives (ts ++ c :: us) (.items (v :: vs))

/-- Two lists of members around a comma are one list of members. -/
theorem Derives.append_members {ts us : List Token} {c : Token} {ms ns : List Member}
    (hms : Derives ts (.members ms)) (hc : IsPunct .comma c) (hns : Derives us (.members ns)) :
    Derives (ts ++ c :: us) (.members (ms ++ ns)) := by
  generalize hphrase : Phrase.members ms = phrase at hms
  induction hms generalizing ms with
  | lastMember hm =>
      cases hphrase
      exact .nextMember hm hc hns
  | nextMember hm hcomma _ _ ih =>
      cases hphrase
      rw [List.append_assoc, List.cons_append]
      exact .nextMember hm hcomma (ih rfl)
  | _ => cases hphrase

/-- Values, a comma and a value are a longer list of values. -/
theorem Derives.append_item {ts us : List Token} {c : Token} {vs : List Tree} {w : Tree}
    (hvs : Derives ts (.items vs)) (hc : IsPunct .comma c) (hw : Derives us (.value w)) :
    Derives (ts ++ c :: us) (.items (vs ++ [w])) := by
  generalize hphrase : Phrase.items vs = phrase at hvs
  induction hvs generalizing vs with
  | lastItem hv =>
      cases hphrase
      exact .nextItem hv hc (.lastItem hw)
  | nextItem hv hcomma _ _ ih =>
      cases hphrase
      rw [List.append_assoc, List.cons_append]
      exact .nextItem hv hcomma (ih rfl)
  | _ => cases hphrase

end Json

end Tagfold
