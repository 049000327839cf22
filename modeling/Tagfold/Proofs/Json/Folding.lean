import Tagfold.Proofs.Json.Syntax
import Tagfold.Proofs.Reduction.Run
import Tagfold.Proofs.Rule.Reducer

/-!
# Folding JSON

While a JSON text is folded, the sequence consists of parts: punctuation marks, values, keys, pairs,
and the members and elements of unfinished containers. `Fold` lists what the eleven rules do with
parts, and `rules_fold` says that each rule of the table does that and nothing else. `attempt_cases`
is the result for one attempt of the engine: it finds no match exactly where nothing folds, and
otherwise folds one span; numbers are joined at their points before anything else is folded.
-/

namespace Tagfold.Json

/-- The tags of the expressions that occur while a JSON text is folded. -/
inductive Label where
  | string
  | integer
  | decimal
  | pairKey
  | pair
  | members
  | object
  | elements
  | array
  | constant (c : Constant)
  | punct (p : Punct)
  deriving DecidableEq

namespace Label

/-- The name of a tag. -/
def name : Label → Text
  | string => stringTagName
  | integer => integerTagName
  | decimal => decimalName
  | pairKey => pairKeyName
  | pair => pairName
  | members => membersName
  | object => objectName
  | elements => elementsName
  | array => arrayName
  | constant c => keywordTagName c.text
  | punct p => symbolTagName p.text

/-- All tags. -/
def all : List Label :=
  [string, integer, decimal, pairKey, pair, members, object, elements, array, constant .yes,
    constant .no, constant .null, punct .openBrace, punct .closeBrace, punct .openBracket,
    punct .closeBracket, punct .colon, punct .comma, punct .point]

/-- Every tag is listed. -/
theorem mem_all (l : Label) : l ∈ all := by
  cases l with
  | constant c => cases c <;> decide
  | punct p => cases p <;> decide
  | _ => decide

/-- Different tags have different names. -/
theorem name_injective : Function.Injective name := by
  have hnodup : (all.map name).Nodup := by decide
  intro a b h
  exact List.inj_on_of_nodup_map hnodup (mem_all a) (mem_all b) h

/-- The tags of complete values. -/
def values : List Label :=
  [string, integer, decimal, object, array, constant .yes, constant .no, constant .null]

/-- The matcher that accepts the given tags. -/
def matcher (ls : List Label) : Matcher := ⟨ls.map name⟩

end Label

/-- A part of a JSON text that is being folded. Elements keep the place of their bracket. -/
inductive Part where
  | punct (p : Punct) (pos : Pos)
  | value (v : Tree)
  | key (pos : Pos) (key : Text)
  | pair (m : Member)
  | members (m : Member) (ms : List Member)
  | elements (pos : Pos) (v : Tree) (vs : List Tree)

/-- The tag of a value. -/
def Tree.label : Tree → Label
  | string _ _ _ => .string
  | integer _ _ => .integer
  | decimal _ _ _ => .decimal
  | constant _ c => .constant c
  | object _ _ => .object
  | array _ _ => .array

namespace Part

/-- The tag of a part. -/
def label : Part → Label
  | punct p _ => .punct p
  | value v => v.label
  | key _ _ => .pairKey
  | pair _ => .pair
  | members _ _ => .members
  | elements _ _ _ => .elements

/-- The tagged expression of a part. -/
def expr (reg : Registry) : Part → Expr
  | punct p pos => .leaf (reg.lookup (symbolTagName p.text)) pos .absent p.text
  | value v => v.expr reg
  | key pos k => .simple (reg.lookup pairKeyName) pos (.text k)
  | pair m => Tree.memberExpr reg m
  | members m ms => .node (reg.lookup membersName) m.pos (Tree.membersExpr reg (m :: ms))
  | elements _ v vs => .node (reg.lookup elementsName) v.pos (Tree.itemsExpr reg (v :: vs))

variable {reg : Registry} {p : Part}

/-- The expression of a part has the tag of the part. -/
theorem tag_expr (reg : Registry) (p : Part) :
    (p.expr reg).tag = .ok (reg.lookup p.label.name) := by
  cases p with
  | value v => cases v <;> rfl
  | pair m => cases m; rfl
  | _ => rfl

/-- The registry knows the tags of all parts. -/
def Known (reg : Registry) : Prop := ∀ l : Label, l.name ∈ reg.names

/-- In a registry that knows all tags, the expression of a part has an owned tag. -/
theorem owned_expr (hreg : Known reg) (p : Part) : (p.expr reg).Owned reg :=
  ⟨_, tag_expr reg p, Registry.owns_lookup (hreg p.label)⟩

/-- The expressions of parts have owned tags. -/
theorem owned_map_expr (hreg : Known reg) (parts : List Part) :
    ∀ e ∈ parts.map (expr reg), e.Owned reg := by
  intro e he
  obtain ⟨p, -, rfl⟩ := List.mem_map.mp he
  exact owned_expr hreg p

/-- A part with the tag of integers is an integer. -/
theorem label_eq_integer : p.label = .integer ↔ ∃ pos n, p = .value (.integer pos n) := by
  cases p with
  | value v => cases v <;> simp [label, Tree.label]
  | _ => simp [label]

/-- A part with the tag of strings is a string. -/
theorem label_eq_string : p.label = .string ↔ ∃ pos s raw, p = .value (.string pos s raw) := by
  cases p with
  | value v => cases v <;> simp [label, Tree.label]
  | _ => simp [label]

/-- A part with the tag of a complete value is a value. -/
theorem label_mem_values : p.label ∈ Label.values ↔ ∃ v, p = .value v := by
  cases p with
  | value v =>
      cases v with
      | constant _ c => cases c <;> simp [label, Tree.label, Label.values]
      | _ => simp [label, Tree.label, Label.values]
  | _ => simp [label, Label.values]

/-- A part with the tag of a punctuation mark is that mark. -/
theorem label_eq_punct {q : Punct} : p.label = .punct q ↔ ∃ pos, p = .punct q pos := by
  cases p with
  | value v => cases v <;> simp [label, Tree.label]
  | _ => simp [label]

/-- A part with the tag of keys is a key. -/
theorem label_eq_pairKey : p.label = .pairKey ↔ ∃ pos k, p = .key pos k := by
  cases p with
  | value v => cases v <;> simp [label, Tree.label]
  | _ => simp [label]

/-- A part with the tag of pairs is a pair. -/
theorem label_eq_pair : p.label = .pair ↔ ∃ m, p = .pair m := by
  cases p with
  | value v => cases v <;> simp [label, Tree.label]
  | _ => simp [label]

/-- A part with the tag of members is a list of members. -/
theorem label_eq_members : p.label = .members ↔ ∃ m ms, p = .members m ms := by
  cases p with
  | value v => cases v <;> simp [label, Tree.label]
  | _ => simp [label]

/-- A part with the tag of elements is a list of elements. -/
theorem label_eq_elements : p.label = .elements ↔ ∃ pos v vs, p = .elements pos v vs := by
  cases p with
  | value v => cases v <;> simp [label, Tree.label]
  | _ => simp [label]

/-- A matcher accepts the parts whose tags it lists. -/
theorem accepts_expr (ls : List Label) :
    (Label.matcher ls).accepts (p.expr reg) = true ↔ p.label ∈ ls := by
  rw [Matcher.accepts, tag_expr]
  simp [Label.matcher, Registry.lookup, Label.name_injective.eq_iff]

/-- The parts have the listed tags, place by place. -/
abbrev Shaped (span : List Part) (shape : List (List Label)) : Prop :=
  List.Forall₂ (fun (p : Part) (ls : List Label) ↦ p.label ∈ ls) span shape

/-- A pattern fits where a span of its shape stands. -/
theorem fits_iff {shape : List (List Label)} {parts : List Part} :
    Matcher.fits (shape.map Label.matcher) (parts.map (expr reg)) = true ↔
      ∃ span behind, parts = span ++ behind ∧ Shaped span shape := by
  induction shape generalizing parts with
  | nil => simp [Matcher.fits]
  | cons ls shape ih =>
      cases parts with
      | nil => simp [Matcher.fits]
      | cons p parts =>
          rw [List.map_cons, List.map_cons, Matcher.fits, Bool.and_eq_true, accepts_expr, ih]
          constructor
          · rintro ⟨hp, span, behind, rfl, hspan⟩
            exact ⟨p :: span, behind, rfl, .cons hp hspan⟩
          · rintro ⟨span, behind, hparts, hspan⟩
            cases hspan with
            | cons hp hrest =>
                obtain ⟨rfl, rfl⟩ := List.cons.inj hparts
                exact ⟨hp, _, behind, rfl, hrest⟩

end Part

open Tagfold.Json.Part (Shaped)

/-- What the rules do: consecutive parts are folded into one. -/
inductive Fold : List Part → Part → Prop where
  | decimal (p q r : Pos) (m n : Numeral) :
      Fold [.value (.integer p m), .punct .point q, .value (.integer r n)]
        (.value (.decimal p m n))
  | key (p q : Pos) (s raw : Text) :
      Fold [.value (.string p s raw), .punct .colon q] (.key p s)
  | pair (p : Pos) (s : Text) (v : Tree) : Fold [.key p s, .value v] (.pair (.mk p s v))
  | member (m : Member) : Fold [.pair m] (.members m [])
  | members (m n : Member) (ms ns : List Member) (q : Pos) :
      Fold [.members m ms, .punct .comma q, .members n ns] (.members m (ms ++ n :: ns))
  | object (p q : Pos) (m : Member) (ms : List Member) :
      Fold [.punct .openBrace p, .members m ms, .punct .closeBrace q] (.value (.object p (m :: ms)))
  | first (p : Pos) (v : Tree) : Fold [.punct .openBracket p, .value v] (.elements p v [])
  | next (p q : Pos) (v w : Tree) (vs : List Tree) :
      Fold [.elements p v vs, .punct .comma q, .value w] (.elements p v (vs ++ [w]))
  | array (p q : Pos) (v : Tree) (vs : List Tree) :
      Fold [.elements p v vs, .punct .closeBracket q] (.value (.array p (v :: vs)))
  | emptyArray (p q : Pos) :
      Fold [.punct .openBracket p, .punct .closeBracket q] (.value (.array p []))
  | emptyObject (p q : Pos) :
      Fold [.punct .openBrace p, .punct .closeBrace q] (.value (.object p []))

/-- The tags of folded expressions that a registry has. -/
def tagsOf (reg : Registry) : Tags where
  decimal := reg.lookup decimalName
  pairKey := reg.lookup pairKeyName
  pair := reg.lookup pairName
  members := reg.lookup membersName
  object := reg.lookup objectName
  elements := reg.lookup elementsName
  array := reg.lookup arrayName

/-- The rule matches spans of a shape, and its reducer folds them. -/
structure Folds (reg : Registry) (r : Rule) (shape : List (List Label)) : Prop where
  pattern : r.pattern = shape.map Label.matcher
  reduce : ∀ {span : List Part}, Shaped span shape → ∃ result reduce, Fold span result ∧
    r.reduce = some reduce ∧ ∀ before behind : List Expr,
      reduce (before ++ (span.map (Part.expr reg) ++ behind)) before.length =
        .ok (result.expr reg)

/-- A span of the first shape is made of two integers around a point. -/
theorem shaped_point {span : List Part}
    (h : Shaped span [[.integer], [.punct .point], [.integer]]) :
    ∃ p q r m n, span = [.value (.integer p m), .punct .point q, .value (.integer r n)] := by
  simp only [List.forall₂_cons_right_iff, List.forall₂_nil_right_iff, List.mem_singleton,
    Part.label_eq_integer, Part.label_eq_punct] at h
  obtain ⟨_, _, ⟨p, m, rfl⟩, ⟨_, _, ⟨q, rfl⟩, ⟨_, _, ⟨r, n, rfl⟩, rfl, rfl⟩, rfl⟩, rfl⟩ := h
  exact ⟨p, q, r, m, n, rfl⟩

section Rules

variable {reg : Registry} (name : Text)

/-- The rule of decimals joins two integers around a point. -/
theorem folds_decimal :
    Folds reg ⟨name, [.tag integerTagName, symbol ".", .tag integerTagName],
      (tagsOf reg).reduceDecimal⟩ [[.integer], [.punct .point], [.integer]] where
  pattern := rfl
  reduce := by
    intro span h
    obtain ⟨p, q, r, m, n, rfl⟩ := shaped_point h
    refine ⟨_, _, .decimal p q r m n, rfl, fun before behind ↦ ?_⟩
    have hdouble := m.double_withFraction n
    rw [List.append_assoc] at hdouble
    simp [Tags.reduceDecimal, Reducer.decimal, Reducer.leafAt, Reducer.posAt, Part.expr, Tree.expr,
      hdouble, Fault.ofIssue, Fault.ofMisuse, Except.mapError, Expr.pos, bind, Except.bind, pure,
      Except.pure, tagsOf]

/-- The rule of keys takes a string before a colon. -/
theorem folds_key :
    Folds reg ⟨name, [.tag stringTagName, symbol ":"], (tagsOf reg).reducePairKey⟩
      [[.string], [.punct .colon]] where
  pattern := rfl
  reduce := by
    intro span h
    simp only [List.forall₂_cons_right_iff, List.forall₂_nil_right_iff, List.mem_singleton,
      Part.label_eq_string, Part.label_eq_punct] at h
    obtain ⟨_, _, ⟨p, s, raw, rfl⟩, ⟨_, _, ⟨q, rfl⟩, rfl, rfl⟩, rfl⟩ := h
    refine ⟨_, _, .key p q s raw, rfl, fun before behind ↦ ?_⟩
    simp [Tags.reducePairKey, Reducer.leafAt, Part.expr, Tree.expr, bind, Except.bind, pure,
      Except.pure, tagsOf]

/-- The rule of pairs takes a key and a value. -/
theorem folds_pair :
    Folds reg ⟨name, [.tag pairKeyName, anyValue], (tagsOf reg).reducePair⟩
      [[.pairKey], Label.values] where
  pattern := rfl
  reduce := by
    intro span h
    simp only [List.forall₂_cons_right_iff, List.forall₂_nil_right_iff, List.mem_singleton,
      Part.label_eq_pairKey, Part.label_mem_values] at h
    obtain ⟨_, _, ⟨p, s, rfl⟩, ⟨_, _, ⟨v, rfl⟩, rfl, rfl⟩, rfl⟩ := h
    refine ⟨_, _, .pair p s v, rfl, fun before behind ↦ ?_⟩
    have hpos : (Part.expr reg (.key p s)).pos = .ok p := rfl
    simp only [Part.expr] at hpos
    simp [Tags.reducePair, Part.expr, Tree.memberExpr, tagsOf, Reducer.nodeOf_cons _ hpos]

/-- The rule of members takes a pair. -/
theorem folds_member :
    Folds reg ⟨name, [.tag pairName], (tagsOf reg).reduceMember⟩ [[.pair]] where
  pattern := rfl
  reduce := by
    intro span h
    simp only [List.forall₂_cons_right_iff, List.forall₂_nil_right_iff, List.mem_singleton,
      Part.label_eq_pair] at h
    obtain ⟨_, _, ⟨m, rfl⟩, rfl, rfl⟩ := h
    refine ⟨_, _, .member m, rfl, fun before behind ↦ ?_⟩
    simp [Tags.reduceMember, Part.expr, Tree.membersExpr, tagsOf,
      Reducer.nodeOf_cons _ (Tree.pos_memberExpr reg m)]

/-- The rule that joins members takes two lists of them around a comma. -/
theorem folds_members :
    Folds reg ⟨name, [.tag membersName, symbol ",", .tag membersName], (tagsOf reg).reduceMembers⟩
      [[.members], [.punct .comma], [.members]] where
  pattern := rfl
  reduce := by
    intro span h
    simp only [List.forall₂_cons_right_iff, List.forall₂_nil_right_iff, List.mem_singleton,
      Part.label_eq_members, Part.label_eq_punct] at h
    obtain ⟨_, _, ⟨m, ms, rfl⟩, ⟨_, _, ⟨q, rfl⟩, ⟨_, _, ⟨n, ns, rfl⟩, rfl, rfl⟩, rfl⟩, rfl⟩ := h
    refine ⟨_, _, .members m n ms ns q, rfl, fun before behind ↦ ?_⟩
    simp [Tags.reduceMembers, Part.expr, Tree.membersExpr_eq_map, Expr.children, bind, Except.bind,
      tagsOf,
      Reducer.nodeOf_cons _ (Tree.pos_memberExpr reg m)]

/-- The rule of objects takes members between braces. -/
theorem folds_object :
    Folds reg ⟨name, [symbol "\x7b", .tag membersName, symbol "\x7d"], (tagsOf reg).reduceObject⟩
      [[.punct .openBrace], [.members], [.punct .closeBrace]] where
  pattern := rfl
  reduce := by
    intro span h
    simp only [List.forall₂_cons_right_iff, List.forall₂_nil_right_iff, List.mem_singleton,
      Part.label_eq_members, Part.label_eq_punct] at h
    obtain ⟨_, _, ⟨p, rfl⟩, ⟨_, _, ⟨m, ms, rfl⟩, ⟨_, _, ⟨q, rfl⟩, rfl, rfl⟩, rfl⟩, rfl⟩ := h
    refine ⟨_, _, .object p q m ms, rfl, fun before behind ↦ ?_⟩
    simp [Tags.reduceObject, Part.expr, Tree.expr, Tree.pos, Tree.membersExpr, Expr.children, bind,
      Except.bind, tagsOf,
      Reducer.nodeOf_cons _ (Tree.pos_memberExpr reg m)]

/-- The rule of first elements takes a value behind an opening bracket. -/
theorem folds_first :
    Folds reg ⟨name, [symbol "[", anyValue], (tagsOf reg).reduceFirstElement⟩
      [[.punct .openBracket], Label.values] where
  pattern := rfl
  reduce := by
    intro span h
    simp only [List.forall₂_cons_right_iff, List.forall₂_nil_right_iff, List.mem_singleton,
      Part.label_mem_values, Part.label_eq_punct] at h
    obtain ⟨_, _, ⟨p, rfl⟩, ⟨_, _, ⟨v, rfl⟩, rfl, rfl⟩, rfl⟩ := h
    refine ⟨_, _, .first p v, rfl, fun before behind ↦ ?_⟩
    simp [Tags.reduceFirstElement, Part.expr, Tree.itemsExpr, tagsOf,
      Reducer.nodeOf_cons _ (Tree.pos_expr reg v)]

/-- The rule of further elements takes elements, a comma and a value. -/
theorem folds_next :
    Folds reg ⟨name, [.tag elementsName, symbol ",", anyValue], (tagsOf reg).reduceNextElement⟩
      [[.elements], [.punct .comma], Label.values] where
  pattern := rfl
  reduce := by
    intro span h
    simp only [List.forall₂_cons_right_iff, List.forall₂_nil_right_iff, List.mem_singleton,
      Part.label_eq_elements, Part.label_mem_values, Part.label_eq_punct] at h
    obtain ⟨_, _, ⟨p, v, vs, rfl⟩, ⟨_, _, ⟨q, rfl⟩, ⟨_, _, ⟨w, rfl⟩, rfl, rfl⟩, rfl⟩, rfl⟩ := h
    refine ⟨_, _, .next p q v w vs, rfl, fun before behind ↦ ?_⟩
    simp [Tags.reduceNextElement, Reducer.append, Part.expr, Tree.itemsExpr_eq_map, Expr.children,
      bind, Except.bind, pure, Except.pure, tagsOf,
      Reducer.nodeOf_cons _ (Tree.pos_expr reg v)]

/-- The rule of arrays takes elements before a closing bracket. -/
theorem folds_array :
    Folds reg ⟨name, [.tag elementsName, symbol "]"], (tagsOf reg).reduceArray⟩
      [[.elements], [.punct .closeBracket]] where
  pattern := rfl
  reduce := by
    intro span h
    simp only [List.forall₂_cons_right_iff, List.forall₂_nil_right_iff, List.mem_singleton,
      Part.label_eq_elements, Part.label_eq_punct] at h
    obtain ⟨_, _, ⟨p, v, vs, rfl⟩, ⟨_, _, ⟨q, rfl⟩, rfl, rfl⟩, rfl⟩ := h
    refine ⟨_, _, .array p q v vs, rfl, fun before behind ↦ ?_⟩
    simp [Tags.reduceArray, Part.expr, Tree.expr, Tree.pos, Tree.firstPos, Tree.itemsExpr,
      Expr.children, bind, Except.bind, tagsOf,
      Reducer.nodeOf_cons _ (Tree.pos_expr reg v)]

/-- A rule that leaves a node without children in the place of two marks takes these marks, if they
stand for a value with that node. -/
theorem folds_empty {pattern : List Matcher} {opening closing : Punct} {t : Tag}
    {empty : Pos → Tree}
    (hpattern : pattern = [[Label.punct opening], [.punct closing]].map Label.matcher)
    (hfold : ∀ p q, Fold [.punct opening p, .punct closing q] (.value (empty p)))
    (hexpr : ∀ p, (empty p).expr reg = .node t p []) :
    Folds reg ⟨name, pattern, Reducer.empty 0 t⟩ [[.punct opening], [.punct closing]] where
  pattern := hpattern
  reduce := by
    intro span h
    simp only [List.forall₂_cons_right_iff, List.forall₂_nil_right_iff, List.mem_singleton,
      Part.label_eq_punct] at h
    obtain ⟨_, _, ⟨p, rfl⟩, ⟨_, _, ⟨q, rfl⟩, rfl, rfl⟩, rfl⟩ := h
    refine ⟨_, _, hfold p q, rfl, fun before behind ↦ ?_⟩
    simp [Reducer.empty, Reducer.posAt, Part.expr, hexpr, Fault.ofMisuse, Except.mapError, Expr.pos,
      bind, Except.bind, pure, Except.pure]

end Rules

variable {reg : Registry}

/-- The shapes of the rules, in the order of the table. -/
def shapes : List (List (List Label)) :=
  [[[.integer], [.punct .point], [.integer]],
    [[.string], [.punct .colon]],
    [[.pairKey], Label.values],
    [[.pair]],
    [[.members], [.punct .comma], [.members]],
    [[.punct .openBrace], [.members], [.punct .closeBrace]],
    [[.punct .openBracket], Label.values],
    [[.elements], [.punct .comma], Label.values],
    [[.elements], [.punct .closeBracket]],
    [[.punct .openBracket], [.punct .closeBracket]],
    [[.punct .openBrace], [.punct .closeBrace]]]

/-- The patterns of the table are those of the shapes. -/
theorem map_pattern_rules (t : Tags) :
    (rules t).map Rule.pattern = shapes.map (List.map Label.matcher) := rfl

/-- Every rule of the table matches spans of a shape and folds them. -/
theorem rules_fold (reg : Registry) : ∀ r ∈ rules (tagsOf reg), ∃ shape, Folds reg r shape := by
  intro r hr
  simp only [rules, List.mem_cons, List.not_mem_nil, or_false] at hr
  rcases hr with rfl | rfl | rfl | rfl | rfl | rfl | rfl | rfl | rfl | rfl | rfl
  · exact ⟨_, folds_decimal _⟩
  · exact ⟨_, folds_key _⟩
  · exact ⟨_, folds_pair _⟩
  · exact ⟨_, folds_member _⟩
  · exact ⟨_, folds_members _⟩
  · exact ⟨_, folds_object _⟩
  · exact ⟨_, folds_first _⟩
  · exact ⟨_, folds_next _⟩
  · exact ⟨_, folds_array _⟩
  · exact ⟨_, folds_empty _ rfl .emptyArray fun _ ↦ rfl⟩
  · exact ⟨_, folds_empty _ rfl .emptyObject fun _ ↦ rfl⟩

/-- What can be folded has the shape of a rule. -/
theorem Fold.shaped {span : List Part} {result : Part} (h : Fold span result) :
    ∃ shape ∈ shapes, Shaped span shape := by
  have hvalue (v : Tree) : (Part.value v).label ∈ Label.values := Part.label_mem_values.mpr ⟨v, rfl⟩
  cases h with
  | decimal => exact ⟨_, List.mem_of_getElem? (i := 0) rfl, by simp [Part.label, Tree.label]⟩
  | key => exact ⟨_, List.mem_of_getElem? (i := 1) rfl, by simp [Part.label, Tree.label]⟩
  | pair p s v =>
      exact ⟨_, List.mem_of_getElem? (i := 2) rfl,
        .cons (by simp [Part.label]) (.cons (hvalue v) .nil)⟩
  | member => exact ⟨_, List.mem_of_getElem? (i := 3) rfl, by simp [Part.label]⟩
  | members => exact ⟨_, List.mem_of_getElem? (i := 4) rfl, by simp [Part.label]⟩
  | object => exact ⟨_, List.mem_of_getElem? (i := 5) rfl, by simp [Part.label]⟩
  | first p v =>
      exact ⟨_, List.mem_of_getElem? (i := 6) rfl,
        .cons (by simp [Part.label]) (.cons (hvalue v) .nil)⟩
  | next p q v w vs =>
      exact ⟨_, List.mem_of_getElem? (i := 7) rfl, .cons (by simp [Part.label])
        (.cons (by simp [Part.label]) (.cons (hvalue w) .nil))⟩
  | array => exact ⟨_, List.mem_of_getElem? (i := 8) rfl, by simp [Part.label]⟩
  | emptyArray => exact ⟨_, List.mem_of_getElem? (i := 9) rfl, by simp [Part.label]⟩
  | emptyObject => exact ⟨_, List.mem_of_getElem? (i := 10) rfl, by simp [Part.label]⟩

/-- A fold takes at least one part. -/
theorem Fold.length_pos {span : List Part} {result : Part} (h : Fold span result) :
    0 < span.length := by
  cases h <;> simp

/-- Two integers stand around a point somewhere. -/
def Pointed (parts : List Part) : Prop :=
  ∃ before p m q r n behind, parts =
    before ++ ([.value (.integer p m), .punct .point q, .value (.integer r n)] ++ behind)

/-- Nothing can be folded anywhere. -/
def Stuck (parts : List Part) : Prop :=
  ∀ before span behind result, parts = before ++ (span ++ behind) → ¬ Fold span result

/-- In nothing, nothing can be folded. -/
theorem stuck_nil : Stuck [] := by
  intro before span behind result h hfold
  have hspan : span = [] := (List.append_eq_nil_iff.mp (List.append_eq_nil_iff.mp h.symm).2).1
  have hlength := hfold.length_pos
  rw [hspan] at hlength
  cases hlength

/-- One step of the folding: integers are joined at their points before anything else is folded. -/
inductive Step : List Part → List Part → Prop where
  | point (before behind : List Part) (p q r : Pos) (m n : Numeral) :
      Step (before ++ ([.value (.integer p m), .punct .point q, .value (.integer r n)] ++ behind))
        (before ++ .value (.decimal p m n) :: behind)
  | fold (before behind : List Part) {span : List Part} {result : Part} :
      Fold span result → ¬ Pointed (before ++ (span ++ behind)) →
      Step (before ++ (span ++ behind)) (before ++ result :: behind)

/-- A step folds one span. -/
theorem Step.exists_fold {parts folded : List Part} (h : Step parts folded) :
    ∃ before span behind result, parts = before ++ (span ++ behind) ∧
      folded = before ++ result :: behind ∧ Fold span result := by
  cases h with
  | point before behind p q r m n =>
      exact ⟨before, _, behind, _, rfl, rfl, .decimal p q r m n⟩
  | fold before behind hfold _ => exact ⟨before, _, behind, _, rfl, rfl, hfold⟩

/-- Where no rule occurs, nothing can be folded. -/
theorem stuck_of_not_occurs {parts : List Part}
    (h : ∀ r ∈ rules (tagsOf reg), ¬ Matcher.Occurs r.pattern (parts.map (Part.expr reg))) :
    Stuck parts := by
  rintro before span behind result rfl hfold
  obtain ⟨shape, hshape, hspan⟩ := hfold.shaped
  have hpattern : shape.map Label.matcher ∈ (rules (tagsOf reg)).map Rule.pattern := by
    rw [map_pattern_rules]
    exact List.mem_map_of_mem hshape
  obtain ⟨r, hr, hrule⟩ := List.mem_map.mp hpattern
  refine h r hr ⟨before.map (Part.expr reg), (span ++ behind).map (Part.expr reg), by simp, ?_⟩
  rw [hrule]
  exact Part.fits_iff.mpr ⟨span, behind, rfl, hspan⟩

/-- A chosen rule is the one that joins integers, or that rule is an earlier one. -/
theorem shape_of_table {earlier later : List Rule} {r : Rule}
    (h : rules (tagsOf reg) = earlier ++ r :: later) :
    ∃ shape, Folds reg r shape ∧ (shape = [[.integer], [.punct .point], [.integer]] ∨
      ∃ a ∈ earlier, a.pattern =
        [[Label.integer], [.punct .point], [.integer]].map Label.matcher) := by
  cases earlier with
  | nil =>
      have hr : (rules (tagsOf reg)).head? = some r := by rw [h]; rfl
      cases hr
      exact ⟨_, folds_decimal _, .inl rfl⟩
  | cons a earlier =>
      have ha : (rules (tagsOf reg)).head? = some a := by rw [h]; rfl
      cases ha
      obtain ⟨shape, hshape⟩ := rules_fold reg r (by rw [h]; simp)
      exact ⟨shape, hshape, .inr ⟨_, List.mem_cons_self, rfl⟩⟩

/-- One attempt of the engine: where it finds no match, nothing can be folded, and otherwise it
makes one step. -/
theorem attempt_cases {p : Parser} (hp : p.Runs reg (rules (tagsOf reg))) (hreg : Part.Known reg)
    (report : Bool) (source : Text) (parts : List Part) :
    ((p.attempt reg report source (parts.map (Part.expr reg))).result = .ok none ∧ Stuck parts) ∨
      ∃ folded, (p.attempt reg report source (parts.map (Part.expr reg))).result =
        .ok (some (folded.map (Part.expr reg))) ∧ Step parts folded := by
  have howned := Part.owned_map_expr hreg parts
  rcases Parser.firstMatch_cases hp.nodup hp.table howned with
    ⟨hnone, hall⟩ | ⟨c, earlier, r, before, behind, hsome, hc⟩
  · exact .inl ⟨Parser.attempt_of_no_match hnone report, stuck_of_not_occurs hall⟩
  · obtain ⟨later, htable⟩ := hc.table
    obtain ⟨shape, hfolds, hkind⟩ := shape_of_table htable
    obtain ⟨start, rest, rfl, rfl, rfl⟩ := List.map_eq_append_iff.mp hc.split
    obtain ⟨span, tail, rfl, hspan⟩ := Part.fits_iff.mp (hfolds.pattern ▸ hc.fits)
    obtain ⟨result, reduce, hfold, hreduce, hresult⟩ := hfolds.reduce hspan
    obtain rfl : reduce = c.rule.reduce := Option.some.inj (hreduce.symm.trans hc.rule.reduce)
    have hlength : r.pattern.length = (span.map (Part.expr reg)).length := by
      rw [hfolds.pattern, List.length_map, List.length_map, hspan.length_eq]
    have hne : r.pattern ≠ [] := by
      rw [← List.length_pos_iff, hlength, List.length_map]
      exact hfold.length_pos
    refine .inr ⟨start ++ result :: tail, ?_, ?_⟩
    · rw [Parser.attempt_of_chosen howned hsome hc hne (Part.owned_expr hreg result)
        (by simpa using hresult (start.map (Part.expr reg)) (tail.map (Part.expr reg))) report]
      simp [hlength]
    · rcases hkind with rfl | ⟨a, ha, hpattern⟩
      · obtain ⟨p, q, r, m, n, rfl⟩ := shaped_point hspan
        cases hfold
        exact .point start tail p q r m n
      · -- The rule of points is tried first, so no other rule is chosen while a point is left.
        refine .fold start tail hfold fun hpointed ↦ hc.first a ha ?_
        obtain ⟨left, p, m, q, r, n, right, hparts⟩ := hpointed
        refine ⟨left.map (Part.expr reg), _, by rw [hparts, List.map_append], ?_⟩
        rw [hpattern]
        exact Part.fits_iff.mpr ⟨_, right, rfl, by simp [Part.label, Tree.label]⟩

/-- How many more folds a part can take part in, at most: members cannot be folded alone. -/
def Part.weight : Part → Nat
  | members _ _ => 1
  | _ => 2

/-- The weight of a sequence of parts. -/
def weight (parts : List Part) : Nat :=
  (parts.map Part.weight).sum

/-- A fold lowers the weight. -/
theorem Fold.weight_lt {span : List Part} {result : Part} (h : Fold span result) :
    result.weight < weight span := by
  cases h <;> simp [weight, Part.weight]

/-- A step lowers the weight. -/
theorem Step.weight_lt {parts folded : List Part} (h : Step parts folded) :
    weight folded < weight parts := by
  obtain ⟨before, span, behind, result, rfl, rfl, hfold⟩ := h.exists_fold
  have := hfold.weight_lt
  simp only [weight, List.map_append, List.map_cons, List.sum_append, List.sum_cons] at this ⊢
  omega

/-- A step leaves at least one part. -/
theorem Step.ne_nil {parts folded : List Part} (h : Step parts folded) : folded ≠ [] := by
  cases h <;> simp

/-- The weight of a sequence is at most twice its length. -/
theorem weight_le (parts : List Part) : weight parts ≤ 2 * parts.length := by
  induction parts with
  | nil => simp [weight]
  | cons p parts ih =>
      have hp : p.weight ≤ 2 := by cases p <;> simp [Part.weight]
      simp only [weight, List.map_cons, List.sum_cons, List.length_cons] at ih ⊢
      omega

/-- A sequence of two or more parts has a weight. -/
theorem weight_pos {parts : List Part} (h : 2 ≤ parts.length) : 0 < weight parts := by
  match parts, h with
  | p :: _ :: _, _ =>
      have hp : 0 < p.weight := by cases p <;> simp [Part.weight]
      simp only [weight, List.map_cons, List.sum_cons]
      omega

end Tagfold.Json
