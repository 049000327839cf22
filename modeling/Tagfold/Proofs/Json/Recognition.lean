import Tagfold.Proofs.Json.Language
import Tagfold.Proofs.Json.Stuck

/-!
# Recognizing JSON

Tokens of JSON texts are parsed as an expression with the tag of a value exactly if the grammar
derives them, and then as the tree of that derivation: `parse_isValue_iff_derives`. One direction is
an invariant of the tokens that each part covers, `Step.spans`; the other one is the invariant of
the reading machine together with `read_of_stuck`. `parse_leaves` says what the whole folding of any
tokens of JSON texts comes to.
-/

namespace Tagfold.Json

open Reading

/-- The tokens are those that a part stands for. -/
def Covers (ts : List Token) : Part → Prop
  | .punct p pos => ∃ t, ts = [t] ∧ t.pos = pos ∧ IsPunct p t
  | .value v => Derives ts (.value v)
  | .key pos s => ∃ t c, ts = [t, c] ∧ t.pos = pos ∧ IsString s t ∧ IsPunct .colon c
  | .pair m => Derives ts (.pair m)
  | .members m ms => Derives ts (.members (m :: ms))
  | .elements pos v vs =>
      ∃ o us, ts = o :: us ∧ o.pos = pos ∧ IsPunct .openBracket o ∧ Derives us (.items (v :: vs))

/-- The tokens that a sequence of parts stands for. -/
inductive Spans : List Token → List Part → Prop where
  | nil : Spans [] []
  | cons {ts us : List Token} {p : Part} {ps : List Part} :
      Covers ts p → Spans us ps → Spans (ts ++ us) (p :: ps)

/-- The tokens of two sequences of parts are those of the first one before those of the second. -/
theorem spans_append_iff {ts : List Token} {ps qs : List Part} :
    Spans ts (ps ++ qs) ↔ ∃ us ws, ts = us ++ ws ∧ Spans us ps ∧ Spans ws qs := by
  induction ps generalizing ts with
  | nil =>
      constructor
      · intro h
        exact ⟨[], ts, rfl, .nil, h⟩
      · rintro ⟨us, ws, rfl, hus, hws⟩
        cases hus
        exact hws
  | cons p ps ih =>
      constructor
      · intro h
        rw [List.cons_append] at h
        cases h with
        | cons hp hrest =>
            obtain ⟨us, ws, rfl, hus, hws⟩ := ih.mp hrest
            exact ⟨_, ws, (List.append_assoc _ us ws).symm, .cons hp hus, hws⟩
      · rintro ⟨us, ws, rfl, hus, hws⟩
        cases hus with
        | cons hp hrest =>
            rw [List.append_assoc, List.cons_append]
            exact .cons hp (ih.mpr ⟨_, ws, rfl, hrest, hws⟩)

/-- The tokens of a sequence of one part are those of the part. -/
theorem Spans.covers {ts : List Token} {p : Part} (h : Spans ts [p]) : Covers ts p := by
  obtain _ | ⟨hp, ⟨⟩⟩ := h
  rwa [List.append_nil]

/-- A folded part stands for the tokens of its span. -/
theorem Fold.covers {ts : List Token} {span : List Part} {result : Part} (hfold : Fold span result)
    (h : Spans ts span) : Covers ts result := by
  cases hfold with
  | decimal p q r m n =>
      obtain _ | ⟨hm, _ | ⟨⟨t, rfl, rfl, hq⟩, _ | ⟨hn, ⟨⟩⟩⟩⟩ := h
      cases hm with
      | integer hm =>
          cases hn with
          | integer hn => exact .decimal hm hq hn
  | key p q k raw =>
      obtain _ | ⟨hk, _ | ⟨⟨c, rfl, rfl, hc⟩, ⟨⟩⟩⟩ := h
      cases hk with
      | string hk => exact ⟨_, c, rfl, rfl, hk, hc⟩
  | pair p k v =>
      obtain _ | ⟨⟨t, c, rfl, rfl, hk, hc⟩, _ | ⟨hv, ⟨⟩⟩⟩ := h
      rw [List.append_nil]
      exact .pair hk hc hv
  | member m =>
      obtain _ | ⟨hm, ⟨⟩⟩ := h
      rw [List.append_nil]
      exact .lastMember hm
  | members m n ms ns q =>
      obtain _ | ⟨hms, _ | ⟨⟨c, rfl, rfl, hc⟩, _ | ⟨hns, ⟨⟩⟩⟩⟩ := h
      rw [List.append_nil]
      exact Derives.append_members hms hc hns
  | object p q m ms =>
      obtain _ | ⟨⟨o, rfl, rfl, ho⟩, _ | ⟨hms, _ | ⟨⟨c, rfl, rfl, hc⟩, ⟨⟩⟩⟩⟩ := h
      exact .object ho hms hc
  | first p v =>
      obtain _ | ⟨⟨o, rfl, rfl, ho⟩, _ | ⟨hv, ⟨⟩⟩⟩ := h
      rw [List.append_nil]
      exact ⟨o, _, rfl, rfl, ho, .lastItem hv⟩
  | next p q v w vs =>
      obtain _ | ⟨⟨o, us, rfl, rfl, ho, hvs⟩, _ | ⟨⟨c, rfl, rfl, hc⟩, _ | ⟨hw, ⟨⟩⟩⟩⟩ := h
      rw [List.append_nil]
      exact ⟨o, _, rfl, rfl, ho, hvs.append_item hc hw⟩
  | array p q v vs =>
      obtain _ | ⟨⟨o, us, rfl, rfl, ho, hvs⟩, _ | ⟨⟨c, rfl, rfl, hc⟩, ⟨⟩⟩⟩ := h
      exact .array ho hvs hc
  | emptyArray p q =>
      obtain _ | ⟨⟨o, rfl, rfl, ho⟩, _ | ⟨⟨c, rfl, rfl, hc⟩, ⟨⟩⟩⟩ := h
      exact .emptyArray ho hc
  | emptyObject p q =>
      obtain _ | ⟨⟨o, rfl, rfl, ho⟩, _ | ⟨⟨c, rfl, rfl, hc⟩, ⟨⟩⟩⟩ := h
      exact .emptyObject ho hc

/-- A step keeps the tokens that the parts stand for. -/
theorem Step.spans {ts : List Token} {parts folded : List Part} (hstep : Step parts folded)
    (h : Spans ts parts) : Spans ts folded := by
  obtain ⟨before, span, behind, result, rfl, rfl, hfold⟩ := hstep.exists_fold
  obtain ⟨us, ws, rfl, hbefore, hrest⟩ := spans_append_iff.mp h
  obtain ⟨xs, ys, rfl, hspan, hbehind⟩ := spans_append_iff.mp hrest
  exact spans_append_iff.mpr ⟨us, _, rfl, hbefore, .cons (hfold.covers hspan) hbehind⟩

/-- A leaf stands for its token. -/
theorem Leaf.covers {t : Token} {p : Part} (h : Leaf t p) : Covers [t] p := by
  cases h with
  | punct hp => exact ⟨t, rfl, rfl, hp⟩
  | constant hc => exact .constant hc
  | string hs => exact .string hs
  | numeral hn => exact .integer hn

/-- Leaves stand for their tokens. -/
theorem Leaves.spans {ts : List Token} {parts : List Part} (h : Leaves ts parts) :
    Spans ts parts := by
  induction h with
  | nil => exact .nil
  | cons hleaf _ ih => exact .cons hleaf.covers ih

/-- Tokens of JSON texts are leaves. -/
theorem exists_leaves {ts : List Token} (h : ∀ t ∈ ts, Lexeme t) : ∃ parts, Leaves ts parts := by
  induction ts with
  | nil => exact ⟨[], .nil⟩
  | cons t ts ih =>
      obtain ⟨parts, hparts⟩ := ih fun u hu ↦ h u (List.mem_cons_of_mem _ hu)
      obtain ⟨p, hp⟩ : ∃ p, Leaf t p := by
        cases h t List.mem_cons_self with
        | punct p hp => exact ⟨_, .punct hp⟩
        | constant c hc => exact ⟨_, .constant hc⟩
        | string s hs => exact ⟨_, .string hs⟩
        | numeral n hn => exact ⟨_, .numeral hn⟩
      exact ⟨p :: parts, .cons hp hparts⟩

/-- A numeral becomes a leaf with its value and its digits. -/
theorem Language.Built.classifyToken_numeral {l : Language} (hl : l.Built) {n : Numeral}
    {t : Token} (ht : IsNumeral n t) (reg : Registry) :
    l.grammar.parser.classifyToken reg t =
      (.ok ((Tree.integer t.pos n).expr l.registry), reg) := by
  obtain ⟨hkind, htext⟩ := ht
  simp only [Parser.classifyToken, hkind, Parser.wordLeaf, hl.isIdentifier, htext, n.isNumeral,
    n.integer_text, hl.integerTag, Bool.false_eq_true, if_false, if_true, Tree.expr]

/-- A token of a JSON text is classified as its leaf, and the registry is left as it is. -/
theorem classifyToken_leaf {l : Language} (hl : l.Built) {t : Token} {p : Part} (h : Leaf t p) :
    l.grammar.parser.classifyToken l.registry t = (.ok (p.expr l.registry), l.registry) := by
  cases h with
  | @punct q hq =>
      have hmem : symbolTagName q.text ∈ l.registry.names := hl.known (.punct q)
      simp only [Parser.classifyToken, hq.1, hq.2, Registry.intern_of_mem hmem, Part.expr]
  | @constant c hc =>
      have hmem : keywordTagName c.text ∈ l.registry.names := hl.known (.constant c)
      simp only [Parser.classifyToken, hc.1, hc.2, Registry.intern_of_mem hmem, Part.expr,
        Tree.expr]
  | string hs =>
      simp only [Parser.classifyToken, hs.1, hl.stringValue, unquote, hs.2, hl.stringTag, Part.expr,
        Tree.expr]
  | numeral hn => exact hl.classifyToken_numeral hn l.registry

/-- Tokens of a JSON text are classified as their leaves, and the registry is left as it is. -/
theorem classify_leaves {l : Language} (hl : l.Built) {ts : List Token} {parts : List Part}
    (h : Leaves ts parts) :
    l.grammar.parser.classify l.registry ts =
      (.ok (parts.map (Part.expr l.registry)), l.registry) := by
  suffices hs : ∀ made, l.grammar.parser.classifyOnto made l.registry ts =
      (.ok (made.reverse ++ parts.map (Part.expr l.registry)), l.registry) from hs []
  induction h with
  | nil =>
      intro made
      rw [Parser.classifyOnto, List.map_nil, List.append_nil]
  | @cons t p ts parts hleaf _ ih =>
      intro made
      rw [Parser.classifyOnto, classifyToken_leaf hl hleaf]
      dsimp only
      rw [ih, List.reverse_cons, List.append_assoc, List.map_cons, List.singleton_append]

/-- A single part is read as a value exactly if it is that value. -/
theorem read_singleton_iff {p : Part} {v : Tree} : read [p] = some v ↔ p = .value v := by
  constructor
  · intro h
    cases p with
    | value w => cases w <;> cases h <;> rfl
    | punct c pos => cases c <;> cases h
    | _ => cases h
  · rintro rfl
    cases v <;> rfl

/-- The machine reads two sequences alike, wherever it starts and whatever is closed behind them. -/
def ReadAlike (parts folded : List Part) : Prop :=
  ∀ (state : State) (behind : List Part), Closers behind →
    state.read (parts ++ behind) = state.read (folded ++ behind)

/-- What is read alike is read as the same value. -/
theorem ReadAlike.read_eq {parts folded : List Part} (h : ReadAlike parts folded) :
    read parts = read folded := by
  have hread := h (.slot (.value [])) [] nofun
  rwa [List.append_nil, List.append_nil] at hread

/-- How a folding ends that is left with none or several parts. -/
def haltOf (reg : Registry) (source : Text) : List Part → Halt
  | [] => .failed (.emptyInput source)
  | rest => (Parser.stall source (rest.map (Part.expr reg))).result

/-- What the folding of leaves comes to: one part, or an error at a stuck sequence of none or
several parts. What remains stands for all tokens and is read as they are. -/
theorem parse_leaves {l : Language} (hl : l.Built) {ts : List Token} {parts : List Part}
    (h : Leaves ts parts) :
    (∃ p, (l.grammar.parser.parse l.registry ts).1.result = .ok (p.expr l.registry) ∧ Covers ts p ∧
        ReadAlike parts [p]) ∨
      ∃ rest, (l.grammar.parser.parse l.registry ts).1.result =
          .error (haltOf l.registry (Parser.sourceName ts) rest) ∧
        rest.length ≠ 1 ∧ Stuck rest ∧ Spans ts rest ∧ ReadAlike parts rest := by
  have hparse : (l.grammar.parser.parse l.registry ts).1 =
      l.grammar.parser.reduceIn l.registry (Parser.sourceName ts)
        (parts.map (Part.expr l.registry)) := by
    rw [Parser.parse, classify_leaves hl h]
  rw [hparse, Parser.reduceIn, hl.budget, List.length_map]
  by_cases hne : parts = []
  · subst hne
    exact .inr ⟨[], rfl, nofun, stuck_nil, h.spans, fun _ _ _ ↦ rfl⟩
  · -- Both invariants go through one run: the tokens that the parts stand for, and what is read.
    refine Parser.reduceLoop_ends (List.map (Part.expr l.registry))
      (fun s ↦ Spans ts s ∧ ReadAlike parts s) weight
      (fun r ↦ (∃ p : Part, r = .ok (p.expr l.registry) ∧ Covers ts p ∧ ReadAlike parts [p]) ∨
        ∃ rest, r = .error (haltOf l.registry (Parser.sourceName ts) rest) ∧ rest.length ≠ 1 ∧
          Stuck rest ∧ Spans ts rest ∧ ReadAlike parts rest)
      ?_ ?_ (fun s hs ↦ weight_pos (by simpa using hs)) _ [] (by simpa using hne)
      ⟨h.spans, fun _ _ _ ↦ rfl⟩ (weight_le parts)
    · rintro s e ⟨hspans, hread⟩ hview
      obtain ⟨p, rfl, rfl⟩ := List.map_eq_singleton_iff.mp hview
      exact .inl ⟨p, rfl, hspans.covers, hread⟩
    · rintro s ⟨hspans, hread⟩ hlength
      rcases attempt_cases hl.runs hl.known l.grammar.parser.reportAmbiguity
        (Parser.sourceName ts) s with ⟨hnone, hstuck⟩ | ⟨folded, hsome, hstep⟩
      · rw [List.length_map] at hlength
        refine .inl ⟨hnone, .inr ⟨s, ?_, by omega, hstuck, hspans, hread⟩⟩
        obtain ⟨p, rest, rfl⟩ := List.exists_cons_of_length_pos (by omega : 0 < s.length)
        rfl
      · refine .inr ⟨folded, hsome, by simpa using hstep.ne_nil, ⟨hstep.spans hspans, ?_⟩,
          hstep.weight_lt⟩
        intro state behind hbehind
        exact (hread state behind hbehind).trans (hstep.read_eq hbehind state)

/-- The expression has the tag of a complete value. -/
def IsValue (reg : Registry) (e : Expr) : Prop :=
  ∃ t ∈ valueNames.map reg.lookup, e.tag = .ok t

/-- The expression of a part has the tag of a complete value exactly if the part is a value. -/
theorem isValue_expr_iff {reg : Registry} {p : Part} :
    IsValue reg (p.expr reg) ↔ ∃ v, p = .value v := by
  have hnames : valueNames = Label.values.map Label.name := rfl
  rw [← Part.label_mem_values, IsValue, Part.tag_expr, hnames]
  simp [Registry.lookup, Label.name_injective.eq_iff]

/-- The expression of a value has the tag of one. -/
theorem Tree.isValue_expr (reg : Registry) (v : Tree) : IsValue reg (v.expr reg) :=
  isValue_expr_iff.mpr ⟨v, rfl⟩

/-- The tag names of a list of expressions are those of its members. -/
theorem mem_allNamesOf_iff {es : List Expr} {name : Text} :
    name ∈ Expr.allNamesOf es ↔ ∃ e ∈ es, name ∈ e.allNames := by
  induction es with
  | nil => simp [Expr.allNamesOf]
  | cons e es ih => simp [Expr.allNamesOf, ih]

/-- The tags in the expression of a value are none of unfinished containers. -/
theorem Tree.exists_label (reg : Registry) (v : Tree) :
    ∀ name ∈ (v.expr reg).allNames,
      ∃ label : Label, label ≠ .members ∧ label ≠ .elements ∧ name = label.name := by
  induction v using Tree.induct with
  | string p s raw =>
      intro name hname
      exact ⟨.string, Label.noConfusion, Label.noConfusion, List.mem_singleton.mp hname⟩
  | integer p n =>
      intro name hname
      exact ⟨.integer, Label.noConfusion, Label.noConfusion, List.mem_singleton.mp hname⟩
  | decimal p a b =>
      intro name hname
      exact ⟨.decimal, Label.noConfusion, Label.noConfusion, List.mem_singleton.mp hname⟩
  | constant p c =>
      intro name hname
      exact ⟨.constant c, Label.noConfusion, Label.noConfusion, List.mem_singleton.mp hname⟩
  | object p ms ih =>
      intro name hname
      rw [Tree.expr, Expr.allNames, List.mem_cons, mem_allNamesOf_iff, membersExpr_eq_map] at hname
      rcases hname with rfl | ⟨e, he, hname⟩
      · exact ⟨.object, Label.noConfusion, Label.noConfusion, rfl⟩
      · obtain ⟨⟨q, k, w⟩, hm, rfl⟩ := List.mem_map.mp he
        rw [memberExpr, Expr.allNames, List.mem_cons, mem_allNamesOf_iff] at hname
        rcases hname with rfl | ⟨e, he, hname⟩
        · exact ⟨.pair, Label.noConfusion, Label.noConfusion, rfl⟩
        · rcases List.mem_cons.mp he with rfl | he
          · exact ⟨.pairKey, Label.noConfusion, Label.noConfusion, List.mem_singleton.mp hname⟩
          · rw [List.mem_singleton.mp he] at hname
            exact ih _ hm name hname
  | array p vs ih =>
      intro name hname
      rw [Tree.expr, Expr.allNames, List.mem_cons, mem_allNamesOf_iff, itemsExpr_eq_map] at hname
      rcases hname with rfl | ⟨e, he, hname⟩
      · exact ⟨.array, Label.noConfusion, Label.noConfusion, rfl⟩
      · obtain ⟨w, hw, rfl⟩ := List.mem_map.mp he
        exact ih w hw name hname

/-- No unfinished container occurs anywhere in the expression of a value. -/
theorem Tree.ne_of_mem_allNames {reg : Registry} {v : Tree} {name : Text}
    (h : name ∈ (v.expr reg).allNames) : name ≠ membersName ∧ name ≠ elementsName := by
  obtain ⟨label, hmembers, helements, rfl⟩ := v.exists_label reg name h
  exact ⟨fun heq ↦ hmembers (Label.name_injective heq),
    fun heq ↦ helements (Label.name_injective heq)⟩

section

variable {l : Language} {ts : List Token} {v : Tree}

/-- Derivable tokens are parsed as the tree of their derivation. -/
theorem parse_of_derives (hl : l.Built) (h : Derives ts (.value v)) :
    (l.grammar.parser.parse l.registry ts).1.result = .ok (v.expr l.registry) := by
  obtain ⟨parts, hleaves, hread⟩ := h.read
  rcases parse_leaves hl hleaves with
    ⟨p, hok, -, halike⟩ | ⟨rest, -, hlength, hstuck, -, halike⟩
  · rw [halike.read_eq, read_singleton_iff] at hread
    rw [hok, hread]
    rfl
  · rw [halike.read_eq] at hread
    exact absurd (congrArg List.length (read_of_stuck hstuck hread)) hlength

/-- Tokens that are parsed as an expression with the tag of a value are derivable. -/
theorem derives_of_parse (hl : l.Built) (hts : ∀ t ∈ ts, Lexeme t) {e : Expr}
    (h : (l.grammar.parser.parse l.registry ts).1.result = .ok e) (he : IsValue l.registry e) :
    ∃ v, Derives ts (.value v) ∧ e = v.expr l.registry := by
  obtain ⟨parts, hleaves⟩ := exists_leaves hts
  rcases parse_leaves hl hleaves with ⟨p, hok, hcovers, -⟩ | ⟨rest, herror, -⟩
  · rw [h] at hok
    cases hok
    obtain ⟨v, rfl⟩ := isValue_expr_iff.mp he
    exact ⟨v, hcovers, rfl⟩
  · rw [h] at herror
    cases herror

end

/-- Tokens of JSON texts are parsed as an expression with the tag of a value exactly if the grammar
derives them. The expression is then that of the derivation, and neither members nor elements occur
in it. -/
theorem parse_isValue_iff_derives {report : Bool} {l : Language}
    (hl : Language.build report = .ok l) {ts : List Token} (hts : ∀ t ∈ ts, Lexeme t) :
    ((∃ e, (l.grammar.parser.parse l.registry ts).1.result = .ok e ∧ IsValue l.registry e) ↔
        ∃ v, Derives ts (.value v)) ∧
      ∀ v, Derives ts (.value v) →
        (l.grammar.parser.parse l.registry ts).1.result = .ok (v.expr l.registry) ∧
          ∀ name ∈ (v.expr l.registry).allNames, name ≠ membersName ∧ name ≠ elementsName := by
  have hbuilt := Language.built_of_build hl
  refine ⟨⟨?_, ?_⟩, ?_⟩
  · rintro ⟨e, hok, he⟩
    obtain ⟨v, hv, -⟩ := derives_of_parse hbuilt hts hok he
    exact ⟨v, hv⟩
  · rintro ⟨v, hv⟩
    exact ⟨_, parse_of_derives hbuilt hv, v.isValue_expr l.registry⟩
  · intro v hv
    exact ⟨parse_of_derives hbuilt hv, fun _ hname ↦ Tree.ne_of_mem_allNames hname⟩

/-- The tokens of `[1.5,true]` are parsed as a value. -/
theorem parse_isValue_array :
    ∃ l, Language.build true = .ok l ∧
      ∃ e, (l.grammar.parser.parse l.registry
        [⟨.symbol, utf8 "[", utf8 "in", 0, ⟨1, 1⟩⟩, ⟨.word, utf8 "1", utf8 "in", 1, ⟨1, 2⟩⟩,
          ⟨.symbol, utf8 ".", utf8 "in", 2, ⟨1, 3⟩⟩, ⟨.word, utf8 "5", utf8 "in", 3, ⟨1, 4⟩⟩,
          ⟨.symbol, utf8 ",", utf8 "in", 4, ⟨1, 5⟩⟩, ⟨.keyword, utf8 "true", utf8 "in", 5, ⟨1, 6⟩⟩,
          ⟨.symbol, utf8 "]", utf8 "in", 9, ⟨1, 10⟩⟩]).1.result = .ok e ∧ IsValue l.registry e := by
  obtain ⟨l, hl⟩ := Language.exists_build true
  let one : Numeral := ⟨utf8 "1", rfl, by decide +kernel⟩
  let five : Numeral := ⟨utf8 "5", rfl, by decide +kernel⟩
  refine ⟨l, hl, (parse_isValue_iff_derives hl ?_).1.mpr ?_⟩
  · intro t ht
    simp only [List.mem_cons, List.not_mem_nil, or_false] at ht
    rcases ht with rfl | rfl | rfl | rfl | rfl | rfl | rfl
    · exact .punct .openBracket ⟨rfl, rfl⟩
    · exact .numeral one ⟨rfl, rfl⟩
    · exact .punct .point ⟨rfl, rfl⟩
    · exact .numeral five ⟨rfl, rfl⟩
    · exact .punct .comma ⟨rfl, rfl⟩
    · exact .constant .yes ⟨rfl, rfl⟩
    · exact .punct .closeBracket ⟨rfl, rfl⟩
  · exact ⟨_, .array ⟨rfl, rfl⟩ (.nextItem (.decimal (m := one) (n := five) ⟨rfl, rfl⟩ ⟨rfl, rfl⟩
      ⟨rfl, rfl⟩) ⟨rfl, rfl⟩ (.lastItem (.constant (c := .yes) ⟨rfl, rfl⟩))) ⟨rfl, rfl⟩⟩

end Tagfold.Json
