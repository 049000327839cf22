import Tagfold.Proofs.Grammar.Closure
import Tagfold.Proofs.Json.Language
import Tagfold.Proofs.Json.Recognition
import Tagfold.Proofs.Reduction.Equivariance

/-!
# The layout of a JSON text

No rule of JSON looks at positions, so moving the tokens of a text moves its tree or its error:
`Language.parse_layout`, to be read first. Two consequences are part of it. A tree has no positions
but those of the tokens, because a tree whose tokens stay in place stays in place. And texts with
the same lexemes, however they are laid out, are decoded and printed alike, because all of them
become the same text when their tokens are moved to one place.
-/

namespace Tagfold

/-- Computations with the same result go on to the same result if every continuation does. -/
theorem Except.toOption_bind_congr {ε α β : Type} {x y : Except ε α} {f g : α → Except ε β}
    (h : x.toOption = y.toOption) (hnext : ∀ a, (f a).toOption = (g a).toOption) :
    (x >>= f).toOption = (y >>= g).toOption := by
  cases x with
  | error e =>
      cases y with
      | error e' => rfl
      | ok b => cases h
  | ok a =>
      cases y with
      | error e' => cases h
      | ok b =>
          cases h
          exact hnext a

/-- The result of a computation is mapped with it. -/
theorem Except.toOption_map {ε α β : Type} (f : α → β) (x : Except ε α) :
    (x.map f).toOption = x.toOption.map f := by
  cases x <;> rfl

namespace Reducer

variable {m : Relocation} (seq : List Expr) (i : Nat)

/-- The expression at a place is moved. -/
theorem exprAt_map_relocate (k : Int) :
    exprAt (seq.map (Expr.relocate m)) i k = (exprAt seq i k).map (Expr.relocate m) := by
  unfold exprAt
  dsimp only
  split
  · rfl
  · rw [List.getElem?_map]
    cases seq[((i : Int) + k).toNat]? <;> rfl

/-- The position at a place is moved. -/
theorem posAt_map_relocate (k : Int) :
    posAt (seq.map (Expr.relocate m)) i k = (posAt seq i k).map m.pos := by
  unfold posAt
  rw [exprAt_map_relocate]
  cases exprAt seq i k with
  | error fault => rfl
  | ok e => cases e <;> rfl

/-- The leaf at a place is moved. -/
theorem leafAt_map_relocate (k : Int) :
    leafAt (seq.map (Expr.relocate m)) i k = (leafAt seq i k).map (Prod.map m.pos id) := by
  unfold leafAt
  rw [exprAt_map_relocate]
  cases exprAt seq i k with
  | error fault => rfl
  | ok e => cases e <;> rfl

/-- A node of moved children is the node, moved. -/
theorem nodeOf_map_relocate (t : Tag) (cs : List Expr) :
    nodeOf t (cs.map (Expr.relocate m)) = (nodeOf t cs).map (Expr.relocate m) := by
  cases cs with
  | nil => rfl
  | cons c cs =>
      by_cases hole : c = .hole
      · subst hole
        rfl
      · obtain ⟨p, hp⟩ := Expr.pos_ok hole
        have hmoved : (c.relocate m).pos = .ok (m.pos p) := by simp [hp, Except.map]
        rw [List.map_cons, nodeOf_cons t hmoved, nodeOf_cons t hp]
        simp [Except.map]

/-- Collecting expressions does not look at positions. -/
theorem equivariant_collect (t : Tag) (start stop : Int) : Equivariant (collect t start stop) := by
  intro m seq i
  simp only [collect, List.length_map]
  split
  · rfl
  · rw [← List.map_take, ← List.map_drop, nodeOf_map_relocate]

/-- A node without children stands where its place is moved to. -/
theorem equivariant_empty (k : Int) (t : Tag) : Equivariant (empty k t) := by
  intro m seq i
  simp only [empty, posAt_map_relocate]
  cases posAt seq i k <;> rfl

/-- Joining two numerals does not look at positions. -/
theorem equivariant_decimal (k : Int) (t : Tag) (whole fraction : Int) :
    Equivariant (decimal k t whole fraction) := by
  intro m seq i
  simp only [decimal, leafAt_map_relocate, posAt_map_relocate]
  cases leafAt seq i whole with
  | error fault => rfl
  | ok a =>
      cases leafAt seq i fraction with
      | error fault => rfl
      | ok b =>
          show (Fault.ofIssue (Number.double (a.2.2 ++ utf8 "." ++ b.2.2)) >>= _) =
            Except.map _ (Fault.ofIssue (Number.double (a.2.2 ++ utf8 "." ++ b.2.2)) >>= _)
          cases Fault.ofIssue (Number.double (a.2.2 ++ utf8 "." ++ b.2.2)) with
          | error fault => rfl
          | ok d => cases posAt seq i k <;> rfl

/-- Appending expressions does not look at positions. -/
theorem equivariant_append (t : Tag) (parts : List Int) : Equivariant (append t parts) := by
  intro m seq i
  have hparts : ∀ ks : List Int, ks.mapM (exprAt (seq.map (Expr.relocate m)) i) =
      (ks.mapM (exprAt seq i)).map (List.map (Expr.relocate m)) := by
    intro ks
    induction ks with
    | nil => rfl
    | cons k ks ih =>
        rw [List.mapM_cons, List.mapM_cons, ih, exprAt_map_relocate]
        cases exprAt seq i k with
        | error fault => rfl
        | ok e => cases ks.mapM (exprAt seq i) <;> rfl
  cases parts with
  | nil => rfl
  | cons k ks =>
      simp only [append, hparts, exprAt_map_relocate]
      cases exprAt seq i k with
      | error fault => rfl
      | ok e =>
          cases ks.mapM (exprAt seq i) with
          | error fault => rfl
          | ok es =>
              show nodeOf t ((e.relocate m).children ++ es.map (Expr.relocate m)) =
                (nodeOf t (e.children ++ es)).map (Expr.relocate m)
              rw [Expr.children_relocate, ← List.map_append, nodeOf_map_relocate]

end Reducer

namespace Json

namespace Tags

variable (t : Tags)

/-- The key of a string stands where the string is moved to. -/
theorem equivariant_reducePairKey : Reducer.Equivariant t.reducePairKey := by
  intro m seq i
  simp only [reducePairKey, Reducer.leafAt_map_relocate]
  cases Reducer.leafAt seq i 0 <;> rfl

/-- Joining two lists of members does not look at positions. -/
theorem equivariant_reduceMembers : Reducer.Equivariant t.reduceMembers := by
  intro m seq i
  simp only [reduceMembers, Reducer.exprAt_map_relocate]
  cases Reducer.exprAt seq i 0 with
  | error fault => rfl
  | ok before =>
      cases Reducer.exprAt seq i 2 with
      | error fault => rfl
      | ok behind =>
          show Reducer.nodeOf t.members ((before.relocate m).children ++
            (behind.relocate m).children) =
              (Reducer.nodeOf t.members (before.children ++ behind.children)).map (Expr.relocate m)
          rw [Expr.children_relocate, Expr.children_relocate, ← List.map_append,
            Reducer.nodeOf_map_relocate]

end Tags

/-- Finishing the list at a place does not look at positions. -/
theorem equivariant_finish (t : Tag) (k : Int) :
    Reducer.Equivariant
      (fun seq i ↦ do Reducer.nodeOf t (← Reducer.exprAt seq i k).children) := by
  intro m seq i
  simp only [Reducer.exprAt_map_relocate]
  cases Reducer.exprAt seq i k with
  | error fault => rfl
  | ok e =>
      show Reducer.nodeOf t (e.relocate m).children =
        (Reducer.nodeOf t e.children).map (Expr.relocate m)
      rw [Expr.children_relocate, Reducer.nodeOf_map_relocate]

/-- No rule of JSON looks at positions. -/
theorem rules_equivariant (t : Tags) :
    ∀ r ∈ rules t, ∀ reduce ∈ r.reduce, Reducer.Equivariant reduce := by
  have hall : ∀ reduce ∈ [t.reduceDecimal, t.reducePairKey, t.reducePair, t.reduceMember,
      t.reduceMembers, t.reduceObject, t.reduceFirstElement, t.reduceNextElement, t.reduceArray,
      t.reduceEmptyArray, t.reduceEmptyObject], Reducer.Equivariant reduce := by
    simp only [List.forall_mem_cons]
    exact ⟨Reducer.equivariant_decimal _ _ _ _, t.equivariant_reducePairKey,
      Reducer.equivariant_collect _ _ _, Reducer.equivariant_collect _ _ _,
      t.equivariant_reduceMembers, equivariant_finish _ _, Reducer.equivariant_collect _ _ _,
      Reducer.equivariant_append _ _, equivariant_finish _ _, Reducer.equivariant_empty _ _,
      Reducer.equivariant_empty _ _, nofun⟩
  intro r hr reduce hreduce
  exact hall reduce (List.mem_filterMap.mpr ⟨r, hr, hreduce⟩)

section Results

variable {m : Relocation}

/-- Two choices between computations with the same results have the same result. -/
theorem toOption_getD_congr {ε α : Type} {o o' : Option (Except ε α)} {x x' : Except ε α}
    (h : o.map Except.toOption = o'.map Except.toOption) (hx : x.toOption = x'.toOption) :
    (o.getD x).toOption = (o'.getD x').toOption := by
  cases o with
  | none =>
      cases o' with
      | none => exact hx
      | some y => cases h
  | some y =>
      cases o' with
      | none => cases h
      | some y' => exact Option.some.inj h

/-- What is unexpected has no result. -/
theorem toOption_unexpected {α : Type} (e : Expr) :
    (unexpected e : Except Fault α).toOption = none := by
  cases e <;> rfl

/-- A moved key has the same text. -/
theorem keyText_relocate (k : Expr) : (keyText (k.relocate m)).toOption = (keyText k).toOption := by
  cases k with
  | hole => rfl
  | leaf t p v x =>
      cases v with
      | text key =>
          simp only [Expr.relocate, keyText, apply_ite Except.toOption, toOption_unexpected]
      | _ => rfl
  | node t p cs => rfl

mutual

/-- A moved expression has the same data. -/
theorem decode_relocate (e : Expr) : (decode (e.relocate m)).toOption = (decode e).toOption := by
  cases e with
  | hole => rfl
  | leaf t p v x =>
      simp only [Expr.relocate, decode, apply_ite Except.toOption, toOption_unexpected]
  | node t p cs =>
      simp only [Expr.relocate_node, decode, apply_ite Except.toOption, toOption_unexpected,
        Except.toOption_map, decodeItems_relocate cs, decodeMembers_relocate [] cs]

/-- Moved values have the same data. -/
theorem decodeItems_relocate (es : List Expr) :
    (decodeItems (es.map (Expr.relocate m))).toOption = (decodeItems es).toOption := by
  cases es with
  | nil => rfl
  | cons e es =>
      exact Except.toOption_bind_congr (decode_relocate e) fun item ↦
        Except.toOption_bind_congr (decodeItems_relocate es) fun items ↦ rfl

/-- Moved members have the same entries. -/
theorem decodeMembers_relocate (entries : List (Text × Data)) (es : List Expr) :
    (decodeMembers entries (es.map (Expr.relocate m))).toOption =
      (decodeMembers entries es).toOption := by
  match es with
  | [] => rfl
  | .node t p [k, v] :: es =>
      simp only [List.map_cons, Expr.relocate_node, List.map_nil, decodeMembers]
      by_cases hpair : t.name = pairName
      · rw [if_pos hpair, if_pos hpair]
        exact Except.toOption_bind_congr (keyText_relocate k) fun key ↦
          Except.toOption_bind_congr (decode_relocate v) fun value ↦
            decodeMembers_relocate (Data.put entries key value) es
      · rw [if_neg hpair, if_neg hpair, toOption_unexpected, toOption_unexpected]
  | .hole :: es => rfl
  | .leaf t p v x :: es => rfl
  | .node t p [] :: es => rfl
  | .node t p [a] :: es => rfl
  | .node t p (a :: b :: c :: cs) :: es => rfl

end

/-- A moved expression is spelled alike, if its spelling does not depend on its children. -/
theorem printScalar?_relocate (name : Text) (e : Expr) :
    (printScalar? name (e.relocate m)).map Except.toOption =
      (printScalar? name e).map Except.toOption := by
  have hstring : (printString (e.relocate m)).toOption = (printString e).toOption := by
    rw [printString, printString, Expr.value_relocate]
    split
    · rfl
    · rw [toOption_unexpected, toOption_unexpected]
  have hinteger : (printInteger (e.relocate m)).toOption = (printInteger e).toOption := by
    rw [printInteger, printInteger, Expr.value_relocate, Expr.text_relocate]
    split
    · rfl
    · rfl
    · rw [toOption_unexpected, toOption_unexpected]
  have hdecimal : (printDecimal (e.relocate m)).toOption = (printDecimal e).toOption := by
    rw [printDecimal, printDecimal, Expr.value_relocate]
    split
    · rfl
    · rw [toOption_unexpected, toOption_unexpected]
  simp only [printScalar?, apply_ite (Option.map Except.toOption), Option.map_some, hstring,
    hinteger, hdecimal]

/-- A leaf is spelled by its tag and value, or is empty. -/
theorem print_leaf (t : Tag) (p : Pos) (v : Value) (x : Text) :
    print (.leaf t p v x) = (printScalar? t.name (.leaf t p v x)).getD
      (if t.name = arrayName then .ok (utf8 "[]")
      else if t.name = objectName then .ok (utf8 "\x7b\x7d")
      else unexpected (.leaf t p v x)) := by
  rw [print]
  cases printScalar? t.name (.leaf t p v x) <;> rfl

/-- A node is spelled by its tag, or by its children. -/
theorem print_node (t : Tag) (p : Pos) (cs : List Expr) :
    print (.node t p cs) = (printScalar? t.name (.node t p cs)).getD
      (if t.name = arrayName then
        (printItems cs).map fun items ↦ utf8 "[" ++ Text.join (utf8 ",") items ++ utf8 "]"
      else if t.name = objectName then
        (printMembers cs).map fun ms ↦ utf8 "\x7b" ++ Text.join (utf8 ",") ms ++ utf8 "\x7d"
      else unexpected (.node t p cs)) := by
  rw [print]
  cases printScalar? t.name (.node t p cs) <;> rfl

mutual

/-- A moved expression is printed alike. -/
theorem print_relocate (e : Expr) : (print (e.relocate m)).toOption = (print e).toOption := by
  cases e with
  | hole => rfl
  | leaf t p v x =>
      have hscalar := printScalar?_relocate (m := m) t.name (.leaf t p v x)
      rw [Expr.relocate] at hscalar ⊢
      rw [print_leaf, print_leaf]
      refine toOption_getD_congr hscalar ?_
      simp only [apply_ite Except.toOption, toOption_unexpected]
  | node t p cs =>
      have hscalar := printScalar?_relocate (m := m) t.name (.node t p cs)
      rw [Expr.relocate_node] at hscalar ⊢
      rw [print_node, print_node]
      refine toOption_getD_congr hscalar ?_
      simp only [apply_ite Except.toOption, toOption_unexpected, Except.toOption_map,
        printItems_relocate cs, printMembers_relocate cs]

/-- Moved values are printed alike. -/
theorem printItems_relocate (es : List Expr) :
    (printItems (es.map (Expr.relocate m))).toOption = (printItems es).toOption := by
  cases es with
  | nil => rfl
  | cons e es =>
      exact Except.toOption_bind_congr (print_relocate e) fun item ↦
        Except.toOption_bind_congr (printItems_relocate es) fun items ↦ rfl

/-- Moved members are printed alike. -/
theorem printMembers_relocate (es : List Expr) :
    (printMembers (es.map (Expr.relocate m))).toOption = (printMembers es).toOption := by
  match es with
  | [] => rfl
  | .node t p [k, v] :: es =>
      simp only [List.map_cons, Expr.relocate_node, List.map_nil, printMembers]
      by_cases hpair : t.name = pairName
      · rw [if_pos hpair, if_pos hpair]
        exact Except.toOption_bind_congr (keyText_relocate k) fun key ↦
          Except.toOption_bind_congr (print_relocate v) fun value ↦
            Except.toOption_bind_congr (printMembers_relocate es) fun members ↦ rfl
      · rw [if_neg hpair, if_neg hpair, toOption_unexpected, toOption_unexpected]
  | .hole :: es => rfl
  | .leaf t p v x :: es => rfl
  | .node t p [] :: es => rfl
  | .node t p [a] :: es => rfl
  | .node t p (a :: b :: c :: cs) :: es => rfl

end

end Results

namespace Language

variable {report : Bool} {l : Language}

/-- The parser of the front end does not look at positions. -/
theorem Built.equivariant (h : l.Built) : l.grammar.parser.Equivariant :=
  h.runs.equivariant (rules_equivariant _)

/-- Moving the tokens of a text moves its tree, or its error: this keeps its code and text, and what
a stall leaves over is moved as well, while an empty input has no position. It does not matter
whether the tokens are parsed in the registry of the first parse or in the one that it left. So
every position in a tree is that of a token, and tokens of the same lexemes, wherever they stand,
have trees that are decoded and printed alike. -/
theorem parse_layout (h : build report = .ok l) (reg later : Registry) (ts : List Token)
    (hlater : later = reg ∨ later = (l.grammar.parser.parse reg ts).2) :
    (∀ m : Relocation,
      (∀ e, (l.grammar.parser.parse reg ts).1.result = .ok e →
        (l.grammar.parser.parse later (ts.map (Token.relocate m))).1.result =
          .ok (e.relocate m)) ∧
      ∀ f, (l.grammar.parser.parse reg ts).1.result = .error (.failed f) →
        ∃ f', (l.grammar.parser.parse later (ts.map (Token.relocate m))).1.result =
            .error (.failed f') ∧
          f'.report.code = f.report.code ∧ f'.report.text = f.report.text ∧
          f'.report.pos =
            (if f.report.code = Kind.emptyInput.code then ⟨0, 0⟩ else m.pos f.report.pos) ∧
          f'.remaining? = f.remaining?.map (List.map (Expr.relocate m))) ∧
    ∀ e, (l.grammar.parser.parse reg ts).1.result = .ok e →
      (∀ (x : Expr) (q : Pos), x.Inside e → x.pos = .ok q → ∃ t ∈ ts, t.pos = q) ∧
      ∀ us : List Token, us.map Token.lexeme = ts.map Token.lexeme →
        ∃ e', (l.grammar.parser.parse later us).1.result = .ok e' ∧
          (decode e').toOption = (decode e).toOption ∧
          (print e').toOption = (print e).toOption := by
  have hp := (built_of_build h).equivariant
  have hagain : (l.grammar.parser.parse later ts).1 = (l.grammar.parser.parse reg ts).1 := by
    obtain rfl | rfl := hlater
    · rfl
    · rw [Parser.parse_again]
  rw [← hagain]
  refine ⟨fun m ↦ ⟨fun e he ↦ hp.parse_ok he m, fun f hf ↦ ?_⟩, fun e he ↦ ⟨?_, fun us hus ↦ ?_⟩⟩
  · obtain ⟨hcode, htext, hpos⟩ := f.report_relocate m
    exact ⟨f.relocate m, hp.parse_failed hf m, hcode, htext, hpos, f.remaining?_relocate m⟩
  · intro x q hx hq
    exact hp.exists_token_pos he hx hq
  · obtain ⟨e', he', hsame⟩ := hp.parse_same_lexemes he hus
    refine ⟨e', he', ?_, ?_⟩
    · rw [← decode_relocate (m := .gather) e', hsame, decode_relocate]
    · rw [← print_relocate (m := .gather) e', hsame, print_relocate]

/-- An array around an empty object stands where the object stands, also when lines and columns are
swapped. -/
theorem parse_layout_swapped :
    ∃ l, build true = .ok l ∧
      (l.grammar.parser.parse l.registry
        [⟨.symbol, utf8 "[", utf8 "in", 0, ⟨1, 1⟩⟩, ⟨.symbol, utf8 "\x7b", utf8 "in", 1, ⟨1, 2⟩⟩,
          ⟨.symbol, utf8 "\x7d", utf8 "in", 2, ⟨1, 3⟩⟩,
          ⟨.symbol, utf8 "]", utf8 "in", 3, ⟨1, 4⟩⟩]).1.result =
        .ok (.node (l.registry.lookup arrayName) ⟨1, 2⟩
          [.node (l.registry.lookup objectName) ⟨1, 2⟩ []]) ∧
      (l.grammar.parser.parse l.registry
        [⟨.symbol, utf8 "[", utf8 "in", 0, ⟨1, 1⟩⟩, ⟨.symbol, utf8 "\x7b", utf8 "in", 1, ⟨2, 1⟩⟩,
          ⟨.symbol, utf8 "\x7d", utf8 "in", 2, ⟨3, 1⟩⟩,
          ⟨.symbol, utf8 "]", utf8 "in", 3, ⟨4, 1⟩⟩]).1.result =
        .ok (.node (l.registry.lookup arrayName) ⟨2, 1⟩
          [.node (l.registry.lookup objectName) ⟨2, 1⟩ []]) := by
  obtain ⟨l, hl⟩ := exists_build true
  have hderives : Derives
      [⟨.symbol, utf8 "[", utf8 "in", 0, ⟨1, 1⟩⟩, ⟨.symbol, utf8 "\x7b", utf8 "in", 1, ⟨1, 2⟩⟩,
        ⟨.symbol, utf8 "\x7d", utf8 "in", 2, ⟨1, 3⟩⟩, ⟨.symbol, utf8 "]", utf8 "in", 3, ⟨1, 4⟩⟩]
      (.value (.array ⟨1, 1⟩ [.object ⟨1, 2⟩ []])) :=
    @Derives.array _ _ [_, _] _ ⟨rfl, rfl⟩ (.lastItem (.emptyObject ⟨rfl, rfl⟩ ⟨rfl, rfl⟩))
      ⟨rfl, rfl⟩
  have hparse := parse_of_derives (built_of_build hl) hderives
  refine ⟨l, hl, hparse, ?_⟩
  have hmoved := ((parse_layout hl l.registry l.registry _ (.inl rfl)).1
    ⟨fun q ↦ ⟨q.col, q.line⟩, id⟩).1 _ hparse
  simpa [Token.relocate, Tree.expr, Tree.pos, Tree.firstPos, Tree.itemsExpr, Tree.membersExpr]
    using hmoved

end Language

end Json

end Tagfold
