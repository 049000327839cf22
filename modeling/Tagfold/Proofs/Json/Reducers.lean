import Tagfold.Proofs.Json.Language
import Tagfold.Proofs.Reduction.Naming
import Tagfold.Proofs.Reduction.Termination

/-!
# What the reducers of JSON count on

The reducers of JSON ask for values of leaves and for children of lists, and a node needs a child
that is there. `Usable` says of an expression what they count on. `rules_careful` says that every
reducer has a usable result, or fails with an issue, wherever its pattern fits usable expressions:
it is not misused, and leaves what the next reducer counts on. `sustains_usable` says so of whole
sequences.
-/

namespace Tagfold

/-- A pattern fits if its first matcher accepts the first expression and the others fit the rest. -/
theorem Matcher.fits_cons_iff {m : Matcher} {ms : List Matcher} {seq : List Expr} :
    fits (m :: ms) seq = true ↔
      ∃ e rest, seq = e :: rest ∧ m.accepts e = true ∧ fits ms rest = true := by
  cases seq <;> simp [fits]

namespace Json

/-- The names of the leaves that reducers ask for values or texts. -/
def scalarNames : List Text :=
  [stringTagName, integerTagName]

/-- The names of unfinished lists. -/
def listNames : List Text :=
  [membersName, elementsName]

/-- What reducers count on: the expression is there, strings and integers are leaves, and unfinished
lists have a first child that is there. -/
def Usable (e : Expr) : Prop :=
  ∃ name, e.name = .ok name ∧ (name ∈ scalarNames → ∃ t p v text, e = .leaf t p v text) ∧
    (name ∈ listNames → ∃ c cs, e.children = c :: cs ∧ c ≠ .hole)

/-- A reducer is done with a span: it has a usable result, or fails with an issue. -/
def Done : Except Fault Expr → Prop
  | .ok e => Usable e
  | .error (.misuse _) => False
  | .error (.issue _) => True

/-- Wherever the pattern fits usable expressions, the reducer is done with them. -/
def Careful (pattern : List Matcher) (reduce : Reducer) : Prop :=
  ∀ before behind : List Expr, (∀ e ∈ behind, Usable e) → Matcher.fits pattern behind = true →
    Done (reduce (before ++ behind) before.length)

namespace Usable

variable {e : Expr} {name : Text}

/-- A usable expression is there. -/
theorem ne_hole (h : Usable e) : e ≠ .hole := by
  rintro rfl
  obtain ⟨name, hname, -⟩ := h
  cases hname

/-- An expression that a matcher of one name accepts has this name. -/
theorem name_of_accepts (h : (Matcher.tag name).accepts e = true) : e.name = .ok name := by
  obtain ⟨name', hname', hmem⟩ := Matcher.accepts_iff.mp h
  rwa [List.mem_singleton.mp hmem] at hname'

/-- A usable string or integer is a leaf. -/
theorem exists_leaf (h : Usable e) (haccepts : (Matcher.tag name).accepts e = true)
    (hname : name ∈ scalarNames) : ∃ t p v text, e = .leaf t p v text := by
  obtain ⟨name', hname', hleaf, -⟩ := h
  obtain rfl : name' = name := Except.ok.inj (hname'.symm.trans (name_of_accepts haccepts))
  exact hleaf hname

/-- Usable members or elements have a first child. -/
theorem exists_child (h : Usable e) (haccepts : (Matcher.tag name).accepts e = true)
    (hname : name ∈ listNames) : ∃ c cs, e.children = c :: cs ∧ c ≠ .hole := by
  obtain ⟨name', hname', -, hchild⟩ := h
  obtain rfl : name' = name := Except.ok.inj (hname'.symm.trans (name_of_accepts haccepts))
  exact hchild hname

end Usable

section Results

variable {t : Tag}

/-- A leaf is usable if its name is not that of a list. -/
theorem usable_leaf {p : Pos} {v : Value} {text : Text} (hlist : t.name ∉ listNames) :
    Usable (.leaf t p v text) :=
  ⟨t.name, rfl, fun _ ↦ ⟨t, p, v, text, rfl⟩, fun h ↦ absurd h hlist⟩

/-- A node with a first child is usable if its name is not that of a leaf. -/
theorem done_nodeOf (name : Text) (ht : t.name = name) {c : Expr} {cs : List Expr} (hc : c ≠ .hole)
    (hscalar : name ∉ scalarNames) : Done (Reducer.nodeOf t (c :: cs)) := by
  subst ht
  obtain ⟨p, hp⟩ := Expr.pos_ok hc
  rw [Reducer.nodeOf_cons t hp]
  exact ⟨t.name, rfl, fun h ↦ absurd h hscalar, fun _ ↦ ⟨c, cs, rfl, hc⟩⟩

/-- A node without children is usable if its name is neither that of a leaf nor that of a list. -/
theorem done_empty (name : Text) (ht : t.name = name) {a : Expr} (ha : a ≠ .hole)
    (before rest : List Expr) (hscalar : name ∉ scalarNames) (hlist : name ∉ listNames) :
    Done (Reducer.empty 0 t (before ++ a :: rest) before.length) := by
  subst ht
  obtain ⟨p, hp⟩ := Expr.pos_ok ha
  have hempty : Reducer.empty 0 t (before ++ a :: rest) before.length = .ok (.node t p []) := by
    simp [Reducer.empty, Reducer.posAt, hp, Fault.ofMisuse, Except.mapError, bind, Except.bind,
      pure, Except.pure]
  rw [hempty]
  exact ⟨t.name, rfl, fun h ↦ absurd h hscalar, fun h ↦ absurd h hlist⟩

end Results

section Rules

variable {reg : Registry}

/-- Two integers around a point are done: they are leaves, and what they denote is a leaf. -/
theorem careful_decimal : Careful [.tag integerTagName, symbol ".", .tag integerTagName]
    (tagsOf reg).reduceDecimal := by
  intro before behind husable hfits
  obtain ⟨a, _, rfl, ha, hfits⟩ := Matcher.fits_cons_iff.mp hfits
  obtain ⟨b, _, rfl, -, hfits⟩ := Matcher.fits_cons_iff.mp hfits
  obtain ⟨c, rest, rfl, hc, -⟩ := Matcher.fits_cons_iff.mp hfits
  obtain ⟨_, p, _, whole, rfl⟩ := (husable a (by simp)).exists_leaf ha (by decide)
  obtain ⟨_, q, _, fraction, rfl⟩ := (husable c (by simp)).exists_leaf hc (by decide)
  rw [Tags.reduceDecimal, Reducer.decimal_span]
  cases Number.double (whole ++ utf8 "." ++ fraction) with
  | error i => trivial
  | ok d =>
      have hlist : decimalName ∉ listNames := by decide
      exact usable_leaf hlist

/-- A string before a colon is done: it is a leaf, and its value makes a leaf. -/
theorem careful_key : Careful [.tag stringTagName, symbol ":"] (tagsOf reg).reducePairKey := by
  intro before behind husable hfits
  obtain ⟨a, _, rfl, ha, hfits⟩ := Matcher.fits_cons_iff.mp hfits
  obtain ⟨_, p, v, _, rfl⟩ := (husable a (by simp)).exists_leaf ha (by decide)
  simp only [Tags.reducePairKey, Reducer.leafAt, Reducer.exprAt_zero, bind, Except.bind, pure,
    Except.pure]
  have hlist : pairKeyName ∉ listNames := by decide
  exact usable_leaf hlist

/-- A key and a value are done: they are the children of a pair. -/
theorem careful_pair : Careful [.tag pairKeyName, anyValue] (tagsOf reg).reducePair := by
  intro before behind husable hfits
  obtain ⟨a, _, rfl, -, hfits⟩ := Matcher.fits_cons_iff.mp hfits
  obtain ⟨b, rest, rfl, -, -⟩ := Matcher.fits_cons_iff.mp hfits
  rw [Tags.reducePair, Reducer.collect_two]
  exact done_nodeOf pairName rfl (husable a (by simp)).ne_hole (by decide)

/-- A pair is done: it is the child of members. -/
theorem careful_member : Careful [.tag pairName] (tagsOf reg).reduceMember := by
  intro before behind husable hfits
  obtain ⟨a, rest, rfl, -, -⟩ := Matcher.fits_cons_iff.mp hfits
  rw [Tags.reduceMember, Reducer.collect_first]
  exact done_nodeOf membersName rfl (husable a (by simp)).ne_hole (by decide)

/-- Two lists of members are done: the first has a child. -/
theorem careful_members : Careful [.tag membersName, symbol ",", .tag membersName]
    (tagsOf reg).reduceMembers := by
  intro before behind husable hfits
  obtain ⟨a, _, rfl, ha, hfits⟩ := Matcher.fits_cons_iff.mp hfits
  obtain ⟨b, _, rfl, -, hfits⟩ := Matcher.fits_cons_iff.mp hfits
  obtain ⟨c, rest, rfl, -, -⟩ := Matcher.fits_cons_iff.mp hfits
  obtain ⟨child, more, hchildren, hchild⟩ := (husable a (by simp)).exists_child ha (by decide)
  simp only [Tags.reduceMembers, Reducer.exprAt_zero, Reducer.exprAt_two, bind, Except.bind,
    hchildren, List.cons_append]
  exact done_nodeOf membersName rfl hchild (by decide)

/-- Members between braces are done: they have a child. -/
theorem careful_object : Careful [symbol "\x7b", .tag membersName, symbol "\x7d"]
    (tagsOf reg).reduceObject := by
  intro before behind husable hfits
  obtain ⟨a, _, rfl, -, hfits⟩ := Matcher.fits_cons_iff.mp hfits
  obtain ⟨b, rest, rfl, hb, -⟩ := Matcher.fits_cons_iff.mp hfits
  obtain ⟨child, more, hchildren, hchild⟩ := (husable b (by simp)).exists_child hb (by decide)
  simp only [Tags.reduceObject, Reducer.exprAt_one, bind, Except.bind, hchildren]
  exact done_nodeOf objectName rfl hchild (by decide)

/-- A value behind a bracket is done: it is the child of elements. -/
theorem careful_first : Careful [symbol "[", anyValue] (tagsOf reg).reduceFirstElement := by
  intro before behind husable hfits
  obtain ⟨a, _, rfl, -, hfits⟩ := Matcher.fits_cons_iff.mp hfits
  obtain ⟨b, rest, rfl, -, -⟩ := Matcher.fits_cons_iff.mp hfits
  rw [Tags.reduceFirstElement, Reducer.collect_second]
  exact done_nodeOf elementsName rfl (husable b (by simp)).ne_hole (by decide)

/-- Elements before a comma and a value are done: they have a child. -/
theorem careful_next : Careful [.tag elementsName, symbol ",", anyValue]
    (tagsOf reg).reduceNextElement := by
  intro before behind husable hfits
  obtain ⟨a, _, rfl, ha, hfits⟩ := Matcher.fits_cons_iff.mp hfits
  obtain ⟨b, _, rfl, -, hfits⟩ := Matcher.fits_cons_iff.mp hfits
  obtain ⟨c, rest, rfl, -, -⟩ := Matcher.fits_cons_iff.mp hfits
  obtain ⟨child, more, hchildren, hchild⟩ := (husable a (by simp)).exists_child ha (by decide)
  simp only [Tags.reduceNextElement, Reducer.append, Reducer.exprAt_zero, List.mapM_cons,
    List.mapM_nil, Reducer.exprAt_two, bind, Except.bind, pure, Except.pure, hchildren,
    List.cons_append]
  exact done_nodeOf elementsName rfl hchild (by decide)

/-- Elements before a bracket are done: they have a child. -/
theorem careful_array : Careful [.tag elementsName, symbol "]"] (tagsOf reg).reduceArray := by
  intro before behind husable hfits
  obtain ⟨a, rest, rfl, ha, -⟩ := Matcher.fits_cons_iff.mp hfits
  obtain ⟨child, more, hchildren, hchild⟩ := (husable a (by simp)).exists_child ha (by decide)
  simp only [Tags.reduceArray, Reducer.exprAt_zero, bind, Except.bind, hchildren]
  exact done_nodeOf arrayName rfl hchild (by decide)

/-- A node without children is done in the place of any expressions: the first of them is there. -/
theorem careful_empty {m : Matcher} {ms : List Matcher} {t : Tag} (name : Text) (ht : t.name = name)
    (hscalar : name ∉ scalarNames) (hlist : name ∉ listNames) :
    Careful (m :: ms) (Reducer.empty 0 t) := by
  intro before behind husable hfits
  obtain ⟨a, rest, rfl, -, -⟩ := Matcher.fits_cons_iff.mp hfits
  exact done_empty name ht (husable a (by simp)).ne_hole before rest hscalar hlist

end Rules

/-- The reducers of JSON are done with the expressions that their patterns fit. -/
theorem rules_careful (reg : Registry) :
    ∀ r ∈ rules (tagsOf reg), ∃ reduce, r.reduce = some reduce ∧ Careful r.pattern reduce := by
  intro r hr
  simp only [rules, List.mem_cons, List.not_mem_nil, or_false] at hr
  rcases hr with rfl | rfl | rfl | rfl | rfl | rfl | rfl | rfl | rfl | rfl | rfl
  · exact ⟨_, rfl, careful_decimal⟩
  · exact ⟨_, rfl, careful_key⟩
  · exact ⟨_, rfl, careful_pair⟩
  · exact ⟨_, rfl, careful_member⟩
  · exact ⟨_, rfl, careful_members⟩
  · exact ⟨_, rfl, careful_object⟩
  · exact ⟨_, rfl, careful_first⟩
  · exact ⟨_, rfl, careful_next⟩
  · exact ⟨_, rfl, careful_array⟩
  · exact ⟨_, rfl, careful_empty arrayName rfl (by decide) (by decide)⟩
  · exact ⟨_, rfl, careful_empty objectName rfl (by decide) (by decide)⟩

/-- On usable expressions with owned tags, no reducer of JSON is misused, and its results are
usable. -/
theorem sustains_usable {p : Parser} {reg later : Registry}
    (hp : p.Runs later (rules (tagsOf reg))) :
    p.Sustains later fun e ↦ e.Owned later ∧ Usable e := by
  intro seq c hseq hmatch
  obtain ⟨hnone, -⟩ | ⟨c', earlier, r, before, behind, hchosen, h⟩ :=
    Parser.firstMatch_cases hp.nodup hp.table fun e he ↦ (hseq e he).1
  · cases hnone.symm.trans hmatch
  · obtain rfl : c' = c := by simpa using hchosen.symm.trans hmatch
    obtain ⟨others, htable⟩ := h.table
    obtain ⟨reduce, hreduce, hcareful⟩ := rules_careful reg r (by rw [htable]; simp)
    obtain rfl : reduce = c'.rule.reduce := by
      simpa using hreduce.symm.trans h.rule.reduce
    have hdone : Done (c'.rule.reduce seq c'.site.pos) := by
      rw [h.split, h.pos]
      refine hcareful before behind (fun e he ↦ (hseq e ?_).2) h.fits
      rw [h.split]
      exact List.mem_append_right _ he
    constructor
    · intro m hmisused
      rw [hmisused] at hdone
      exact hdone
    · intro e hresult howned
      rw [hresult] at hdone
      exact ⟨howned, hdone⟩

end Json

end Tagfold
