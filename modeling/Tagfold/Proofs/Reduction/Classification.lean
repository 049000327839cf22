import Tagfold.Proofs.Reduction.Matching

/-!
# From tokens to leaves

Whether a token has a leaf, and what is wrong with it otherwise, does not depend on the registry:
`Parser.classifyToken_cases` says all that can happen to one token. So a list of tokens is
classified as far as its first token without a leaf, whose error it has
(`Parser.classify_eq_error_iff`). If all tokens have leaves, then these are what `LeafOf` says, one
for each token (`Parser.classify_leafOf`), and their tags are owned by the registry that is left
(`Parser.classify_owned`).
-/

namespace Tagfold

/-- What one registry owns is owned by every continuation. -/
theorem Registry.Extends.owns {r r' : Registry} (h : r'.Extends r) {t : Tag}
    (ht : r.owns t = true) : r'.owns t = true := by
  unfold Registry.owns at ht ⊢
  obtain ⟨more, hmore⟩ := h
  simp only [Bool.and_eq_true, beq_iff_eq] at ht ⊢
  refine ⟨ht.1, ?_⟩
  obtain ⟨hlt, -⟩ := List.getElem?_eq_some_iff.mp ht.2
  rw [← hmore, List.getElem?_append_left hlt]
  exact ht.2

/-- An expression with an owned tag keeps it while the registry grows. -/
theorem Expr.Owned.mono {r r' : Registry} {e : Expr} (h : e.Owned r) (hext : r'.Extends r) :
    e.Owned r' := by
  obtain ⟨t, ht, howns⟩ := h
  exact ⟨t, ht, hext.owns howns⟩

namespace Parser

variable {p : Parser} {reg reg' : Registry} {t : Token} {ts : List Token} {made leaves : List Expr}

/-- The token has a leaf. -/
def Admits (p : Parser) (t : Token) : Prop :=
  ∀ reg, ∃ tag v reg', p.classifyToken reg t = (.ok (.leaf tag t.pos v t.text), reg')

/-- The token has no leaf, for the given reason. -/
def Refuses (p : Parser) (t : Token) (e : ParseError) : Prop :=
  ∀ reg, p.classifyToken reg t = (.error e, reg)

/-- The tags that the parser itself knows are owned by the registry. -/
structure Knows (p : Parser) (reg : Registry) : Prop where
  stringTag : reg.owns p.stringTag = true
  identifierTag : reg.owns p.identifierTag = true
  integerTag : reg.owns p.integerTag = true

/-- The tags of the parser stay owned while the registry grows. -/
theorem Knows.mono (h : p.Knows reg) (hext : reg'.Extends reg) : p.Knows reg' where
  stringTag := hext.owns h.stringTag
  identifierTag := hext.owns h.identifierTag
  integerTag := hext.owns h.integerTag

/-- The tags of the parser have the names of the leaves they are for. -/
structure Tagged (p : Parser) : Prop where
  stringTag : p.stringTag.name = stringTagName
  identifierTag : p.identifierTag.name = identifierTagName
  integerTag : p.integerTag.name = integerTagName

/-- What the leaf of a token is, with the given choice of identifiers. What literals denote is left
open. -/
inductive LeafOf (isIdentifier : Text → Bool) (Denotes : Text → Value → Prop) (t : Token) :
    Expr → Prop where
  | keyword {tag : Tag} : t.kind = .keyword → tag.name = keywordTagName t.text →
      LeafOf isIdentifier Denotes t (.leaf tag t.pos .absent t.text)
  | symbol {tag : Tag} : t.kind = .symbol → tag.name = symbolTagName t.text →
      LeafOf isIdentifier Denotes t (.leaf tag t.pos .absent t.text)
  | string {tag : Tag} {v : Value} : t.kind = .string → tag.name = stringTagName →
      Denotes t.text v → LeafOf isIdentifier Denotes t (.leaf tag t.pos v t.text)
  | identifier {tag : Tag} : t.kind = .word → tag.name = identifierTagName →
      isIdentifier t.text = true →
      LeafOf isIdentifier Denotes t (.leaf tag t.pos (.text t.text) t.text)
  | integer {tag : Tag} {v : Value} : t.kind = .word → tag.name = integerTagName →
      isIdentifier t.text = false → Number.isNumeral t.text = true →
      Number.integer t.text = .ok v → LeafOf isIdentifier Denotes t (.leaf tag t.pos v t.text)

/-- What can happen to a token, whatever the registry is: it becomes a leaf whose tag is interned
under a name, or a leaf with a tag of the parser, or nothing. -/
theorem classifyToken_cases (p : Parser) (t : Token) :
    (∃ name, ∀ reg, p.classifyToken reg t =
        (.ok (.leaf (reg.intern name).1 t.pos .absent t.text), (reg.intern name).2)) ∨
      (∃ tag v, (∀ reg, p.Knows reg → reg.owns tag = true) ∧
        ∀ reg, p.classifyToken reg t = (.ok (.leaf tag t.pos v t.text), reg)) ∨
      ∃ e, p.Refuses t e := by
  unfold Refuses classifyToken
  cases t.kind with
  | keyword => exact .inl ⟨keywordTagName t.text, fun _ ↦ rfl⟩
  | symbol => exact .inl ⟨symbolTagName t.text, fun _ ↦ rfl⟩
  | string =>
      cases p.stringValue t.text with
      | ok v => exact .inr (.inl ⟨p.stringTag, v, fun _ h ↦ h.stringTag, fun _ ↦ rfl⟩)
      | error i => exact .inr (.inr ⟨_, fun _ ↦ rfl⟩)
  | word =>
      unfold wordLeaf
      by_cases hidentifier : p.isIdentifier t.text = true
      · refine .inr (.inl ⟨p.identifierTag, .text t.text, fun _ h ↦ h.identifierTag, fun _ ↦ ?_⟩)
        simp only [hidentifier, if_true]
      by_cases hnumeral : Number.isNumeral t.text = true
      · cases hinteger : Number.integer t.text with
        | ok v =>
            refine .inr (.inl ⟨p.integerTag, v, fun _ h ↦ h.integerTag, fun _ ↦ ?_⟩)
            simp only [hidentifier, hnumeral, if_true, if_false, Bool.false_eq_true]
        | error i =>
            refine .inr (.inr ⟨.integerRange t i, fun _ ↦ ?_⟩)
            simp only [hidentifier, hnumeral, if_true, if_false, Bool.false_eq_true]
      · refine .inr (.inr ⟨.invalidIdentifier t, fun _ ↦ ?_⟩)
        simp only [hidentifier, hnumeral, if_false, Bool.false_eq_true]
  | other n => exact .inr (.inr ⟨_, fun _ ↦ rfl⟩)

/-- A token has a leaf, or there is a reason why it has none. -/
theorem admits_or_refuses (p : Parser) (t : Token) : p.Admits t ∨ ∃ e, p.Refuses t e := by
  obtain ⟨name, h⟩ | ⟨tag, v, -, h⟩ | h := p.classifyToken_cases t
  · exact .inl fun reg ↦ ⟨_, _, _, h reg⟩
  · exact .inl fun reg ↦ ⟨_, _, _, h reg⟩
  · exact .inr h

/-- A token does not have a leaf and a reason to have none. -/
theorem Admits.not_refuses (h : p.Admits t) (e : ParseError) : ¬ p.Refuses t e := by
  intro hrefuses
  obtain ⟨tag, v, reg', hok⟩ := h .empty
  cases hok.symm.trans (hrefuses .empty)

/-- A token without a leaf is a word that is no identifier and no numeral in range, a string without
a value, or of an unknown class. -/
theorem Refuses.cases {e : ParseError} (h : p.Refuses t e) :
    (t.kind = .word ∧ e = .invalidIdentifier t) ∨ (t.kind = .word ∧ ∃ i, e = .integerRange t i) ∨
      (t.kind = .string ∧ ∃ i, e = .badString t i) ∨
      ∃ n, t.kind = .other n ∧ e = .unknownToken t := by
  have hclassify := congrArg Prod.fst (h .empty)
  unfold classifyToken at hclassify
  cases hkind : t.kind with
  | keyword => rw [hkind] at hclassify; cases hclassify
  | symbol => rw [hkind] at hclassify; cases hclassify
  | string =>
      rw [hkind] at hclassify
      cases hvalue : p.stringValue t.text with
      | ok v => rw [hvalue] at hclassify; cases hclassify
      | error i =>
          rw [hvalue] at hclassify
          cases hclassify
          exact .inr (.inr (.inl ⟨rfl, i, rfl⟩))
  | word =>
      rw [hkind] at hclassify
      simp only [wordLeaf] at hclassify
      split at hclassify
      · cases hclassify
      · split at hclassify
        · split at hclassify
          · cases hclassify
          · next i _ =>
              cases hclassify
              exact .inr (.inl ⟨rfl, i, rfl⟩)
        · cases hclassify
          exact .inl ⟨rfl, rfl⟩
  | other n =>
      rw [hkind] at hclassify
      cases hclassify
      exact .inr (.inr (.inr ⟨n, rfl, rfl⟩))

/-- Tokens that all have leaves are classified as leaves. -/
theorem classifyOnto_of_admits (h : ∀ t ∈ ts, p.Admits t) (made : List Expr) (reg : Registry) :
    ∃ leaves reg', p.classifyOnto made reg ts = (.ok (made.reverse ++ leaves), reg') ∧
      leaves.length = ts.length ∧ ∀ e ∈ leaves, e ≠ .hole := by
  induction ts generalizing made reg with
  | nil => exact ⟨[], reg, by simp [classifyOnto], rfl, by simp⟩
  | cons t ts ih =>
      obtain ⟨tag, v, mid, hleaf⟩ := h t List.mem_cons_self reg
      obtain ⟨leaves, reg', hrest, hlength, hpresent⟩ :=
        ih (fun u hu ↦ h u (List.mem_cons_of_mem _ hu)) (.leaf tag t.pos v t.text :: made) mid
      refine ⟨.leaf tag t.pos v t.text :: leaves, reg', ?_, by simp [hlength], ?_⟩
      · rw [classifyOnto, hleaf]
        dsimp only
        rw [hrest]
        simp
      · intro e he
        rcases List.mem_cons.mp he with rfl | he
        · exact Expr.noConfusion
        · exact hpresent e he

/-- Behind tokens that have leaves, a token without one gives its error. -/
theorem classifyOnto_of_refuses {before behind : List Token} {e : ParseError}
    (hbefore : ∀ u ∈ before, p.Admits u) (ht : p.Refuses t e) (made : List Expr) (reg : Registry) :
    (p.classifyOnto made reg (before ++ t :: behind)).1 = .error e := by
  induction before generalizing made reg with
  | nil => rw [List.nil_append, classifyOnto, ht reg]
  | cons u before ih =>
      obtain ⟨tag, v, mid, hleaf⟩ := hbefore u List.mem_cons_self reg
      rw [List.cons_append, classifyOnto, hleaf]
      exact ih (fun w hw ↦ hbefore w (List.mem_cons_of_mem _ hw)) _ mid

/-- Either all tokens of a list have leaves, or one of them is the first that has none. -/
theorem admits_or_first_refused (p : Parser) (ts : List Token) :
    (∀ t ∈ ts, p.Admits t) ∨ ∃ before t behind e, ts = before ++ t :: behind ∧
      (∀ u ∈ before, p.Admits u) ∧ p.Refuses t e := by
  induction ts with
  | nil => exact .inl (by simp)
  | cons t ts ih =>
      obtain ht | ⟨e, he⟩ := p.admits_or_refuses t
      · obtain hts | ⟨before, u, behind, e, rfl, hbefore, he⟩ := ih
        · exact .inl (by simpa using ⟨ht, hts⟩)
        · exact .inr ⟨t :: before, u, behind, e, rfl, by simpa using ⟨ht, hbefore⟩, he⟩
      · exact .inr ⟨[], t, ts, e, rfl, by simp, he⟩

/-- Tokens are classified exactly if all of them have leaves. -/
theorem exists_classify_ok_iff :
    (∃ leaves, (p.classify reg ts).1 = .ok leaves) ↔ ∀ t ∈ ts, p.Admits t := by
  constructor
  · intro h
    obtain ⟨leaves, hleaves⟩ := h
    obtain hall | ⟨before, t, behind, e, rfl, hbefore, he⟩ := p.admits_or_first_refused ts
    · exact hall
    · cases hleaves.symm.trans (classifyOnto_of_refuses hbefore he [] reg)
  · intro h
    obtain ⟨leaves, reg', hok, -⟩ := classifyOnto_of_admits h [] reg
    exact ⟨_, congrArg Prod.fst hok⟩

/-- The error of a token list is that of its first token without a leaf. -/
theorem classify_eq_error_iff {e : ParseError} :
    (p.classify reg ts).1 = .error e ↔ ∃ before t behind, ts = before ++ t :: behind ∧
      (∀ u ∈ before, p.Admits u) ∧ p.Refuses t e := by
  constructor
  · intro h
    obtain hall | ⟨before, t, behind, e', rfl, hbefore, he⟩ := p.admits_or_first_refused ts
    · obtain ⟨leaves, hleaves⟩ := exists_classify_ok_iff.mpr hall
      cases hleaves.symm.trans h
    · cases (classifyOnto_of_refuses hbefore he [] reg).symm.trans h
      exact ⟨before, t, behind, rfl, hbefore, he⟩
  · intro h
    obtain ⟨before, t, behind, rfl, hbefore, he⟩ := h
    exact classifyOnto_of_refuses hbefore he [] reg

/-- Leaves are there. -/
theorem classify_present (h : (p.classify reg ts).1 = .ok leaves) : ∀ e ∈ leaves, e ≠ .hole := by
  obtain ⟨all, reg', hok, -, hpresent⟩ :=
    classifyOnto_of_admits (exists_classify_ok_iff.mp ⟨leaves, h⟩) [] reg
  cases (congrArg Prod.fst hok).symm.trans h
  simpa using hpresent

/-- Classification continues the registry, and the tags of the leaves are owned by what is left of
it. -/
theorem classifyOnto_owned (hn : reg.names.Nodup) (hp : p.Knows reg)
    (hmade : ∀ e ∈ made, e.Owned reg) (h : p.classifyOnto made reg ts = (.ok leaves, reg')) :
    reg'.Extends reg ∧ reg'.names.Nodup ∧ ∀ e ∈ leaves, e.Owned reg' := by
  induction ts generalizing made reg with
  | nil =>
      cases h
      exact ⟨.refl _, hn, by simpa using hmade⟩
  | cons t ts ih =>
      rw [classifyOnto] at h
      obtain ⟨name, hleaf⟩ | ⟨tag, v, htag, hleaf⟩ | ⟨e, he⟩ := p.classifyToken_cases t
      · rw [hleaf reg] at h
        have hext := Registry.extends_intern reg name
        have howns : (reg.intern name).2.owns (reg.intern name).1 = true := by
          rw [Registry.intern_fst]
          exact Registry.owns_lookup (Registry.mem_intern reg name)
        obtain ⟨hgrow, hnodup, hleaves⟩ := ih (Registry.nodup_intern hn name) (hp.mono hext)
          (by simpa using ⟨⟨_, rfl, howns⟩, fun a ha ↦ (hmade a ha).mono hext⟩) h
        exact ⟨hgrow.trans hext, hnodup, hleaves⟩
      · rw [hleaf reg] at h
        exact ih hn hp (by simpa using ⟨⟨_, rfl, htag reg hp⟩, hmade⟩) h
      · rw [he reg] at h
        cases h

/-- The tags of leaves are owned by the registry behind their classification. -/
theorem classify_owned (hn : reg.names.Nodup) (hp : p.Knows reg)
    (h : p.classify reg ts = (.ok leaves, reg')) :
    reg'.Extends reg ∧ reg'.names.Nodup ∧ ∀ e ∈ leaves, e.Owned reg' :=
  classifyOnto_owned hn hp (by simp) h

/-- A leaf stands where its token stands, keeps the text of the token, and is tagged by its class.
-/
theorem leafOf_of_classifyToken {e : Expr} (htags : p.Tagged)
    (h : p.classifyToken reg t = (.ok e, reg')) :
    LeafOf p.isIdentifier (fun raw v ↦ p.stringValue raw = .ok v) t e := by
  unfold classifyToken at h
  cases hkind : t.kind with
  | keyword =>
      rw [hkind] at h
      cases h
      exact .keyword hkind (reg.name_intern _)
  | symbol =>
      rw [hkind] at h
      cases h
      exact .symbol hkind (reg.name_intern _)
  | string =>
      rw [hkind] at h
      cases hvalue : p.stringValue t.text with
      | ok v =>
          rw [hvalue] at h
          cases h
          exact .string hkind htags.stringTag hvalue
      | error i =>
          rw [hvalue] at h
          cases h
  | word =>
      rw [hkind] at h
      have hleaf : p.wordLeaf t = .ok e := congrArg Prod.fst h
      unfold wordLeaf at hleaf
      split at hleaf
      · next hidentifier =>
          cases hleaf
          exact .identifier hkind htags.identifierTag hidentifier
      · next hidentifier =>
          split at hleaf
          · next hnumeral =>
              split at hleaf
              · next v hinteger =>
                  cases hleaf
                  exact .integer hkind htags.integerTag (eq_false_of_ne_true hidentifier) hnumeral
                    hinteger
              · cases hleaf
          · cases hleaf
  | other n =>
      rw [hkind] at h
      cases h

/-- The leaves of tokens are one for each of them, in order. -/
theorem forall₂_of_classifyOnto (htags : p.Tagged)
    (h : p.classifyOnto made reg ts = (.ok leaves, reg')) :
    ∃ fresh, leaves = made.reverse ++ fresh ∧
      List.Forall₂ (LeafOf p.isIdentifier fun raw v ↦ p.stringValue raw = .ok v) ts fresh := by
  induction ts generalizing made reg with
  | nil =>
      cases h
      exact ⟨[], (List.append_nil _).symm, .nil⟩
  | cons t ts ih =>
      rw [classifyOnto] at h
      split at h
      · next e mid hleaf =>
          obtain ⟨fresh, rfl, hfresh⟩ := ih h
          refine ⟨e :: fresh, ?_, .cons (leafOf_of_classifyToken htags hleaf) hfresh⟩
          rw [List.reverse_cons, List.append_assoc, List.singleton_append]
      · cases h

/-- Classification gives one leaf for each token, in order. -/
theorem classify_leafOf (htags : p.Tagged) (h : (p.classify reg ts).1 = .ok leaves) :
    List.Forall₂ (LeafOf p.isIdentifier fun raw v ↦ p.stringValue raw = .ok v) ts leaves := by
  obtain ⟨fresh, rfl, hfresh⟩ := forall₂_of_classifyOnto htags (Prod.ext h rfl)
  exact hfresh

end Parser

end Tagfold
