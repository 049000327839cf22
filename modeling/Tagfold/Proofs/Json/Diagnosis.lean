import Tagfold.Proofs.Json.Acceptance
import Tagfold.Proofs.Reduction.Iteration
import Tagfold.Proofs.Token.Blanks
import Tagfold.Proofs.Token.Places

/-!
# What is wrong with a JSON text

A text that is not parsed has an error of one of seven kinds: no reducer ever fails, no token is of
an unknown class, and nothing is misused or over budget. `Ending` lists how a parse can end, stage
by stage, and `ending_parse` says that it always ends so. `parse_error_kinds` draws the
consequences: which kind an error has, which stage reports it, and where it points to.
-/

namespace Tagfold.Json

open Reading

/-- The place of a phrase: that of its value, its pair, its first member or its first item. -/
def Phrase.pos? : Phrase → Option Pos
  | .value v => some v.pos
  | .pair m => some m.pos
  | .members ms => ms.head?.map Member.pos
  | .items vs => vs.head?.map Tree.pos

/-- A phrase stands where one of its tokens stands. -/
theorem Derives.exists_pos {ts : List Token} {phrase : Phrase} (h : Derives ts phrase) :
    ∃ t ∈ ts, phrase.pos? = some t.pos := by
  induction h with
  | string | integer | decimal | constant | emptyObject | emptyArray | pair =>
      exact ⟨_, List.mem_cons_self, rfl⟩
  | @object o c ts ms _ _ _ ih =>
      obtain ⟨t, ht, hpos⟩ := ih
      obtain ⟨m, hm, hplace⟩ := Option.map_eq_some_iff.mp hpos
      obtain ⟨rest, rfl⟩ := List.head?_eq_some_iff.mp hm
      exact ⟨t, by simp [ht], congrArg some hplace⟩
  | @array o c ts vs _ _ _ ih =>
      obtain ⟨t, ht, hpos⟩ := ih
      obtain ⟨v, hv, hplace⟩ := Option.map_eq_some_iff.mp hpos
      obtain ⟨rest, rfl⟩ := List.head?_eq_some_iff.mp hv
      refine ⟨t, by simp [ht], congrArg some ?_⟩
      rw [Tree.pos, Tree.firstPos]
      exact hplace
  | lastMember _ ih => exact ih
  | lastItem _ ih => exact ih
  | nextMember _ _ _ ih _ =>
      obtain ⟨t, ht, hpos⟩ := ih
      exact ⟨t, List.mem_append_left _ ht, hpos⟩
  | nextItem _ _ _ ih _ =>
      obtain ⟨t, ht, hpos⟩ := ih
      exact ⟨t, List.mem_append_left _ ht, hpos⟩

/-- The expression of a part stands where one of the tokens of the part stands. -/
theorem Covers.exists_pos {ts : List Token} {p : Part} (h : Covers ts p) (reg : Registry) :
    ∃ t ∈ ts, (p.expr reg).pos = .ok t.pos := by
  cases p with
  | punct q pos =>
      obtain ⟨t, rfl, rfl, -⟩ := h
      exact ⟨t, List.mem_cons_self, rfl⟩
  | key pos s =>
      obtain ⟨t, c, rfl, rfl, -⟩ := h
      exact ⟨t, List.mem_cons_self, rfl⟩
  | value v =>
      obtain ⟨t, ht, hpos⟩ := Derives.exists_pos h
      refine ⟨t, ht, ?_⟩
      rw [← Option.some.inj hpos]
      exact v.pos_expr reg
  | pair m =>
      obtain ⟨t, ht, hpos⟩ := Derives.exists_pos h
      refine ⟨t, ht, ?_⟩
      rw [← Option.some.inj hpos]
      exact Tree.pos_memberExpr reg m
  | members m ms =>
      obtain ⟨t, ht, hpos⟩ := Derives.exists_pos h
      exact ⟨t, ht, congrArg Except.ok (Option.some.inj hpos)⟩
  | elements pos v vs =>
      obtain ⟨o, us, rfl, -, -, hus⟩ := h
      obtain ⟨t, ht, hpos⟩ := hus.exists_pos
      exact ⟨t, List.mem_cons_of_mem _ ht, congrArg Except.ok (Option.some.inj hpos)⟩

/-- Every part of a sequence stands for some of its tokens. -/
theorem Spans.exists_covers {ts : List Token} {parts : List Part} (h : Spans ts parts) {p : Part}
    (hp : p ∈ parts) : ∃ us, Covers us p ∧ us ⊆ ts := by
  induction h with
  | nil => cases hp
  | @cons ts us q ps hq _ ih =>
      rcases List.mem_cons.mp hp with rfl | hp
      · exact ⟨ts, hq, List.subset_append_left ts us⟩
      · obtain ⟨ws, hws, hsub⟩ := ih hp
        exact ⟨ws, hws, List.subset_append_of_subset_right ts hsub⟩

/-- A folding that is left with none or several parts had no tokens, or reports the place of one of
them. -/
theorem haltOf_cases {reg : Registry} (hreg : Part.Known reg) (source : Text) {ts : List Token}
    {rest : List Part} (h : Spans ts rest) :
    (ts = [] ∧ haltOf reg source rest = .failed (.emptyInput source)) ∨
      ∃ e t, haltOf reg source rest = .failed e ∧ e.report.code = Kind.incompleteTree.code ∧
        t ∈ ts ∧ e.report.pos = t.pos := by
  by_cases hne : rest = []
  · subst hne
    cases h
    exact .inl ⟨rfl, rfl⟩
  · have hseq : rest.map (Part.expr reg) ≠ [] := by simpa using hne
    have hhalt : haltOf reg source rest =
        (Parser.stall source (rest.map (Part.expr reg))).result := by
      obtain ⟨p, tail, rfl⟩ := List.exists_cons_of_ne_nil hne
      rfl
    obtain ⟨tag, place, names, hstall⟩ : ∃ tag place names,
        (Parser.stall source (rest.map (Part.expr reg))).result = .failed (.stalled source tag place
          names (rest.map (Part.expr reg))) :=
      Parser.stall_result (Part.owned_map_expr hreg rest) hseq
    obtain ⟨-, hpos, -⟩ := Parser.of_stall_eq hstall
    obtain ⟨p, hp, hculprit⟩ := List.mem_map.mp (Parser.blamed_culprit hseq).mem
    obtain ⟨us, hus, hsub⟩ := h.exists_covers hp
    obtain ⟨t, ht, hplace⟩ := hus.exists_pos reg
    rw [← hculprit, hplace] at hpos
    exact .inr ⟨_, t, hhalt.trans hstall, rfl, hsub ht, (Except.ok.inj hpos).symm⟩

/-- How the parsing of a text ends: with a tree, with an error of the scan at a rune of the text,
with the error of the first token without a leaf, without any tokens, or with leaves that cannot be
folded, at the place of a token. -/
inductive Ending (l : Language) (s : Source) : Except Halt Expr → Prop where
  | parsed {ts : List Token} (e : Expr) : l.grammar.lexer.scan s = .ok ts → ts ≠ [] →
      (∀ t ∈ ts, l.grammar.parser.Admits t) → Ending l s (.ok e)
  | lexical {e : LexicalError} {before : List Char} {r : Rune} {behind : List Rune} :
      l.grammar.lexer.scan s = .error e →
      Utf8.decode s.content = before.map .scalar ++ r :: behind →
      e.At l.grammar.lexer before r behind → Ending l s (.error (.failed (.lexical s.name e)))
  | refused {before behind : List Token} {t : Token} {e : ParseError} :
      l.grammar.lexer.scan s = .ok (before ++ t :: behind) →
      (∀ u ∈ before, l.grammar.parser.Admits u) → l.grammar.parser.Refuses t e →
      (∀ n, t.kind ≠ .other n) → Ending l s (.error (.failed e))
  | empty : l.grammar.lexer.scan s = .ok [] → Ending l s (.error (.failed (.emptyInput [])))
  | stalled {ts : List Token} {t : Token} {e : ParseError} : l.grammar.lexer.scan s = .ok ts →
      (∀ u ∈ ts, l.grammar.parser.Admits u) → t ∈ ts →
      e.report.code = Kind.incompleteTree.code → e.report.pos = t.pos →
      Ending l s (.error (.failed e))

section

variable {l : Language} {s : Source} {ts before behind : List Token} {t : Token} {e : ParseError}

/-- A text that is scanned is parsed as its tokens are. -/
theorem parse_of_scan (hscan : l.grammar.lexer.scan s = .ok ts) :
    l.parse s = (l.grammar.parser.parse l.registry ts).1.result := by
  rw [Language.parse, Grammar.parse, hscan]

/-- The first token without a leaf gives a text its error. -/
theorem parse_of_refuses (hscan : l.grammar.lexer.scan s = .ok (before ++ t :: behind))
    (hbefore : ∀ u ∈ before, l.grammar.parser.Admits u) (he : l.grammar.parser.Refuses t e) :
    l.parse s = .error (.failed e) := by
  have hclassify : (l.grammar.parser.classify l.registry (before ++ t :: behind)).1 = .error e :=
    Parser.classify_eq_error_iff.mpr ⟨before, t, behind, rfl, hbefore, he⟩
  rw [parse_of_scan hscan, Parser.parse_result]
  rcases hcase : l.grammar.parser.classify l.registry (before ++ t :: behind) with ⟨out, reg⟩
  rw [hcase] at hclassify
  obtain rfl : out = .error e := hclassify
  rfl

variable (hl : l.Built)

include hl

/-- The parsing of a text ends in one of the listed ways. -/
theorem ending_parse (s : Source) : Ending l s (l.parse s) := by
  cases hscan : l.grammar.lexer.scan s with
  | error fault =>
      obtain ⟨before, r, behind, hdecode, hat⟩ := Lexer.at_of_scan hscan
      rw [Language.parse, Grammar.parse, hscan]
      exact .lexical hscan hdecode hat
  | ok ts =>
      have hts := fun t (ht : t ∈ ts) ↦ lexeme_of_scan hl (hl.lexer ▸ hscan) ht
      obtain hadmits | ⟨before, t, behind, e, rfl, hbefore, he⟩ :=
        l.grammar.parser.admits_or_first_refused ts
      · obtain ⟨parts, hleaves⟩ := exists_leaves fun t ht ↦ (hts t ht).2 (hadmits t ht)
        rw [parse_of_scan hscan]
        obtain ⟨p, hok, hcovers, -⟩ | ⟨rest, herror, -, -, hspans, -⟩ := parse_leaves hl hleaves
        · rw [hok]
          exact .parsed _ hscan hcovers.ne_nil hadmits
        · rw [herror]
          obtain ⟨rfl, hhalt⟩ | ⟨e, t, hhalt, hcode, ht, hpos⟩ :=
            haltOf_cases hl.known (Parser.sourceName ts) hspans
          · rw [hhalt]
            exact .empty hscan
          · rw [hhalt]
            exact .stalled hscan hadmits ht hcode hpos
      · rw [parse_of_refuses hscan hbefore he]
        exact .refused hscan hbefore he (hts t (by simp)).1

end

/-- The blank characters of JSON texts. -/
theorem role_blank_iff {c : Char} :
    (lexicon.lexer.role c).Blank ↔ c ∈ [' ', '\n', '\t', '\r'] := by
  refine ⟨Lexer.mem_of_role_blank, ?_⟩
  intro h
  rw [lexer_lexicon]
  simp only [List.mem_cons, List.not_mem_nil, or_false] at h
  obtain rfl | rfl | rfl | rfl := h
  · exact .inl (by decide)
  · exact .inl (by decide)
  · exact .inr (by decide)
  · exact .inr (by decide)

/-- A text has no tokens exactly if it consists of spaces, newlines, tabs and carriage returns. -/
theorem scan_eq_nil_iff_blank (s : Source) :
    lexicon.lexer.scan s = .ok [] ↔ ∀ b ∈ s.content, b ∈ utf8 " \n\t\r" := by
  rw [Lexer.scan_eq_nil_iff rfl rfl]
  constructor
  · intro h b hb
    obtain ⟨cs, hcs, hblank⟩ := h
    rw [hcs] at hb
    obtain ⟨c, hc, hb⟩ := List.mem_flatMap.mp hb
    have hchar := role_blank_iff.mp (hblank c hc)
    simp only [List.mem_cons, List.not_mem_nil, or_false] at hchar
    obtain rfl | rfl | rfl | rfl := hchar <;> rw [List.mem_singleton.mp hb] <;> decide
  · intro h
    have hbytes : ∀ b ∈ s.content, b = 32 ∨ b = 10 ∨ b = 9 ∨ b = 13 := by
      intro b hb
      have hlist : utf8 " \n\t\r" = [32, 10, 9, 13] := rfl
      simpa [hlist] using h b hb
    refine ⟨s.content.map fun b ↦ Char.ofNat b.toNat, (Utf8.encodeAll_map_ofNat ?_).symm, ?_⟩
    · intro b hb
      obtain rfl | rfl | rfl | rfl := hbytes b hb <;> decide
    · intro c hc
      obtain ⟨b, hb, rfl⟩ := List.mem_map.mp hc
      rw [role_blank_iff]
      obtain rfl | rfl | rfl | rfl := hbytes b hb <;> decide

/-- Different kinds have different codes. -/
theorem code_injective : Function.Injective Kind.code := by
  have hall : ∀ k : Kind, k ∈ Kind.all := by
    intro k
    cases k <;> decide
  have hnodup : (Kind.all.map Kind.code).Nodup := by decide
  intro a b h
  exact List.inj_on_of_nodup_map hnodup (hall a) (hall b) h

/-- The kinds of errors of the scan. -/
def scanKinds : List Kind := [.wrongChar, .unterminatedString]

/-- The kinds of errors about tokens without a leaf. -/
def leafKinds : List Kind := [.invalidIdentifier, .integerRange, .badString]

/-- The kinds of errors of JSON texts. -/
def errorKinds : List Kind := scanKinds ++ leafKinds ++ [.incompleteTree, .emptyInput]

/-- The lexical stage reports the kinds of errors of the scan, and the reduction stage all others. -/
theorem stage_of_code {e : ParseError} {k : Kind} (hk : k ∈ errorKinds)
    (h : e.report.code = k.code) :
    (e.issue.isLexical = true ↔ k ∈ scanKinds) ∧ (e.issue.isReduction = true ↔ k ∉ scanKinds) := by
  have hgroups : ∀ k ∈ errorKinds, (Issue.inGroup Kind.lexicalBase k.code = true ↔ k ∈ scanKinds) ∧
      (Issue.inGroup Kind.reductionBase k.code = true ↔ k ∉ scanKinds) := by
    decide
  have hgroup := hgroups k hk
  rw [← h] at hgroup
  exact hgroup

/-- The error of a token of a known class is of one of three kinds, and points to the token. -/
theorem report_of_refuses {p : Parser} {t : Token} {e : ParseError} (h : p.Refuses t e)
    (hkind : ∀ n, t.kind ≠ .other n) :
    e.report.pos = t.pos ∧ ∃ k ∈ leafKinds, e.report.code = k.code := by
  obtain ⟨-, rfl⟩ | ⟨-, i, rfl⟩ | ⟨-, i, rfl⟩ | ⟨n, hother, -⟩ := h.cases
  · exact ⟨rfl, .invalidIdentifier, by decide, rfl⟩
  · exact ⟨rfl, .integerRange, by decide, rfl⟩
  · exact ⟨rfl, .badString, by decide, rfl⟩
  · exact absurd hother (hkind n)

/-- Without block comments, the error of a scan is about a character or about a literal. -/
theorem code_of_at {lexer : Lexer} (hblock : lexer.blockComments = false) {before : List Char}
    {r : Rune} {behind : List Rune} {e : LexicalError} (h : e.At lexer before r behind)
    (source : Text) : ∃ k ∈ scanKinds, (e.report source).code = k.code := by
  cases h with
  | stray | bad => exact ⟨.wrongChar, by decide, rfl⟩
  | literal => exact ⟨.unterminatedString, by decide, rfl⟩
  | comment _ h => exact nomatch h.symm.trans hblock

/-- The position leads to the rune of a text that its scan cannot get past, or to a token of it. -/
def PointsInto (lexer : Lexer) (s : Source) (pos : Pos) : Prop :=
  (∃ e before r behind, lexer.scan s = .error e ∧
      Utf8.decode s.content = before.map .scalar ++ r :: behind ∧ e.At lexer before r behind ∧
      s.offset pos = (Utf8.encodeAll before).length) ∨
    ∃ ts t, lexer.scan s = .ok ts ∧ t ∈ ts ∧ (s.offset pos : Int) = t.offset

/-- What holds of the error of a text: its kind, the stage that reports it, that errors about leaves
are those of the first token without one, and where it points to. -/
structure Diagnosed (l : Language) (s : Source) (e : ParseError) : Prop where
  kind : ∃ k ∈ errorKinds, e.report.code = k.code
  lexical : e.issue.isLexical = true ↔ ∃ fault, l.grammar.lexer.scan s = .error fault
  reduction : e.issue.isReduction = true ↔ ∃ ts, l.grammar.lexer.scan s = .ok ts
  leaf : (∃ k ∈ leafKinds, e.report.code = k.code) ↔
    ∃ before t behind, l.grammar.lexer.scan s = .ok (before ++ t :: behind) ∧
      (∀ u ∈ before, l.grammar.parser.Admits u) ∧ l.grammar.parser.Refuses t e
  incomplete : e.report.code = Kind.incompleteTree.code →
    ∃ ts, l.grammar.lexer.scan s = .ok ts ∧ ∀ t ∈ ts, l.grammar.parser.Admits t
  place : e.report.code = Kind.emptyInput.code ∨ PointsInto l.grammar.lexer s e.report.pos

section

variable {l : Language} {s : Source} {e : ParseError} {k : Kind}

/-- An error of the scan is diagnosed. -/
theorem diagnosed_of_scan_error {fault : LexicalError} (hscan : l.grammar.lexer.scan s = .error fault)
    (hk : k ∈ scanKinds) (hcode : e.report.code = k.code)
    (hplace : PointsInto l.grammar.lexer s e.report.pos) : Diagnosed l s e := by
  have hkind : k ∈ errorKinds := by
    have hsub : scanKinds ⊆ errorKinds := by decide
    exact hsub hk
  obtain ⟨hlexical, hreduction⟩ := stage_of_code hkind hcode
  have hother : ∀ k' : Kind, k' ∉ scanKinds → e.report.code ≠ k'.code := by
    intro k' hk' h
    obtain rfl := code_injective (hcode.symm.trans h)
    exact hk' hk
  refine ⟨⟨k, hkind, hcode⟩, ?_, ?_, ?_, ?_, .inr hplace⟩
  · simp [hlexical, hk, hscan]
  · simp [hreduction, hk, hscan]
  · constructor
    · intro h
      obtain ⟨k', hk', h⟩ := h
      have hdisjoint : ∀ k' ∈ leafKinds, k' ∉ scanKinds := by decide
      exact absurd h (hother k' (hdisjoint k' hk'))
    · intro h
      obtain ⟨before, t, behind, hok, -⟩ := h
      cases hok.symm.trans hscan
  · intro h
    exact absurd h (hother .incompleteTree (by decide))

/-- An error behind the scan is diagnosed. -/
theorem diagnosed_of_scan_ok {ts : List Token} (hscan : l.grammar.lexer.scan s = .ok ts)
    (hk : k ∈ errorKinds) (hstage : k ∉ scanKinds) (hcode : e.report.code = k.code)
    (hleaf : k ∈ leafKinds ↔ ∃ before t behind, ts = before ++ t :: behind ∧
      (∀ u ∈ before, l.grammar.parser.Admits u) ∧ l.grammar.parser.Refuses t e)
    (hincomplete : k = .incompleteTree → ∀ t ∈ ts, l.grammar.parser.Admits t)
    (hplace : k = .emptyInput ∨ ∃ t ∈ ts, e.report.pos = t.pos) : Diagnosed l s e := by
  obtain ⟨hlexical, hreduction⟩ := stage_of_code hk hcode
  have hsame : ∀ k' : Kind, e.report.code = k'.code ↔ k = k' := by
    intro k'
    rw [hcode]
    exact code_injective.eq_iff
  refine ⟨⟨k, hk, hcode⟩, ?_, ?_, ?_, ?_, ?_⟩
  · simp [hlexical, hstage, hscan]
  · simp [hreduction, hstage, hscan]
  · simpa [hsame, hscan] using hleaf
  · intro h
    exact ⟨ts, hscan, hincomplete ((hsame _).mp h)⟩
  · obtain hempty | ⟨t, ht, hpos⟩ := hplace
    · exact .inl ((hsame _).mpr hempty)
    · refine .inr (.inr ⟨ts, t, hscan, ht, ?_⟩)
      rw [hpos]
      exact Lexer.offset_of_scan hscan ht

/-- Tokens that all have leaves have no first one without. -/
theorem not_refused_of_admits {ts : List Token} (h : ∀ t ∈ ts, l.grammar.parser.Admits t) :
    ¬ ∃ before t behind, ts = before ++ t :: behind ∧
      (∀ u ∈ before, l.grammar.parser.Admits u) ∧ l.grammar.parser.Refuses t e := by
  intro hrefused
  obtain ⟨before, t, behind, rfl, -, he⟩ := hrefused
  exact (h t (by simp)).not_refuses e he

/-- Every error that a parse ends with is diagnosed. -/
theorem Ending.diagnosed (hl : l.Built) (h : Ending l s (.error (.failed e))) :
    Diagnosed l s e := by
  cases h with
  | @lexical fault before r behind hscan hdecode hat =>
      have hblock : l.grammar.lexer.blockComments = false := by rw [hl.lexer]; rfl
      obtain ⟨k, hk, hcode⟩ := code_of_at hblock hat s.name
      refine diagnosed_of_scan_error hscan hk hcode (.inl ⟨_, before, r, behind, hscan, hdecode,
        hat, ?_⟩)
      show s.offset (fault.report s.name).pos = _
      rw [hat.report_pos]
      exact Source.offset_of_decode hdecode
  | @refused before behind t _ hscan hbefore he hkind =>
      obtain ⟨hpos, k, hk, hcode⟩ := report_of_refuses he hkind
      have hkinds : ∀ k ∈ leafKinds, k ∈ errorKinds ∧ k ∉ scanKinds ∧ k ≠ .incompleteTree := by
        decide
      obtain ⟨herror, hstage, hother⟩ := hkinds k hk
      refine diagnosed_of_scan_ok hscan herror hstage hcode ?_ ?_ ?_
      · exact ⟨fun _ ↦ ⟨before, t, behind, rfl, hbefore, he⟩, fun _ ↦ hk⟩
      · intro h
        exact absurd h hother
      · exact .inr ⟨t, by simp, hpos⟩
  | empty hscan =>
      refine diagnosed_of_scan_ok (k := .emptyInput) hscan (by decide) (by decide) rfl ?_ nofun
        (.inl rfl)
      simp [leafKinds]
  | @stalled ts t _ hscan hadmits ht hcode hpos =>
      refine diagnosed_of_scan_ok hscan (by decide) (by decide) hcode ?_ (fun _ ↦ hadmits)
        (.inr ⟨t, ht, hpos⟩)
      simpa [leafKinds] using not_refused_of_admits hadmits

/-- A text is empty exactly if its scan gives no tokens. -/
theorem Ending.code_eq_emptyInput_iff (hl : l.Built) (h : Ending l s (.error (.failed e))) :
    e.report.code = Kind.emptyInput.code ↔ l.grammar.lexer.scan s = .ok [] := by
  have hne : ∀ k ∈ scanKinds ++ leafKinds ++ [Kind.incompleteTree],
      k.code ≠ Kind.emptyInput.code := by
    decide
  cases h with
  | lexical hscan _ hat =>
      have hblock : l.grammar.lexer.blockComments = false := by rw [hl.lexer]; rfl
      obtain ⟨k, hk, hcode⟩ := code_of_at hblock hat s.name
      rw [hscan]
      simpa [ParseError.report, hcode] using hne k (by simp [hk])
  | refused hscan _ he hkind =>
      obtain ⟨-, k, hk, hcode⟩ := report_of_refuses he hkind
      rw [hscan, hcode]
      simpa using hne k (by simp [hk])
  | empty hscan => exact ⟨fun _ ↦ hscan, fun _ ↦ rfl⟩
  | stalled hscan _ ht hcode _ =>
      rw [hscan, hcode]
      simpa [List.ne_nil_of_mem ht] using hne .incompleteTree (by decide)

end

/-- For every text, the front end gives an expression or an error, and the error is diagnosed. A text
of blank characters alone is the only one with the error of an empty input, and the first token
without a leaf decides the error of the text. -/
theorem parse_error_kinds {report : Bool} {l : Language} (hl : Language.build report = .ok l)
    (s : Source) :
    ((∃ e, l.parse s = .ok e) ∨ ∃ e, l.parse s = .error (.failed e)) ∧
      (∀ e, l.parse s = .error (.failed e) → Diagnosed l s e) ∧
      ((∃ e, l.parse s = .error (.failed e) ∧ e.report.code = Kind.emptyInput.code) ↔
        ∀ b ∈ s.content, b ∈ utf8 " \n\t\r") ∧
      ∀ before t behind e, l.grammar.lexer.scan s = .ok (before ++ t :: behind) →
        (∀ u ∈ before, l.grammar.parser.Admits u) → l.grammar.parser.Refuses t e →
        l.parse s = .error (.failed e) := by
  have hbuilt := Language.built_of_build hl
  have hending := ending_parse hbuilt s
  have hdiagnosed : ∀ e, l.parse s = .error (.failed e) → Diagnosed l s e := by
    intro e he
    rw [he] at hending
    exact hending.diagnosed hbuilt
  have hends : (∃ e, l.parse s = .ok e) ∨ ∃ e, l.parse s = .error (.failed e) := by
    generalize l.parse s = out at hending
    cases hending with
    | parsed e => exact .inl ⟨e, rfl⟩
    | _ => exact .inr ⟨_, rfl⟩
  refine ⟨hends, hdiagnosed, ?_, fun before t behind e hscan hbefore he ↦
    parse_of_refuses hscan hbefore he⟩
  rw [← scan_eq_nil_iff_blank, ← hbuilt.lexer]
  constructor
  · intro h
    obtain ⟨e, he, hcode⟩ := h
    rw [he] at hending
    exact (hending.code_eq_emptyInput_iff hbuilt).mp hcode
  · intro hscan
    obtain ⟨e, he⟩ | ⟨e, he⟩ := hends
    · rw [he] at hending
      cases hending with
      | parsed _ hok hne =>
          cases hok.symm.trans hscan
          exact absurd rfl hne
    · rw [he] at hending
      exact ⟨e, he, (hending.code_eq_emptyInput_iff hbuilt).mpr hscan⟩

/-- A text of one blank character of each sort has the error of an empty input. -/
theorem parse_error_kinds_blank :
    ∃ l e, Language.build true = .ok l ∧
      l.parse ⟨utf8 "in", utf8 " \t\r\n"⟩ = .error (.failed e) ∧
      e.report.code = Kind.emptyInput.code ∧ Diagnosed l ⟨utf8 "in", utf8 " \t\r\n"⟩ e := by
  obtain ⟨l, hl⟩ := Language.exists_build true
  obtain ⟨-, hdiagnosed, hempty, -⟩ := parse_error_kinds hl ⟨utf8 "in", utf8 " \t\r\n"⟩
  have hblank : ∀ b ∈ utf8 " \t\r\n", b ∈ utf8 " \n\t\r" := by
    show ∀ b ∈ ([32, 9, 13, 10] : Text), b ∈ ([32, 10, 9, 13] : Text)
    simp
  obtain ⟨e, he, hcode⟩ := hempty.mpr hblank
  exact ⟨l, e, hl, he, hcode, hdiagnosed e he⟩

end Tagfold.Json
