import Tagfold.Grammar
import Tagfold.Proofs.Reduction.Iteration
import Tagfold.Proofs.Token.Tiling

/-!
# The source that an error names

The name of a source comes into an error on three ways: scanning knows the source, an error about a
token takes the name from the token, and a reduction takes it from the first token. On all three it
is the name of the parsed source, except that without tokens there is nothing to take it from. Read
`Grammar.parse_error_source` first: an error names its source unless the source has a name and no
tokens.
-/

namespace Tagfold

/-- A lexical error names the source that is scanned. -/
theorem LexicalError.report_source (source : Text) (e : LexicalError) :
    (e.report source).source = source := by
  cases e with
  | wrongChar | unterminatedString | unterminatedComment => rfl

namespace Parser

variable {p : Parser} {reg : Registry} {source : Text} {seq : List Expr} {ts : List Token}
  {e : ParseError}

/-- The error of a token without a leaf names the source of the token. -/
theorem Refuses.report_source {t : Token} (h : p.Refuses t e) : e.report.source = t.source := by
  obtain ⟨-, rfl⟩ | ⟨-, _, rfl⟩ | ⟨-, _, rfl⟩ | ⟨_, -, rfl⟩ := h.cases <;> rfl

/-- The error of a token list names the source of its tokens. -/
theorem classify_error_source (hts : ∀ t ∈ ts, t.source = source)
    (h : (p.classify reg ts).1 = .error e) : e.report.source = source := by
  obtain ⟨before, t, behind, rfl, -, hrefuses⟩ := classify_eq_error_iff.mp h
  rw [hrefuses.report_source]
  exact hts t (List.mem_append_right _ List.mem_cons_self)

/-- A stall names the source of the reduction. -/
theorem stall_source (h : (stall source seq).result = .failed e) : e.report.source = source := by
  unfold stall at h
  split at h
  · cases h
    rfl
  · cases h

/-- A failed attempt names the source of the reduction. -/
theorem attempt_source {report : Bool}
    (h : (p.attempt reg report source seq).result = .error (.failed e)) :
    e.report.source = source := by
  unfold attempt at h
  split at h
  · cases h
  · cases h
  · next c _ =>
      split at h
      · cases h
      · obtain ⟨_, hc⟩ | ⟨_, _, _, hc⟩ | ⟨_, _, _, -, -, -, hc⟩ := apply_cases reg seq c
        · rw [hc source] at h
          cases h
        · rw [hc source] at h
          cases h
          rfl
        · rw [hc source] at h
          cases h

/-- A failed reduction names its source: the step at which it ends does. -/
theorem reduceLoop_source {budget : Nat} {log : List LogEntry}
    (h : (p.reduceLoop reg source budget log seq).result = .error (.failed e)) :
    e.report.source = source := by
  fun_induction reduceLoop p reg source budget log seq with
  | case1 =>
      cases h
      rfl
  | case2 => cases h
  | case3 => cases h
  | case4 _ _ _ _ _ tried _ halt htried =>
      cases h
      exact attempt_source htried
  | case5 => exact stall_source (Except.error.inj h)
  | case6 _ _ _ _ _ _ _ _ _ ih => exact ih h

/-- Tokens of one source are parsed under its name, and without tokens there is no name. -/
theorem sourceName_eq (hts : ∀ t ∈ ts, t.source = source) :
    sourceName ts = if ts = [] then [] else source := by
  cases ts with
  | nil => rfl
  | cons t ts => simpa [sourceName] using hts t List.mem_cons_self

/-- The error of parsing tokens of one source names it, if there are tokens. -/
theorem source_of_parse_error (hts : ∀ t ∈ ts, t.source = source)
    (h : (p.parse reg ts).1.result = .error (.failed e)) :
    e.report.source = if ts = [] then [] else source := by
  unfold parse at h
  split at h
  · next hclassify =>
      cases h
      have herror := congrArg Prod.fst hclassify
      obtain ⟨before, t, behind, hsplit, -⟩ := classify_eq_error_iff.mp herror
      rw [if_neg (by simp [hsplit])]
      exact classify_error_source hts herror
  · rw [reduceLoop_source h, sourceName_eq hts]

end Parser

namespace Grammar

/-- Every error of a source, of whatever stage, names the source, exactly if the source has no name
or is not a source without tokens. Such a source always fails, and its error names nothing. -/
theorem parse_error_source (g : Grammar) (reg : Registry) (s : Source) :
    (g.lexer.scan s = .ok [] →
        (g.parse reg s).1.result = .error (.failed (.emptyInput []))) ∧
      ∀ e, (g.parse reg s).1.result = .error (.failed e) →
        (e.report.source = s.name ↔ s.name = [] ∨ g.lexer.scan s ≠ .ok []) := by
  unfold parse
  cases hscan : g.lexer.scan s with
  | error err =>
      refine ⟨nofun, fun e he ↦ ?_⟩
      cases he
      exact ⟨fun _ ↦ .inr nofun, fun _ ↦ err.report_source s.name⟩
  | ok ts =>
      have hts : ∀ t ∈ ts, t.source = s.name := by
        intro t ht
        obtain ⟨tile, before, htile, hfits⟩ := Lexer.exists_fits_of_scan hscan ht
        exact hfits.source_eq htile
      refine ⟨fun hempty ↦ ?_, fun e he ↦ ?_⟩
      · cases hempty
        show (g.parser.reduceLoop reg [] (g.parser.budget 0) [] []).result = _
        cases g.parser.budget 0 <;> rfl
      · rw [Parser.source_of_parse_error hts he]
        by_cases hempty : ts = []
        · simp [hempty, eq_comm]
        · simp [hempty]

/-- A comment in a source of the name `in` has no tokens, and the error does not name the source. -/
theorem parse_error_source_comment :
    (Lexer.mk [] [] [] true false fun _ ↦ false).scan ⟨utf8 "in", utf8 "// a"⟩ = .ok [] ∧
      ((Grammar.mk (utf8 "g") ⟨[], [], [], true, false, fun _ ↦ false⟩
        ⟨[], fun _ ↦ false, stripDelimiters, false, id, .zero, .zero, .zero⟩).parse .empty
          ⟨utf8 "in", utf8 "// a"⟩).1.result = .error (.failed (.emptyInput [])) ∧
      (ParseError.emptyInput []).report.source ≠ utf8 "in" := by
  have hscan : (Lexer.mk [] [] [] true false fun _ ↦ false).scan ⟨utf8 "in", utf8 "// a"⟩ =
      .ok [] := by
    have hcs : utf8 "// a" = Utf8.encodeAll ['/', '/', ' ', 'a'] := rfl
    rw [Lexer.scan_eq_tokensFrom _ hcs]
    rfl
  obtain ⟨hempty, hsource⟩ := parse_error_source (.mk (utf8 "g") _
    ⟨[], fun _ ↦ false, stripDelimiters, false, id, .zero, .zero, .zero⟩) .empty
    ⟨utf8 "in", utf8 "// a"⟩
  refine ⟨hscan, hempty hscan, fun hname ↦ ?_⟩
  obtain hname | hscan' := (hsource _ (hempty hscan)).mp hname
  · cases hname
  · exact hscan' hscan

end Grammar

end Tagfold
