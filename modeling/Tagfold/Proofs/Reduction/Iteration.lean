import Tagfold.Grammar
import Tagfold.Proofs.Reduction.Classification
import Tagfold.Proofs.Reduction.Search

/-!
# Reduction is iterated folding

`Parser.step` folds once, and a reduction has a loop of its own. `Parser.Iterates` is the loop that
does nothing but step: it goes on while more than one expression is left, and ends with the error of
a step or, where no rule matches, with a stall. `Parser.reduce_iterates_step` says that a
reduction comes to exactly what this loop comes to within the budget, that parsing is the same
reduction of the leaves up to the source named in errors, and what a stall reports.
-/

namespace Tagfold

/-- The error of a reduction, told of another source. -/
def ParseError.inSource (source : Text) : ParseError → ParseError
  | emptyInput _ => emptyInput source
  | reducer _ rule tag place failure => reducer source rule tag place failure
  | stalled _ tag place names remaining => stalled source tag place names remaining
  | e => e

/-- The end of a reduction, told of another source. -/
def Halt.inSource (source : Text) : Halt → Halt
  | failed e => failed (e.inSource source)
  | h => h

/-- The expression that is blamed for a sequence: the first leaf made of a text, and the first
expression if there is no such leaf. -/
def Expr.Blamed (seq : List Expr) (e : Expr) : Prop :=
  (∃ before behind, seq = before ++ e :: behind ∧ e.text ≠ [] ∧ ∀ a ∈ before, a.text = []) ∨
    ((∀ a ∈ seq, a.text = []) ∧ seq.head? = some e)

/-- The blamed expression is one of the sequence. -/
theorem Expr.Blamed.mem {seq : List Expr} {e : Expr} (h : Blamed seq e) : e ∈ seq := by
  obtain ⟨before, behind, rfl, -⟩ | ⟨-, hhead⟩ := h
  · exact List.mem_append_right _ List.mem_cons_self
  · exact List.mem_of_head? hhead

namespace Parser

variable {p : Parser} {reg : Registry} {source : Text} {seq folded : List Expr}

/-- What applying a rule comes to, whatever the source is: a misuse, an error at the start of the
span, or the result of the reducer in place of the span, with a tag that the registry owns. -/
theorem apply_cases (reg : Registry) (seq : List Expr) (c : Candidate) :
    (∃ m, ∀ source, apply reg source seq c = .error (.misused m)) ∨
      (∃ name place failure, ∀ source, apply reg source seq c =
        .error (.failed (.reducer source c.rule.name name place failure))) ∨
      ∃ e t q, c.rule.reduce seq c.site.pos = .ok e ∧ e.tag = .ok t ∧ reg.owns t = true ∧
        ∀ source, apply reg source seq c =
          .ok (replaceSpan seq c.site e, .reduced c.rule.name c.site t.name q) := by
  unfold apply
  dsimp only
  cases (seq[c.site.pos]?.getD .hole).name with
  | error m => exact .inl ⟨m, fun _ ↦ rfl⟩
  | ok name =>
      cases (seq[c.site.pos]?.getD .hole).pos with
      | error m => exact .inl ⟨m, fun _ ↦ rfl⟩
      | ok place =>
          cases hreduce : c.rule.reduce seq c.site.pos with
          | error fault =>
              cases fault with
              | misuse m => exact .inl ⟨m, fun _ ↦ rfl⟩
              | issue i => exact .inr (.inl ⟨name, place, .failed i, fun _ ↦ rfl⟩)
          | ok e =>
              by_cases hole : e = .hole
              · subst hole
                exact .inr (.inl ⟨name, place, .noResult, fun _ ↦ rfl⟩)
              · obtain ⟨t, ht⟩ := Expr.tag_ok hole
                obtain ⟨q, hq⟩ := Expr.pos_ok hole
                by_cases howns : reg.owns t = true
                · refine .inr (.inr ⟨e, t, q, rfl, ht, howns, fun _ ↦ ?_⟩)
                  simp [Halt.ofMisuse, Except.mapError, bind, Except.bind, ht, howns, hq, pure,
                    Except.pure]
                · refine .inr (.inl ⟨name, place, .unknownTag t.name, fun _ ↦ ?_⟩)
                  simp [Halt.ofMisuse, Except.mapError, bind, Except.bind, ht, howns]

/-- What one step comes to: a misuse, an error of the reducer, no match, or a sequence in which the
span of a match is folded into an expression with an owned tag. -/
theorem step_cases (p : Parser) (reg : Registry) (seq : List Expr) :
    (∃ m, (p.step reg seq).result = .error (.misused m)) ∨
      (∃ rule name place failure, (p.step reg seq).result =
        .error (.failed (.reducer [] rule name place failure))) ∨
      ((p.step reg seq).result = .ok none ∧ p.firstMatch seq = .ok none) ∨
      ∃ m e t, e.tag = .ok t ∧ reg.owns t = true ∧
        (p.step reg seq).result = .ok (some (replaceSpan seq m e)) := by
  unfold step attempt
  cases hmatch : p.firstMatch seq with
  | error m => exact .inl ⟨m, rfl⟩
  | ok found =>
      cases found with
      | none => exact .inr (.inr (.inl ⟨rfl, rfl⟩))
      | some c =>
          obtain ⟨m, h⟩ | ⟨name, place, failure, h⟩ | ⟨e, t, q, -, ht, howns, h⟩ :=
            apply_cases reg seq c
          · exact .inl ⟨m, by simp [h]⟩
          · exact .inr (.inl ⟨c.rule.name, name, place, failure, by simp [h]⟩)
          · exact .inr (.inr (.inr ⟨c.site, e, t, ht, howns, by simp [h]⟩))

/-- Where every expression is there or rivals are not reported, an attempt does what a step does,
and its errors name the source. -/
theorem attempt_eq_step (source : Text) (hne : seq ≠ [])
    (hpresent : p.reportAmbiguity = true → ∀ e ∈ seq, e ≠ .hole) :
    (p.attempt reg p.reportAmbiguity source seq).result =
      (p.step reg seq).result.mapError (Halt.inSource source) := by
  unfold step attempt
  cases hmatch : p.firstMatch seq with
  | error m => rfl
  | ok found =>
      cases found with
      | none => rfl
      | some c =>
          have hwarnings : ∃ warnings,
              (if p.reportAmbiguity = true then p.ambiguity seq c else .ok []) = .ok warnings := by
            split
            · next hreport =>
                exact p.ambiguity_ok (hpresent hreport) (Candidate.pos_lt_of_firstFrom hne hmatch)
            · exact ⟨[], rfl⟩
          obtain ⟨warnings, hwarnings⟩ := hwarnings
          obtain ⟨m, h⟩ | ⟨name, place, failure, h⟩ | ⟨e, t, q, -, -, -, h⟩ := apply_cases reg seq c
          · simp [hwarnings, h, Except.mapError, Halt.inSource]
          · simp [hwarnings, h, Except.mapError, Halt.inSource, ParseError.inSource]
          · simp [hwarnings, h, Except.mapError]

/-- What is left of a sequence behind a replacement is of the sequence, or the replacement. -/
theorem mem_replaceSpan {m : Match} {e a : Expr} (h : a ∈ replaceSpan seq m e) :
    a = e ∨ a ∈ seq := by
  rcases List.mem_append.mp h with h | h
  · exact .inr (List.mem_of_mem_take h)
  · rcases List.mem_cons.mp h with rfl | h
    · exact .inl rfl
    · exact .inr (List.mem_of_mem_drop h)

/-- A step leaves at least one expression, and loses none that is there. -/
theorem step_present (h : (p.step reg seq).result = .ok (some folded)) :
    folded ≠ [] ∧ ((∀ e ∈ seq, e ≠ .hole) → ∀ e ∈ folded, e ≠ .hole) := by
  obtain ⟨m, hm⟩ | ⟨_, _, _, _, hm⟩ | ⟨hm, -⟩ | ⟨m, e, t, ht, -, hm⟩ := step_cases p reg seq
  · cases hm.symm.trans h
  · cases hm.symm.trans h
  · cases hm.symm.trans h
  · cases hm.symm.trans h
    refine ⟨by simp [replaceSpan], ?_⟩
    intro hseq a ha
    rcases mem_replaceSpan ha with rfl | ha
    · intro hole
      subst hole
      cases ht
    · exact hseq a ha

/-- The stall of a sequence is the same in every source up to its name. -/
theorem stall_inSource (source : Text) (seq : List Expr) :
    (stall source seq).result = (stall [] seq).result.inSource source := by
  unfold stall
  cases Expr.tagNames seq <;> cases (culprit seq).name <;> cases (culprit seq).pos <;> rfl

section Loops

variable (p reg)

/-- Folding step by step until one expression is left, with the number of steps that are tried. -/
inductive Iterates : Nat → List Expr → Except Halt Expr → Prop where
  | done (e : Expr) : Iterates 0 [e] (.ok e)
  | failed {seq : List Expr} {h : Halt} : 2 ≤ seq.length → (p.step reg seq).result = .error h →
      Iterates 1 seq (.error h)
  | stalled {seq : List Expr} : 2 ≤ seq.length → (p.step reg seq).result = .ok none →
      Iterates 1 seq (.error (stall [] seq).result)
  | again {n : Nat} {seq folded : List Expr} {out : Except Halt Expr} : 2 ≤ seq.length →
      (p.step reg seq).result = .ok (some folded) → Iterates n folded out →
      Iterates (n + 1) seq out

/-- A number of successful steps leads from one sequence to another. -/
inductive Steps : Nat → List Expr → List Expr → Prop where
  | refl (seq : List Expr) : Steps 0 seq seq
  | head {n : Nat} {seq folded last : List Expr} : 2 ≤ seq.length →
      (p.step reg seq).result = .ok (some folded) → Steps n folded last → Steps (n + 1) seq last

end Loops

/-- Within a number of steps, the folding has ended or goes on. -/
theorem iterates_or_steps (p : Parser) (reg : Registry) (budget : Nat) (hne : seq ≠ []) :
    (∃ n ≤ budget, ∃ out, p.Iterates reg n seq out) ∨
      ∃ last, p.Steps reg budget seq last ∧ 2 ≤ last.length := by
  induction budget generalizing seq with
  | zero =>
      rcases seq with _ | ⟨e, _ | ⟨b, rest⟩⟩
      · exact absurd rfl hne
      · exact .inl ⟨0, Nat.le_refl 0, _, .done e⟩
      · exact .inr ⟨_, .refl _, by simp⟩
  | succ budget ih =>
      rcases seq with _ | ⟨e, _ | ⟨b, rest⟩⟩
      · exact absurd rfl hne
      · exact .inl ⟨0, Nat.zero_le _, _, .done e⟩
      · have htwo : 2 ≤ (e :: b :: rest).length := by simp
        cases hstep : (p.step reg (e :: b :: rest)).result with
        | error h => exact .inl ⟨1, by omega, _, .failed htwo hstep⟩
        | ok found =>
            cases found with
            | none => exact .inl ⟨1, by omega, _, .stalled htwo hstep⟩
            | some folded =>
                obtain ⟨n, hn, out, hout⟩ | ⟨last, hlast, hlength⟩ := ih (step_present hstep).1
                · exact .inl ⟨n + 1, by omega, out, .again htwo hstep hout⟩
                · exact .inr ⟨last, .head htwo hstep hlast, hlength⟩

/-- One round of the loop on two or more expressions does what a step does. -/
theorem reduceLoop_succ (source : Text) (budget : Nat) (log : List LogEntry) (htwo : 2 ≤ seq.length)
    (hpresent : p.reportAmbiguity = true → ∀ e ∈ seq, e ≠ .hole) :
    ∃ log', (p.reduceLoop reg source (budget + 1) log seq).result =
      match (p.step reg seq).result with
      | .error h => .error (h.inSource source)
      | .ok none => .error ((stall [] seq).result.inSource source)
      | .ok (some folded) => (p.reduceLoop reg source budget log' folded).result := by
  rcases seq with _ | ⟨e, _ | ⟨b, rest⟩⟩
  · simp at htwo
  · simp at htwo
  · refine ⟨(p.attempt reg p.reportAmbiguity source (e :: b :: rest)).log.reverse ++ log, ?_⟩
    simp only [reduceLoop, attempt_eq_step source (List.cons_ne_nil _ _) hpresent]
    cases (p.step reg (e :: b :: rest)).result with
    | error h => rfl
    | ok found =>
        cases found with
        | none => exact congrArg Except.error (stall_inSource source _)
        | some folded => rfl

/-- What the loop of steps comes to within the budget, the reduction comes to. -/
theorem Iterates.reduceLoop_eq {n : Nat} {out : Except Halt Expr} (h : p.Iterates reg n seq out)
    (hpresent : p.reportAmbiguity = true → ∀ e ∈ seq, e ≠ .hole) (source : Text) {budget : Nat}
    (hbudget : n ≤ budget) (log : List LogEntry) :
    (p.reduceLoop reg source budget log seq).result = out.mapError (Halt.inSource source) := by
  induction h generalizing budget log with
  | done e => cases budget <;> rfl
  | failed htwo hstep =>
      obtain ⟨budget, rfl⟩ := Nat.exists_eq_add_of_le' hbudget
      obtain ⟨log', hloop⟩ := reduceLoop_succ source budget log htwo hpresent
      rw [hloop, hstep]
      rfl
  | stalled htwo hstep =>
      obtain ⟨budget, rfl⟩ := Nat.exists_eq_add_of_le' hbudget
      obtain ⟨log', hloop⟩ := reduceLoop_succ source budget log htwo hpresent
      rw [hloop, hstep]
      rfl
  | again htwo hstep _ ih =>
      obtain ⟨budget, rfl⟩ := Nat.exists_eq_succ_of_ne_zero (show budget ≠ 0 by omega)
      obtain ⟨log', hloop⟩ := reduceLoop_succ source budget log htwo hpresent
      rw [hloop, hstep]
      exact ih (fun hreport ↦ (step_present hstep).2 (hpresent hreport)) (by omega) log'

/-- While the loop of steps goes on, the reduction is over its budget. -/
theorem Steps.reduceLoop_eq {budget : Nat} {last : List Expr} (h : p.Steps reg budget seq last)
    (hlast : 2 ≤ last.length) (hpresent : p.reportAmbiguity = true → ∀ e ∈ seq, e ≠ .hole)
    (source : Text) (log : List LogEntry) :
    (p.reduceLoop reg source budget log seq).result = .error .overBudget := by
  induction h generalizing log with
  | refl seq =>
      rcases seq with _ | ⟨e, _ | ⟨b, rest⟩⟩
      · simp at hlast
      · simp at hlast
      · rfl
  | head htwo hstep _ ih =>
      obtain ⟨log', hloop⟩ := reduceLoop_succ source _ log htwo hpresent
      rw [hloop, hstep]
      exact ih hlast (fun hreport ↦ (step_present hstep).2 (hpresent hreport)) log'

/-- Naming a source twice is naming the second one. -/
theorem mapError_inSource (out : Except Halt Expr) (source other : Text) :
    (out.mapError (Halt.inSource other)).mapError (Halt.inSource source) =
      out.mapError (Halt.inSource source) := by
  cases out with
  | ok e => rfl
  | error h =>
      cases h with
      | failed e => cases e <;> rfl
      | misused m => rfl
      | overBudget => rfl

/-- A reduction in a source is the same as without one, up to the source that errors name. -/
theorem reduceIn_eq_reduce (p : Parser) (reg : Registry) (source : Text)
    (hpresent : p.reportAmbiguity = true → ∀ e ∈ seq, e ≠ .hole) :
    (p.reduceIn reg source seq).result =
      (p.reduce reg seq).result.mapError (Halt.inSource source) := by
  unfold reduce reduceIn
  by_cases hne : seq = []
  · subst hne
    cases p.budget 0 <;> rfl
  · obtain ⟨n, hn, out, hout⟩ | ⟨last, hsteps, hlast⟩ :=
      iterates_or_steps p reg (p.budget seq.length) hne
    · rw [hout.reduceLoop_eq hpresent source hn, hout.reduceLoop_eq hpresent [] hn,
        mapError_inSource]
    · rw [hsteps.reduceLoop_eq hlast hpresent, hsteps.reduceLoop_eq hlast hpresent]
      rfl

/-- The culprit of a sequence is the expression that is blamed for it. -/
theorem blamed_culprit (hne : seq ≠ []) : Expr.Blamed seq (culprit seq) := by
  unfold culprit
  cases hfind : seq.find? (!·.text.isEmpty) with
  | none =>
      refine .inr ⟨fun a ha ↦ ?_, ?_⟩
      · simpa using List.find?_eq_none.mp hfind a ha
      · obtain ⟨a, rest, rfl⟩ := List.exists_cons_of_ne_nil hne
        rfl
  | some e =>
      obtain ⟨he, before, behind, hsplit, hbefore⟩ := List.find?_eq_some_iff_append.mp hfind
      refine .inl ⟨before, behind, hsplit, by simpa using he, fun a ha ↦ ?_⟩
      simpa using hbefore a ha

/-- A stall reports the sequence, and the name and position of its culprit. -/
theorem of_stall_eq {e : ParseError} (h : (stall source seq).result = .failed e) :
    e.remaining? = some seq ∧ (culprit seq).pos = .ok e.report.pos ∧
      (culprit seq).name = .ok e.report.text := by
  unfold stall at h
  cases hnames : Expr.tagNames seq with
  | error m => rw [hnames] at h; cases h
  | ok names =>
      cases htag : (culprit seq).name with
      | error m => rw [hnames, htag] at h; cases h
      | ok tag =>
          cases hplace : (culprit seq).pos with
          | error m => rw [hnames, htag, hplace] at h; cases h
          | ok place =>
              rw [hnames, htag, hplace] at h
              cases h
              exact ⟨rfl, rfl, rfl⟩

section Reductions

variable (hpresent : p.reportAmbiguity = true → ∀ e ∈ seq, e ≠ .hole)

include hpresent

end Reductions

/-- The tokens of a source are parsed by reducing their leaves, with the source named in errors. -/
theorem parse_result (p : Parser) (reg : Registry) (ts : List Token) :
    (p.parse reg ts).1.result =
      match p.classify reg ts with
      | (.error e, _) => .error (.failed e)
      | (.ok leaves, reg') =>
        (p.reduce reg' leaves).result.mapError (Halt.inSource (sourceName ts)) := by
  rw [parse]
  rcases hclassify : p.classify reg ts with ⟨e | leaves, reg'⟩
  · rfl
  · refine p.reduceIn_eq_reduce reg' (sourceName ts) fun _ ↦ ?_
    exact classify_present (congrArg Prod.fst hclassify)

end Parser

end Tagfold
