import Tagfold.Proofs.Reduction.Matching
import Tagfold.Proofs.Reduction.Search

/-!
# Runs of a reduction

One attempt to fold has a result as soon as the chosen reducer has one, whether or not rivals are
reported: `Parser.attempt_of_chosen`. A whole reduction is followed with an invariant and a weight
that every attempt lowers. `Parser.reduceLoop_ends` is the rule for it: within a budget of at least
the weight, the reduction ends with one expression that satisfies the invariant, or where an attempt
finds no match.
-/

namespace Tagfold

namespace Expr

variable {reg : Registry} {e : Expr}

/-- An expression with an owned tag is there. -/
theorem Owned.ne_hole (h : e.Owned reg) : e ≠ hole := by
  rintro rfl
  obtain ⟨t, ht, -⟩ := h
  cases ht

end Expr

namespace Parser

variable {reg : Registry} {source : Text} {seq before behind : List Expr} {c : Candidate}

/-- Replacing a span that starts behind some expressions keeps them and what follows the span. -/
theorem replaceSpan_append (m : Match) (e : Expr) (h : m.pos = before.length) :
    replaceSpan (before ++ behind) m e = before ++ e :: behind.drop m.len := by
  simp [replaceSpan, h, List.drop_append]

/-- A rule whose reducer gives an expression with an owned tag is applied. -/
theorem apply_ok (hseq : ∀ e ∈ seq, e.Owned reg) (hpos : c.site.pos < seq.length) {e : Expr}
    (he : e.Owned reg) (hreduce : c.rule.reduce seq c.site.pos = .ok e) :
    ∃ entry, apply reg source seq c = .ok (replaceSpan seq c.site e, entry) := by
  have hfirst : seq[c.site.pos]? = some seq[c.site.pos] := List.getElem?_eq_getElem hpos
  obtain ⟨name, hname⟩ := Expr.name_ok (hseq _ (List.getElem_mem hpos)).ne_hole
  obtain ⟨p, hp⟩ := Expr.pos_ok (hseq _ (List.getElem_mem hpos)).ne_hole
  obtain ⟨q, hq⟩ := Expr.pos_ok he.ne_hole
  obtain ⟨t, ht, howns⟩ := he
  refine ⟨.reduced c.rule.name c.site t.name q, ?_⟩
  cases e with
  | hole => cases ht
  | leaf =>
      simp [apply, hfirst, hname, hp, hreduce, ht, hq, howns, Halt.ofMisuse, Except.mapError, bind,
        Except.bind, pure, Except.pure]
  | node =>
      simp [apply, hfirst, hname, hp, hreduce, ht, hq, howns, Halt.ofMisuse, Except.mapError, bind,
        Except.bind, pure, Except.pure]

/-- A parser in its registry: no name is repeated there, and the compiled rules represent the rules
of the table. -/
structure Runs (p : Parser) (reg : Registry) (rs : List Rule) : Prop where
  nodup : reg.names.Nodup
  table : TableOf reg p.rules rs

variable {p : Parser} {rs earlier : List Rule} {r : Rule}

/-- A chosen rule whose pattern is not empty starts inside the sequence. -/
theorem Chosen.pos_lt (h : Chosen reg rs seq c earlier r before behind) (hr : r.pattern ≠ []) :
    c.site.pos < seq.length := by
  have hlen := Matcher.length_le_of_fits h.fits
  have hpattern := List.length_pos_iff.mpr hr
  rw [h.pos, h.split, List.length_append]
  omega

/-- An attempt folds the span of the chosen rule as soon as the reducer has a result. -/
theorem attempt_of_chosen (hseq : ∀ e ∈ seq, e.Owned reg)
    (hmatch : p.firstMatch seq = .ok (some c)) (h : Chosen reg rs seq c earlier r before behind)
    (hr : r.pattern ≠ []) {e : Expr} (he : e.Owned reg)
    (hreduce : c.rule.reduce seq before.length = .ok e) (report : Bool) :
    (p.attempt reg report source seq).result =
      .ok (some (before ++ e :: behind.drop r.pattern.length)) := by
  have hpos := h.pos_lt hr
  have hspan : replaceSpan seq c.site e = before ++ e :: behind.drop r.pattern.length := by
    rw [h.split, replaceSpan_append _ _ h.pos, h.len]
  rw [← h.pos] at hreduce
  obtain ⟨entry, happly⟩ : ∃ entry, apply reg source seq c = .ok (_, entry) :=
    apply_ok hseq hpos he hreduce
  obtain ⟨warnings, hwarnings⟩ := p.ambiguity_ok (fun e he ↦ (hseq e he).ne_hole) hpos
  cases report with
  | false => simp [attempt, hmatch, happly, hspan]
  | true => simp [attempt, hmatch, hwarnings, happly, hspan]

/-- An attempt without a match folds nothing. -/
theorem attempt_of_no_match (hmatch : p.firstMatch seq = .ok none) (report : Bool) :
    (p.attempt reg report source seq).result = .ok none := by
  simp [attempt, hmatch]

/-- A stalled sequence of owned tags is reported as such, whatever its culprit is. -/
theorem stall_result (hseq : ∀ e ∈ seq, e.Owned reg) (hne : seq ≠ []) :
    ∃ tag place names, (stall source seq).result =
      .failed (.stalled source tag place names seq) := by
  have hculprit : (culprit seq).Owned reg := by
    obtain ⟨a, rest, rfl⟩ := List.exists_cons_of_ne_nil hne
    unfold culprit
    cases hfind : (a :: rest).find? (!·.text.isEmpty) with
    | none => simpa using hseq a List.mem_cons_self
    | some b => simpa using hseq b (List.mem_of_find?_eq_some hfind)
  obtain ⟨tag, htag⟩ := Expr.name_ok hculprit.ne_hole
  obtain ⟨place, hplace⟩ := Expr.pos_ok hculprit.ne_hole
  obtain ⟨names, hnames⟩ := Expr.tagNames_ok fun e he ↦ (hseq e he).ne_hole
  exact ⟨tag, place, names, by simp [stall, htag, hplace, hnames]⟩

/-- The rule for whole reductions. The sequences are views of states, which may hold more than a
sequence does. Every attempt from a state of two or more expressions that satisfies the invariant
either finds no match, in which case the stall is a permitted end, or leads to a state that keeps
the invariant and has a lower weight. Then a reduction whose budget covers the weight ends as
permitted. -/
theorem reduceLoop_ends {σ : Type} (view : σ → List Expr) (Inv : σ → Prop) (weight : σ → Nat)
    (Ends : Except Halt Expr → Prop) (hone : ∀ s e, Inv s → view s = [e] → Ends (.ok e))
    (hstep : ∀ s, Inv s → 2 ≤ (view s).length →
      ((p.attempt reg p.reportAmbiguity source (view s)).result = .ok none ∧
          Ends (.error (stall source (view s)).result)) ∨
        ∃ s', (p.attempt reg p.reportAmbiguity source (view s)).result = .ok (some (view s')) ∧
          view s' ≠ [] ∧ Inv s' ∧ weight s' < weight s)
    (hweight : ∀ s, 2 ≤ (view s).length → 0 < weight s) (budget : Nat) (log : List LogEntry) {s : σ}
    (hne : view s ≠ []) (hinv : Inv s) (hbudget : weight s ≤ budget) :
    Ends (p.reduceLoop reg source budget log (view s)).result := by
  induction budget generalizing s log with
  | zero =>
      -- One expression is a result even without budget, and more of them have a weight.
      rcases hview : view s with _ | ⟨e, _ | ⟨b, rest⟩⟩
      · exact absurd hview hne
      · exact hone s e hinv hview
      · have := hweight s (by simp [hview])
        omega
  | succ budget ih =>
      rcases hview : view s with _ | ⟨e, _ | ⟨b, rest⟩⟩
      · exact absurd hview hne
      · exact hone s e hinv hview
      · have htwo : 2 ≤ (view s).length := by simp [hview]
        rcases hstep s hinv htwo with ⟨hnone, hstall⟩ | ⟨s', hsome, hfolded, hinv', hlower⟩
        · rw [hview] at hnone hstall
          simpa [reduceLoop, hnone] using hstall
        · rw [hview] at hsome
          have hrest := fun log ↦ ih log hfolded hinv' (by omega)
          simpa [reduceLoop, hsome] using hrest _

end Parser

end Tagfold
