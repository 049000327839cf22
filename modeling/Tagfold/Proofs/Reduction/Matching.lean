import Tagfold.Proofs.Reduction.Search

/-!
# Matching by names

On a sequence whose tags are owned by the registry, compiled rules match by the names of the tags.
`Matcher.fits` says when a pattern fits the head of a sequence, and `CompiledRule.find?_eq` that a
compiled rule finds the leftmost place at which its pattern fits. `Parser.firstMatch_cases` is what
the rest of the theory uses: either no rule occurs in the sequence, or the first rule that does is
chosen at its leftmost occurrence.
-/

namespace Tagfold

/-- The expression has a tag that the registry owns. -/
def Expr.Owned (reg : Registry) (e : Expr) : Prop :=
  ∃ t, e.tag = .ok t ∧ reg.owns t = true

namespace Matcher

/-- The matcher names the tag of the expression. -/
def accepts (m : Matcher) (e : Expr) : Bool :=
  match e.tag with
  | .ok t => m.names.contains t.name
  | .error _ => false

/-- The matchers accept the expressions at the head of a sequence, one by one. -/
def fits : List Matcher → List Expr → Bool
  | [], _ => true
  | _ :: _, [] => false
  | m :: ms, e :: es => m.accepts e && fits ms es

/-- The matchers accept a span of the sequence somewhere. -/
def Occurs (ms : List Matcher) (seq : List Expr) : Prop :=
  ∃ before behind, seq = before ++ behind ∧ fits ms behind = true

/-- A pattern fits only where enough expressions are left. -/
theorem length_le_of_fits {ms : List Matcher} {seq : List Expr} (h : fits ms seq = true) :
    ms.length ≤ seq.length := by
  induction ms generalizing seq with
  | nil => simp
  | cons m ms ih =>
      cases seq with
      | nil => simp [fits] at h
      | cons e es =>
          simp only [fits, Bool.and_eq_true] at h
          simpa using ih h.2

end Matcher

namespace CompiledRule

variable {reg : Registry} {sets : List TagSet} {ms : List Matcher} {seq : List Expr}

/-- Every place of a compiled pattern has the set of its matcher. -/
abbrev SetsOf (reg : Registry) (sets : List TagSet) (ms : List Matcher) : Prop :=
  List.Forall₂ (fun (s : TagSet) (m : Matcher) ↦ s.Means reg m.names) sets ms

/-- Sets accept a sequence of owned tags by their names. -/
theorem acceptsHead_eq (hn : reg.names.Nodup) (hsets : SetsOf reg sets ms)
    (hseq : ∀ e ∈ seq, e.Owned reg) : acceptsHead sets seq = .ok (Matcher.fits ms seq) := by
  induction hsets generalizing seq with
  | nil => rfl
  | cons hs _ ih =>
      cases seq with
      | nil => rfl
      | cons e es =>
          obtain ⟨t, ht, howns⟩ := hseq e List.mem_cons_self
          have hmeans := hs reg (.refl reg) hn t howns
          have hrest := ih fun a ha ↦ hseq a (List.mem_cons_of_mem _ ha)
          simp only [acceptsHead, ht, hrest, bind, Except.bind, Matcher.fits, Matcher.accepts]
          split
          · next hc => simp [hmeans.mp hc]
          · next hc =>
              have hnot := mt hmeans.mpr hc
              simp [hnot, pure, Except.pure]

variable {c : CompiledRule} {r : Rule}

/-- On owned tags, a compiled rule matches where its pattern fits and does not go beyond the end. -/
theorem matchesAt_eq (hn : reg.names.Nodup) (hc : c.Represents reg r)
    (hseq : ∀ e ∈ seq, e.Owned reg) (i : Nat) :
    c.matchesAt seq i = .ok (decide (i + r.pattern.length ≤ seq.length) &&
      Matcher.fits r.pattern (seq.drop i)) := by
  by_cases hroom : i + r.pattern.length ≤ seq.length
  · rw [matchesAt_of_le (hc.width_eq ▸ hroom), decide_eq_true hroom, Bool.true_and]
    exact acceptsHead_eq hn hc.sets fun e he ↦ hseq e (List.mem_of_mem_drop he)
  · rw [matchesAt_of_lt (by rw [hc.width_eq]; omega), decide_eq_false hroom, Bool.false_and]

/-- The search finds the first place at which the pattern fits. -/
theorem findFrom_eq (hn : reg.names.Nodup) (hc : c.Represents reg r)
    (hseq : ∀ e ∈ seq, e.Owned reg) {count start : Nat} (hroom : start + count ≤ c.places seq) :
    c.findFrom count start (seq.drop start) =
      .ok ((List.range' start count).find? fun i ↦ Matcher.fits r.pattern (seq.drop i)) := by
  induction count generalizing start with
  | zero => rfl
  | succ count ih =>
      have hhere : c.matchesAt (seq.drop start) 0 =
          .ok (Matcher.fits r.pattern (seq.drop start)) := by
        have hfits : start + r.pattern.length ≤ seq.length := by
          rw [places, hc.width_eq] at hroom
          omega
        rw [matchesAt_drop (by omega), matchesAt_eq hn hc hseq, decide_eq_true hfits, Bool.true_and]
      rw [findFrom, hhere, List.tail_drop, ih (by omega), List.range'_succ, List.find?_cons]
      cases Matcher.fits r.pattern (seq.drop start) <;> rfl

/-- A compiled rule finds the leftmost place at which the pattern of its rule fits. -/
theorem find?_eq (hn : reg.names.Nodup) (hc : c.Represents reg r)
    (hseq : ∀ e ∈ seq, e.Owned reg) :
    c.find? seq =
      .ok ((List.range (c.places seq)).find? fun i ↦ Matcher.fits r.pattern (seq.drop i)) := by
  have hsearch := findFrom_eq hn hc hseq (Nat.le_of_eq (Nat.zero_add (c.places seq)))
  rwa [List.drop_zero, ← List.range_eq_range'] at hsearch

/-- The pattern of a rule occurs exactly if one of the places it is tried at fits. -/
theorem occurs_iff (hc : c.Represents reg r) :
    Matcher.Occurs r.pattern seq ↔
      ∃ i < c.places seq, Matcher.fits r.pattern (seq.drop i) = true := by
  constructor
  · rintro ⟨before, behind, rfl, hfits⟩
    refine ⟨before.length, ?_, by simpa using hfits⟩
    have hlen := Matcher.length_le_of_fits hfits
    simp only [places, hc.width_eq, List.length_append]
    omega
  · rintro ⟨i, -, hfits⟩
    exact ⟨seq.take i, seq.drop i, (List.take_append_drop i seq).symm, hfits⟩

/-- Without an occurrence of its pattern a compiled rule finds nothing. -/
theorem find?_of_not_occurs (hn : reg.names.Nodup) (hc : c.Represents reg r)
    (hseq : ∀ e ∈ seq, e.Owned reg) (h : ¬ Matcher.Occurs r.pattern seq) :
    c.find? seq = .ok none := by
  rw [find?_eq hn hc hseq, List.find?_eq_none.mpr]
  intro i hi hfits
  exact h ((occurs_iff hc).mpr ⟨i, List.mem_range.mp hi, hfits⟩)

/-- With an occurrence of its pattern a compiled rule finds the leftmost one. -/
theorem find?_of_occurs (hn : reg.names.Nodup) (hc : c.Represents reg r)
    (hseq : ∀ e ∈ seq, e.Owned reg) (h : Matcher.Occurs r.pattern seq) :
    ∃ before behind, seq = before ++ behind ∧ c.find? seq = .ok (some before.length) ∧
      Matcher.fits r.pattern behind = true ∧
      ∀ i < before.length, Matcher.fits r.pattern (seq.drop i) = false := by
  obtain ⟨i, hi, hfits⟩ := (occurs_iff hc).mp h
  rw [find?_eq hn hc hseq]
  cases hfind : (List.range (c.places seq)).find? fun i ↦ Matcher.fits r.pattern (seq.drop i) with
  | none => exact absurd hfits (List.find?_eq_none.mp hfind i (List.mem_range.mpr hi))
  | some j =>
      obtain ⟨hj, hjlt, hfirst⟩ := List.find?_range_eq_some.mp hfind
      have hlen : j ≤ seq.length := by
        have := List.mem_range.mp hjlt
        simp only [places] at this
        omega
      have htake : (seq.take j).length = j := by simp [hlen]
      refine ⟨seq.take j, seq.drop j, (List.take_append_drop j seq).symm, by rw [htake], hj, ?_⟩
      intro k hk
      rw [htake] at hk
      simpa using hfirst k hk

end CompiledRule

namespace Parser

variable {reg : Registry} {seq : List Expr}

/-- Every compiled rule represents its rule. -/
abbrev TableOf (reg : Registry) (cs : List CompiledRule) (rs : List Rule) : Prop :=
  List.Forall₂ (fun (c : CompiledRule) (r : Rule) ↦ c.Represents reg r) cs rs

/-- The candidate applies the first rule that occurs, at its leftmost occurrence: the sequence is
split before it, and no earlier rule occurs. -/
structure Chosen (reg : Registry) (rs : List Rule) (seq : List Expr) (c : Candidate)
    (earlier : List Rule) (r : Rule) (before behind : List Expr) : Prop where
  rule : c.rule.Represents reg r
  table : ∃ later, rs = earlier ++ r :: later
  split : seq = before ++ behind
  pos : c.site.pos = before.length
  len : c.site.len = r.pattern.length
  fits : Matcher.fits r.pattern behind = true
  first : ∀ a ∈ earlier, ¬ Matcher.Occurs a.pattern seq
  leftmost : ∀ i < before.length, Matcher.fits r.pattern (seq.drop i) = false

/-- Either no rule of a table occurs, or the first one that does is chosen. The first rule of the
table has the given index. -/
theorem firstFrom_cases (hn : reg.names.Nodup) {cs : List CompiledRule} {rs : List Rule}
    (htable : TableOf reg cs rs) (hseq : ∀ e ∈ seq, e.Owned reg) (index : Nat) :
    (Candidate.firstFrom seq index cs = .ok none ∧ ∀ r ∈ rs, ¬ Matcher.Occurs r.pattern seq) ∨
      ∃ c earlier r before behind, Candidate.firstFrom seq index cs = .ok (some c) ∧
        c.site.rule = index + earlier.length ∧ Chosen reg rs seq c earlier r before behind := by
  induction htable generalizing index with
  | nil => exact .inl ⟨rfl, by simp⟩
  | @cons c r cs rs hc _ ih =>
      by_cases hoccurs : Matcher.Occurs r.pattern seq
      · obtain ⟨before, behind, hsplit, hfind, hfits, hleft⟩ :=
          CompiledRule.find?_of_occurs hn hc hseq hoccurs
        refine .inr ⟨⟨c, ⟨index, before.length, c.width⟩⟩, [], r, before, behind, ?_, rfl, ?_⟩
        · simp [Candidate.firstFrom, hfind, bind, Except.bind, pure, Except.pure]
        · exact ⟨hc, ⟨rs, rfl⟩, hsplit, rfl, hc.width_eq, hfits, by simp, hleft⟩
      · have hskip : Candidate.firstFrom seq index (c :: cs) =
            Candidate.firstFrom seq (index + 1) cs := by
          simp [Candidate.firstFrom, CompiledRule.find?_of_not_occurs hn hc hseq hoccurs, bind,
            Except.bind]
        rw [hskip]
        rcases ih (index + 1) with
          ⟨hnone, hall⟩ | ⟨d, earlier, a, before, behind, hsome, hindex, hd⟩
        · exact .inl ⟨hnone, by simpa using ⟨hoccurs, hall⟩⟩
        · obtain ⟨later, hlater⟩ := hd.table
          refine .inr ⟨d, r :: earlier, a, before, behind, hsome, ?_, ?_⟩
          · rw [hindex, List.length_cons]
            omega
          · exact { hd with
              table := ⟨later, by rw [hlater, List.cons_append]⟩
              first := by simpa using ⟨hoccurs, hd.first⟩ }

/-- Either no rule of a parser occurs, or the first one that does is chosen. -/
theorem firstMatch_cases {p : Parser} {rs : List Rule} (hn : reg.names.Nodup)
    (htable : TableOf reg p.rules rs) (hseq : ∀ e ∈ seq, e.Owned reg) :
    (p.firstMatch seq = .ok none ∧ ∀ r ∈ rs, ¬ Matcher.Occurs r.pattern seq) ∨
      ∃ c earlier r before behind, p.firstMatch seq = .ok (some c) ∧
        Chosen reg rs seq c earlier r before behind := by
  obtain hnone | ⟨c, earlier, r, before, behind, hsome, -, hc⟩ := firstFrom_cases hn htable hseq 0
  · exact .inl hnone
  · exact .inr ⟨c, earlier, r, before, behind, hsome, hc⟩

end Parser

end Tagfold
