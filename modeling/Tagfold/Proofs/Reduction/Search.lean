import Tagfold.Proofs.Rule.Compilation
import Tagfold.Reduction.Engine

/-!
# Searching for matches

What the searches find in a sequence, whatever its tags are. A match starts inside the sequence, and
where the first match is searched for in vain there is none at all: `Candidate.allFrom_of_firstFrom`.
As long as no expression is missing, a search has a result, and so has the report about the rivals
of a match: `Parser.ambiguity_ok`.
-/

namespace Tagfold

namespace Expr

variable {e : Expr}

/-- An expression that is there has a tag. -/
theorem tag_ok (h : e ≠ hole) : ∃ t, e.tag = .ok t := by
  cases e with
  | hole => exact absurd rfl h
  | leaf t _ _ _ => exact ⟨t, rfl⟩
  | node t _ _ => exact ⟨t, rfl⟩

/-- An expression that is there has a position. -/
theorem pos_ok (h : e ≠ hole) : ∃ p, e.pos = .ok p := by
  cases e with
  | hole => exact absurd rfl h
  | leaf _ p _ _ => exact ⟨p, rfl⟩
  | node _ p _ => exact ⟨p, rfl⟩

/-- An expression that is there has a name. -/
theorem name_ok (h : e ≠ hole) : ∃ name, e.name = .ok name := by
  obtain ⟨t, ht⟩ := tag_ok h
  exact ⟨t.name, by simp [name, ht, Except.map]⟩

/-- Expressions that are all there have names. -/
theorem tagNames_ok {seq : List Expr} (h : ∀ e ∈ seq, e ≠ hole) :
    ∃ names, tagNames seq = .ok names := by
  suffices hs : ∃ names, seq.mapM name = .ok names by
    obtain ⟨names, hnames⟩ := hs
    exact ⟨Text.join (utf8 " ") names, by simp [tagNames, hnames, Except.map]⟩
  induction seq with
  | nil => exact ⟨[], rfl⟩
  | cons e es ih =>
      obtain ⟨name, hname⟩ := name_ok (h e List.mem_cons_self)
      obtain ⟨names, hnames⟩ := ih fun a ha ↦ h a (List.mem_cons_of_mem _ ha)
      refine ⟨name :: names, ?_⟩
      rw [List.mapM_cons, hname, hnames]
      rfl

end Expr

namespace CompiledRule

variable {c : CompiledRule} {seq : List Expr} {count start i : Nat}

/-- A sequence has at least as many expressions as its length says. -/
theorem hasLength_iff {n : Nat} : hasLength n seq = true ↔ n ≤ seq.length := by
  induction n generalizing seq with
  | zero => simp [hasLength]
  | succ n ih =>
      cases seq with
      | nil => simp [hasLength]
      | cons e es => simp [hasLength, ih]

/-- With enough expressions left, a rule matches where its sets accept them. -/
theorem matchesAt_of_le (h : i + c.width ≤ seq.length) :
    c.matchesAt seq i = acceptsHead c.sets (seq.drop i) := by
  rw [matchesAt, if_pos (hasLength_iff.mpr h)]

/-- Where too few expressions are left, a rule does not match. -/
theorem matchesAt_of_lt (h : seq.length < i + c.width) : c.matchesAt seq i = .ok false := by
  rw [matchesAt, if_neg]
  rw [hasLength_iff]
  omega

/-- At a place that is tried, a rule matches as it does at the head of what is left there. -/
theorem matchesAt_drop (h : i < c.places seq) : c.matchesAt (seq.drop i) 0 = c.matchesAt seq i := by
  rw [places] at h
  rw [matchesAt_of_le, matchesAt_of_le, List.drop_zero]
  · omega
  · rw [List.length_drop]
    omega

/-- A match is found among the places that are tried, and an empty pattern at the first of them. -/
theorem findFrom_bounds (h : c.findFrom count start seq = .ok (some i)) :
    i < start + count ∧ (c.sets = [] → i = start) := by
  induction count generalizing start seq with
  | zero => cases h
  | succ count ih =>
      rw [findFrom] at h
      obtain ⟨here, hhere, h⟩ := Except.bind_eq_ok_iff.mp h
      cases here with
      | true =>
          cases h
          exact ⟨by omega, fun _ ↦ rfl⟩
      | false =>
          obtain ⟨hlt, -⟩ := ih h
          refine ⟨by omega, fun hempty ↦ ?_⟩
          rw [matchesAt_of_le (by simp [width, hempty]), hempty] at hhere
          cases hhere

/-- Expressions that are all there can be matched. -/
theorem acceptsHead_ok (sets : List TagSet) (h : ∀ e ∈ seq, e ≠ .hole) :
    ∃ accepted, acceptsHead sets seq = .ok accepted := by
  induction sets generalizing seq with
  | nil => exact ⟨true, rfl⟩
  | cons s sets ih =>
      cases seq with
      | nil => exact ⟨false, rfl⟩
      | cons e es =>
          obtain ⟨accepted, haccepted⟩ := ih fun a ha ↦ h a (List.mem_cons_of_mem _ ha)
          obtain ⟨t, ht⟩ := Expr.tag_ok (h e List.mem_cons_self)
          rw [acceptsHead, ht]
          simp only [bind, Except.bind, haccepted]
          split
          · exact ⟨accepted, rfl⟩
          · exact ⟨false, rfl⟩

/-- Among expressions that are all there, a rule either matches at an index or does not. -/
theorem matchesAt_ok (c : CompiledRule) (h : ∀ e ∈ seq, e ≠ .hole) (i : Nat) :
    ∃ matched, c.matchesAt seq i = .ok matched := by
  unfold matchesAt
  split
  · exact acceptsHead_ok c.sets fun e he ↦ h e (List.mem_of_mem_drop he)
  · exact ⟨false, rfl⟩

/-- Among expressions that are all there, all matches can be listed. -/
theorem findAllFrom_ok (c : CompiledRule) (h : ∀ e ∈ seq, e ≠ .hole) (count start : Nat) :
    ∃ all, c.findAllFrom count start seq = .ok all := by
  induction count generalizing start seq with
  | zero => exact ⟨[], rfl⟩
  | succ count ih =>
      obtain ⟨here, hhere⟩ := c.matchesAt_ok h 0
      obtain ⟨later, hlater⟩ := ih (fun a ha ↦ h a (List.mem_of_mem_tail ha)) (start + 1)
      rw [findAllFrom, hhere]
      simp only [bind, Except.bind, hlater]
      exact ⟨_, rfl⟩

end CompiledRule

namespace Candidate

variable {seq : List Expr} {index : Nat} {rules : List CompiledRule}

/-- A match starts inside a sequence of at least one expression. -/
theorem pos_lt_of_firstFrom (hne : seq ≠ []) {c : Candidate}
    (h : firstFrom seq index rules = .ok (some c)) : c.site.pos < seq.length := by
  induction rules generalizing index with
  | nil => cases h
  | cons r rules ih =>
      rw [firstFrom] at h
      obtain ⟨found, hfound, h⟩ := Except.bind_eq_ok_iff.mp h
      cases found with
      | none => exact ih h
      | some pos =>
          cases h
          obtain ⟨hlt, hempty⟩ := CompiledRule.findFrom_bounds hfound
          have hlength := List.length_pos_iff.mpr hne
          show pos < seq.length
          by_cases hwidth : r.sets = []
          · rw [hempty hwidth]
            exact hlength
          · have hpos := List.length_pos_iff.mpr hwidth
            simp only [CompiledRule.places, CompiledRule.width] at hlt
            omega

/-- Among expressions that are all there, all matches of a table can be listed. -/
theorem allFrom_ok (h : ∀ e ∈ seq, e ≠ .hole) (index : Nat) (rules : List CompiledRule) :
    ∃ all, allFrom seq index rules = .ok all := by
  induction rules generalizing index with
  | nil => exact ⟨[], rfl⟩
  | cons r rules ih =>
      obtain ⟨here, hhere⟩ := r.findAllFrom_ok h (r.places seq) 0
      obtain ⟨later, hlater⟩ := ih (index + 1)
      rw [allFrom, CompiledRule.findAll, hhere, hlater]
      exact ⟨_, rfl⟩

end Candidate

/-- Among expressions that are all there, the rivals of a match can be reported. -/
theorem Parser.ambiguity_ok (p : Parser) {seq : List Expr} {c : Candidate}
    (h : ∀ e ∈ seq, e ≠ .hole) (hpos : c.site.pos < seq.length) :
    ∃ warnings, p.ambiguity seq c = .ok warnings := by
  obtain ⟨all, hall⟩ := Candidate.allFrom_ok h 0 p.rules
  have hfirst : seq[c.site.pos]? = some seq[c.site.pos] := List.getElem?_eq_getElem hpos
  obtain ⟨place, hplace⟩ := Expr.pos_ok (h _ (List.getElem_mem hpos))
  obtain ⟨pending, hpending⟩ := Expr.tagNames_ok h
  simp only [ambiguity, rivals, hall, bind, Except.bind, pure, Except.pure, hfirst,
    Option.getD_some, hplace, hpending]
  split <;> exact ⟨_, rfl⟩

end Tagfold
