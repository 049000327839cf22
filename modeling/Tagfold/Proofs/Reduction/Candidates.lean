import Tagfold.Proofs.Reduction.Naming
import Tagfold.Proofs.Rule.Numbers

/-!
# All matches

The parser looks for matches twice: a step searches for the first one, and a report lists them all.
`Match.Holds` says what a match is without any search, and `Candidate.mem_allFrom_iff` that the list
has exactly the matches, by rule and position. `Candidate.firstFrom_eq_head?` joins the two
searches. Read `Parser.candidates_enumerate` first; it adds what a step does with the first match.
-/

namespace Tagfold

namespace Match

/-- The match is listed before the other: its rule is earlier, or it is a match of the same rule
further to the left. -/
def Before (m other : Match) : Prop :=
  m.rule < other.rule ∨ (m.rule = other.rule ∧ m.pos < other.pos)

/-- The table matches the sequence there: the rule with the index of the match has a matcher for
each place of the span, the span ends within the sequence, and every matcher admits the tag at its
place. -/
def Holds (reg : Registry) (rs : List Rule) (seq : List Expr) (m : Match) : Prop :=
  ∃ r, rs[m.rule]? = some r ∧ m.len = r.pattern.length ∧ m.pos + m.len ≤ seq.length ∧
    ∀ (k : Nat) (a : Matcher), r.pattern[k]? = some a →
      ∃ e t, seq[m.pos + k]? = some e ∧ e.tag = .ok t ∧ a.Admits reg t

end Match

namespace CompiledRule

variable {sets : List TagSet} {seq : List Expr} {c : CompiledRule} {count start i : Nat}

/-- Sets accept the head of a sequence if each of them contains the tag at its place. -/
theorem acceptsHead_eq_true_iff :
    acceptsHead sets seq = .ok true ↔ ∀ (k : Nat) (s : TagSet), sets[k]? = some s →
      ∃ e t, seq[k]? = some e ∧ e.tag = .ok t ∧ s.contains t = true := by
  induction sets generalizing seq with
  | nil => simp [acceptsHead]
  | cons s sets ih =>
      cases seq with
      | nil =>
          refine iff_of_false (fun h ↦ ?_) (fun h ↦ ?_)
          · cases h
          · obtain ⟨e, t, he, -⟩ := h 0 s rfl
            cases he
      | cons e es =>
          constructor
          · intro h k a ha
            rw [acceptsHead] at h
            obtain ⟨t, ht, h⟩ := Except.bind_eq_ok_iff.mp h
            by_cases hs : s.contains t = true
            · rw [if_pos hs] at h
              cases k with
              | zero =>
                  cases ha
                  exact ⟨e, t, rfl, ht, hs⟩
              | succ k => exact ih.mp h k a ha
            · rw [if_neg hs] at h
              cases h
          · intro h
            obtain ⟨_, t, he, ht, hs⟩ := h 0 s rfl
            cases he
            rw [acceptsHead, ht]
            show (if s.contains t = true then acceptsHead sets es else .ok false) = .ok true
            rw [if_pos hs]
            exact ih.mpr fun k a ha ↦ h (k + 1) a ha

/-- A rule matches at an index if its width fits there and each of its sets contains the tag at its
place. -/
theorem matchesAt_eq_true_iff :
    c.matchesAt seq i = .ok true ↔
      i + c.width ≤ seq.length ∧ acceptsHead c.sets (seq.drop i) = .ok true := by
  constructor
  · intro h
    by_cases hroom : i + c.width ≤ seq.length
    · rw [matchesAt_of_le hroom] at h
      exact ⟨hroom, h⟩
    · rw [matchesAt_of_lt (by omega)] at h
      cases h
  · rintro ⟨hroom, haccepts⟩
    rwa [matchesAt_of_le hroom]

/-- A compiled rule matches where the matchers of its rule admit the tags. -/
theorem Compares.matchesAt_iff {reg : Registry} {r : Rule} (h : c.Compares reg r) :
    c.matchesAt seq i = .ok true ↔ i + r.pattern.length ≤ seq.length ∧
      ∀ (k : Nat) (a : Matcher), r.pattern[k]? = some a →
        ∃ e t, seq[i + k]? = some e ∧ e.tag = .ok t ∧ a.Admits reg t := by
  have hsets : ∀ (k : Nat) (s : TagSet) (a : Matcher), c.sets[k]? = some s →
      r.pattern[k]? = some a → ∀ t, s.contains t = true ↔ a.Admits reg t := by
    intro k s a hs ha
    obtain ⟨hlt, rfl⟩ := List.getElem?_eq_some_iff.mp hs
    obtain ⟨hlt', rfl⟩ := List.getElem?_eq_some_iff.mp ha
    exact h.sets.get hlt hlt' reg (.refl reg)
  have hlength : c.sets.length = r.pattern.length := h.sets.length_eq
  rw [matchesAt_eq_true_iff, acceptsHead_eq_true_iff, h.width_eq]
  simp only [List.getElem?_drop]
  refine and_congr_right fun _ ↦ ⟨fun hall k a ha ↦ ?_, fun hall k s hs ↦ ?_⟩
  · have hlt : k < c.sets.length := hlength ▸ (List.getElem?_eq_some_iff.mp ha).1
    have hs : c.sets[k]? = some c.sets[k] := List.getElem?_eq_getElem hlt
    obtain ⟨e, t, he, ht, hcontains⟩ := hall k _ hs
    exact ⟨e, t, he, ht, (hsets k _ a hs ha t).mp hcontains⟩
  · have hlt : k < r.pattern.length := hlength ▸ (List.getElem?_eq_some_iff.mp hs).1
    have ha : r.pattern[k]? = some r.pattern[k] := List.getElem?_eq_getElem hlt
    obtain ⟨e, t, he, ht, hadmits⟩ := hall k _ ha
    exact ⟨e, t, he, ht, (hsets k s _ hs ha t).mpr hadmits⟩

/-- The complete search asks at one place and goes on behind it. -/
theorem findAllFrom_succ {all : List Nat}
    (hall : c.findAllFrom (count + 1) start seq = .ok all) :
    ∃ later, c.findAllFrom count (start + 1) seq.tail = .ok later ∧
      ((c.matchesAt seq 0 = .ok true ∧ all = start :: later) ∨
        (c.matchesAt seq 0 = .ok false ∧ all = later)) := by
  rw [findAllFrom] at hall
  obtain ⟨here, hhere, hall⟩ := Except.bind_eq_ok_iff.mp hall
  obtain ⟨later, hlater, hall⟩ := Except.bind_eq_ok_iff.mp hall
  refine ⟨later, hlater, ?_⟩
  cases here with
  | true => exact .inl ⟨hhere, (Except.ok.inj hall).symm⟩
  | false => exact .inr ⟨hhere, (Except.ok.inj hall).symm⟩

/-- The complete search lists the places at which the rule matches, from left to right. -/
theorem mem_findAllFrom {all : List Nat} (hroom : start + count ≤ c.places seq)
    (hall : c.findAllFrom count start (seq.drop start) = .ok all) :
    (∀ i, i ∈ all ↔ start ≤ i ∧ i < start + count ∧ c.matchesAt seq i = .ok true) ∧
      all.Pairwise (· < ·) := by
  induction count generalizing start all with
  | zero =>
      cases hall
      refine ⟨fun i ↦ ?_, .nil⟩
      simp only [List.not_mem_nil, false_iff]
      omega
  | succ count ih =>
      obtain ⟨later, hlater, hhere⟩ := findAllFrom_succ hall
      rw [List.tail_drop] at hlater
      rw [matchesAt_drop (by omega)] at hhere
      obtain ⟨hmem, hsorted⟩ := ih (by omega) hlater
      obtain ⟨hhere, rfl⟩ | ⟨hhere, rfl⟩ := hhere
      · refine ⟨fun i ↦ ?_, .cons (fun i hi ↦ ((hmem i).mp hi).1) hsorted⟩
        rw [List.mem_cons, hmem]
        constructor
        · rintro (rfl | ⟨hle, hlt, hmatches⟩)
          · exact ⟨Nat.le_refl _, by omega, hhere⟩
          · exact ⟨by omega, by omega, hmatches⟩
        · rintro ⟨hle, hlt, hmatches⟩
          by_cases hi : i = start
          · exact .inl hi
          · exact .inr ⟨by omega, by omega, hmatches⟩
      · refine ⟨fun i ↦ ?_, hsorted⟩
        rw [hmem]
        constructor
        · rintro ⟨hle, hlt, hmatches⟩
          exact ⟨by omega, by omega, hmatches⟩
        · rintro ⟨hle, hlt, hmatches⟩
          have hne : i ≠ start := by
            rintro rfl
            cases hhere.symm.trans hmatches
          exact ⟨by omega, by omega, hmatches⟩

/-- All matches of a rule are the indices at which it matches, from left to right. -/
theorem mem_findAll {all : List Nat} (hall : c.findAll seq = .ok all) :
    (∀ i, i ∈ all ↔ c.matchesAt seq i = .ok true) ∧ all.Pairwise (· < ·) := by
  have hsearch : c.findAllFrom (c.places seq) 0 (seq.drop 0) = .ok all := hall
  obtain ⟨hmem, hsorted⟩ := mem_findAllFrom (Nat.le_of_eq (Nat.zero_add _)) hsearch
  refine ⟨fun i ↦ ?_, hsorted⟩
  rw [hmem]
  constructor
  · rintro ⟨-, -, hmatches⟩
    exact hmatches
  · intro hmatches
    have hroom := (matchesAt_eq_true_iff.mp hmatches).1
    refine ⟨Nat.zero_le _, ?_, hmatches⟩
    rw [places]
    omega

/-- Where all matches can be listed, the leftmost one is found and is the first of them. -/
theorem findFrom_eq_head? {all : List Nat} (hall : c.findAllFrom count start seq = .ok all) :
    c.findFrom count start seq = .ok all.head? := by
  induction count generalizing start seq all with
  | zero =>
      cases hall
      rfl
  | succ count ih =>
      obtain ⟨later, hlater, ⟨hhere, rfl⟩ | ⟨hhere, rfl⟩⟩ := findAllFrom_succ hall
      · rw [findFrom, hhere]
        rfl
      · rw [findFrom, hhere]
        exact ih hlater

/-- A rule matches where its leftmost match is found. -/
theorem matchesAt_of_find? (h : c.find? seq = .ok (some i)) : c.matchesAt seq i = .ok true := by
  rw [find?_eq_findM?] at h
  generalize List.range (c.places seq) = places at h
  induction places with
  | nil => cases h
  | cons j places ih =>
      rw [List.findM?] at h
      obtain ⟨here, hhere, h⟩ := Except.bind_eq_ok_iff.mp h
      cases here with
      | true =>
          cases h
          exact hhere
      | false => exact ih h

end CompiledRule

namespace Candidate

variable {seq : List Expr} {index : Nat} {r : CompiledRule} {rules : List CompiledRule}
  {c : Candidate}

/-- The candidate is a match of a rule of the table whose first rule has the given index. -/
structure Found (seq : List Expr) (index : Nat) (rules : List CompiledRule) (c : Candidate) :
    Prop where
  rule : ∃ k, c.site.rule = index + k ∧ rules[k]? = some c.rule
  len : c.site.len = c.rule.width
  accepts : c.rule.matchesAt seq c.site.pos = .ok true

/-- What is found in a table is a match of its first rule, or found in the rest. -/
theorem found_cons_iff :
    c.Found seq index (r :: rules) ↔
      (∃ pos, r.matchesAt seq pos = .ok true ∧ ⟨r, ⟨index, pos, r.width⟩⟩ = c) ∨
        c.Found seq (index + 1) rules := by
  obtain ⟨rule, ⟨number, pos, len⟩⟩ := c
  constructor
  · rintro ⟨⟨k, hk, hrule⟩, hlen, haccepts⟩
    dsimp only at hk hlen haccepts
    subst hk hlen
    cases k with
    | zero =>
        cases hrule
        exact .inl ⟨pos, haccepts, rfl⟩
    | succ k => exact .inr ⟨⟨k, by dsimp only; omega, hrule⟩, rfl, haccepts⟩
  · rintro (⟨pos, haccepts, h⟩ | ⟨⟨k, hk, hrule⟩, hlen, haccepts⟩)
    · cases h
      exact ⟨⟨0, rfl, rfl⟩, rfl, haccepts⟩
    · exact ⟨⟨k + 1, by dsimp only at hk ⊢; omega, hrule⟩, hlen, haccepts⟩

/-- The list of all matches has what is found in the table, by rule and position. -/
theorem mem_allFrom_iff {all : List Candidate} (hall : allFrom seq index rules = .ok all) :
    (∀ c, c ∈ all ↔ c.Found seq index rules) ∧ (all.map site).Pairwise Match.Before := by
  induction rules generalizing index all with
  | nil =>
      cases hall
      refine ⟨fun c ↦ iff_of_false List.not_mem_nil ?_, .nil⟩
      rintro ⟨⟨k, -, hrule⟩, -, -⟩
      cases hrule
  | cons r rules ih =>
      rw [allFrom] at hall
      obtain ⟨here, hhere, hall⟩ := Except.bind_eq_ok_iff.mp hall
      obtain ⟨later, hlater, hall⟩ := Except.bind_eq_ok_iff.mp hall
      cases hall
      obtain ⟨hmemHere, hsortedHere⟩ := CompiledRule.mem_findAll hhere
      obtain ⟨hmemLater, hsortedLater⟩ := ih hlater
      refine ⟨fun c ↦ ?_, ?_⟩
      · rw [List.mem_append, List.mem_map, found_cons_iff, hmemLater]
        simp only [hmemHere]
      · -- Matches of the first rule have its index, and all others a higher one.
        rw [List.map_append, List.map_map, List.pairwise_append]
        refine ⟨?_, hsortedLater, ?_⟩
        · rw [List.pairwise_map]
          exact hsortedHere.imp fun hlt ↦ .inr ⟨rfl, hlt⟩
        · intro m hm other hother
          obtain ⟨pos, -, rfl⟩ := List.mem_map.mp hm
          obtain ⟨d, hd, rfl⟩ := List.mem_map.mp hother
          obtain ⟨⟨k, hk, -⟩, -, -⟩ := (hmemLater d).mp hd
          refine .inl ?_
          show index < d.site.rule
          omega

/-- Where all matches can be listed, the first search finds the first of them. -/
theorem firstFrom_eq_head? {all : List Candidate} (hall : allFrom seq index rules = .ok all) :
    firstFrom seq index rules = .ok all.head? := by
  induction rules generalizing index all with
  | nil =>
      cases hall
      rfl
  | cons r rules ih =>
      rw [allFrom] at hall
      obtain ⟨here, hhere, hall⟩ := Except.bind_eq_ok_iff.mp hall
      obtain ⟨later, hlater, hall⟩ := Except.bind_eq_ok_iff.mp hall
      cases hall
      have hfind : r.find? seq = .ok here.head? := CompiledRule.findFrom_eq_head? hhere
      rw [firstFrom, hfind]
      cases here with
      | nil => exact ih hlater
      | cons pos here => rfl

/-- The first match is one of the table, also where the matches cannot all be listed. -/
theorem found_of_firstFrom (h : firstFrom seq index rules = .ok (some c)) :
    c.Found seq index rules := by
  induction rules generalizing index with
  | nil => cases h
  | cons r rules ih =>
      rw [firstFrom] at h
      obtain ⟨found, hfound, h⟩ := Except.bind_eq_ok_iff.mp h
      rw [found_cons_iff]
      cases found with
      | none => exact .inr (ih h)
      | some pos =>
          cases h
          exact .inl ⟨pos, CompiledRule.matchesAt_of_find? hfound, rfl⟩

/-- What is found by compiled rules belongs to the source rule at the same place of its table. -/
theorem Found.exists_rule {R : CompiledRule → Rule → Prop} {rs : List Rule}
    (htable : List.Forall₂ R rules rs) (h : c.Found seq 0 rules) :
    ∃ r, rs[c.site.rule]? = some r ∧ R c.rule r := by
  obtain ⟨⟨k, hk, hrule⟩, -, -⟩ := h
  rw [Nat.zero_add] at hk
  obtain ⟨hlt, hget⟩ := List.getElem?_eq_some_iff.mp hrule
  have hlt' : k < rs.length := htable.length_eq ▸ hlt
  refine ⟨rs[k], ?_, ?_⟩
  · rw [hk, List.getElem?_eq_getElem hlt']
  · rw [← hget]
    exact htable.get hlt hlt'

end Candidate

namespace Parser

variable {p : Parser} {reg later : Registry} {rs : List Rule} {seq folded : List Expr}

/-- The compiled rules compare the numbers that the rules of a table name. -/
abbrev Compares (reg : Registry) (p : Parser) (rs : List Rule) : Prop :=
  List.Forall₂ (fun (c : CompiledRule) (r : Rule) ↦ c.Compares reg r) p.rules rs

/-- What is found by the compiled rules is where the table matches. -/
theorem exists_found_iff (h : p.Compares reg rs) {m : Match} :
    (∃ c : Candidate, c.Found seq 0 p.rules ∧ c.site = m) ↔ m.Holds reg rs seq := by
  constructor
  · rintro ⟨c, hfound, rfl⟩
    obtain ⟨r, hr, hcompares⟩ := hfound.exists_rule h
    obtain ⟨hroom, hadmits⟩ := hcompares.matchesAt_iff.mp hfound.accepts
    have hlen : c.site.len = r.pattern.length := hfound.len.trans hcompares.width_eq
    exact ⟨r, hr, hlen, hlen ▸ hroom, hadmits⟩
  · rintro ⟨r, hr, hlen, hroom, hadmits⟩
    obtain ⟨hlt, rfl⟩ := List.getElem?_eq_some_iff.mp hr
    have hlt' : m.rule < p.rules.length := h.length_eq ▸ hlt
    have hcompares := h.get hlt' hlt
    rw [hlen] at hroom
    exact ⟨⟨p.rules[m.rule], m⟩, ⟨⟨m.rule, (Nat.zero_add _).symm, List.getElem?_eq_getElem hlt'⟩,
      hlen.trans hcompares.width_eq.symm, hcompares.matchesAt_iff.mpr ⟨hroom, hadmits⟩⟩, rfl⟩

/-- A step that folds applies the reducer of the first match and puts its result in place of the
span. -/
theorem exists_reduced_of_step (h : (p.step reg seq).result = .ok (some folded)) :
    ∃ c e, p.firstMatch seq = .ok (some c) ∧ c.rule.reduce seq c.site.pos = .ok e ∧
      e.Owned reg ∧ folded = replaceSpan seq c.site e := by
  unfold step attempt at h
  split at h
  · cases h
  · cases h
  · next c hmatch =>
      obtain ⟨m, happly⟩ | ⟨_, _, _, happly⟩ | ⟨e, t, _, hreduce, ht, howns, happly⟩ :=
        apply_cases reg seq c
      · simp [happly] at h
      · simp [happly] at h
      · simp only [happly, Bool.false_eq_true, if_false, Except.ok.injEq, Option.some.injEq] at h
        exact ⟨c, e, hmatch, hreduce, ⟨t, ht, howns⟩, h.symm⟩

/-- A sequence splits into what stands before a span within it, the span, and what stands behind. -/
theorem exists_span {m : Match} (h : m.pos + m.len ≤ seq.length) :
    ∃ before span behind, seq = before ++ (span ++ behind) ∧ before.length = m.pos ∧
      span.length = m.len ∧ ∀ e, replaceSpan seq m e = before ++ e :: behind := by
  refine ⟨seq.take m.pos, (seq.drop m.pos).take m.len, seq.drop (m.pos + m.len), ?_, ?_, ?_,
    fun _ ↦ rfl⟩
  · rw [← List.drop_drop, List.take_append_drop, List.take_append_drop]
  · rw [List.length_take]
    omega
  · rw [List.length_take, List.length_drop]
    omega

/-- The listed matches are the places at which the table matches, by rule and position. -/
theorem mem_candidates_iff (hp : p.Compares reg rs) {ms : List Match}
    (h : p.candidates seq = .ok ms) :
    (∀ m, m ∈ ms ↔ m.Holds reg rs seq) ∧ ms.Pairwise Match.Before := by
  obtain ⟨all, hall, rfl⟩ := Except.map_eq_ok_iff.mp h
  obtain ⟨hmem, hsorted⟩ := Candidate.mem_allFrom_iff hall
  refine ⟨fun m ↦ ?_, hsorted⟩
  rw [List.mem_map, ← exists_found_iff hp]
  simp only [hmem]

/-- The first match is the head of the list of matches. -/
theorem firstMatch_eq_head? {ms : List Match} (h : p.candidates seq = .ok ms) :
    (p.firstMatch seq).map (·.map Candidate.site) = .ok ms.head? := by
  obtain ⟨all, hall, rfl⟩ := Except.map_eq_ok_iff.mp h
  rw [firstMatch, Candidate.firstFrom_eq_head? hall, List.head?_map]
  rfl

/-- The first match of a table has the reducer of its rule. -/
theorem holds_of_firstMatch (hp : p.Compares reg rs)
    (hreduce : List.Forall₂ (fun (c : CompiledRule) (r : Rule) ↦ r.reduce = some c.reduce)
      p.rules rs)
    {c : Candidate} (h : p.firstMatch seq = .ok (some c)) :
    c.site.Holds reg rs seq ∧ ∃ r, rs[c.site.rule]? = some r ∧ r.reduce = some c.rule.reduce := by
  have hfound := Candidate.found_of_firstFrom h
  exact ⟨(exists_found_iff hp).mp ⟨c, hfound, rfl⟩, hfound.exists_rule hreduce⟩

/-- The rules of a built parser compare the numbers that the rules of its configuration name. -/
theorem compares_of_build {c : ParserConfig} (hn : later.names.Nodup)
    (h : c.build later = .ok (p, reg)) : p.Compares reg c.rules := by
  obtain ⟨⟨rules, last⟩, hrules, h⟩ := Except.bind_eq_ok_iff.mp h
  cases h
  refine Rule.compileAll_compares ?_ hrules
  exact Registry.nodup_intern (Registry.nodup_intern (Registry.nodup_intern hn _) _) _

/-- Among expressions that are all there, the matches can be listed. Whenever they can, the list has
exactly the places at which the table matches, each once, by rule and position; the first match is
its head; and a step that folds puts the result of the reducer in place of the span of this match
and keeps everything else. On tags that the registry owns, now or later, a matcher admits those it
names. -/
theorem candidates_enumerate {c : ParserConfig} {history : List Text} {p : Parser} {reg : Registry}
    (h : c.build (Registry.empty.internAll history) = .ok (p, reg)) :
    (∀ seq, (∀ e ∈ seq, e ≠ .hole) → ∃ ms, p.candidates seq = .ok ms) ∧
      (∀ seq ms, p.candidates seq = .ok ms →
        (∀ m, m ∈ ms ↔ m.Holds reg c.rules seq) ∧ ms.Pairwise Match.Before ∧
          (p.firstMatch seq).map (·.map Candidate.site) = .ok ms.head? ∧
          ∀ later folded, (p.step later seq).result = .ok (some folded) →
            ∃ m rest before span behind r reduce e, ms = m :: rest ∧
              seq = before ++ (span ++ behind) ∧ before.length = m.pos ∧ span.length = m.len ∧
              folded = before ++ e :: behind ∧ c.rules[m.rule]? = some r ∧
              r.reduce = some reduce ∧ reduce seq m.pos = .ok e) ∧
      ∀ later, ∀ r ∈ c.rules, ∀ a ∈ r.pattern, ∀ t, (reg.internAll later).owns t = true →
        (a.Admits reg t ↔ t.name ∈ a.names) := by
  have hstart : (Registry.empty.internAll history).names.Nodup :=
    (Registry.internAll_registry history List.nodup_nil).2.1
  have hcompares := compares_of_build hstart h
  have hbuilds := ParserConfig.build_builds hstart h
  refine ⟨fun seq hpresent ↦ ?_, fun seq ms hms ↦ ?_, fun later r hr a ha t ht ↦ ?_⟩
  · obtain ⟨all, hall⟩ := Candidate.allFrom_ok hpresent 0 p.rules
    exact ⟨all.map Candidate.site, by rw [candidates, hall]; rfl⟩
  · obtain ⟨hmem, hsorted⟩ := mem_candidates_iff hcompares hms
    have hhead := firstMatch_eq_head? hms
    refine ⟨hmem, hsorted, hhead, fun later folded hstep ↦ ?_⟩
    obtain ⟨d, e, hmatch, hreduce, -, rfl⟩ := exists_reduced_of_step hstep
    obtain ⟨hholds, r, hr, hreducer⟩ :=
      holds_of_firstMatch hcompares (hbuilds.runs.table.imp fun _ _ hrep ↦ hrep.reduce) hmatch
    obtain ⟨_, -, -, hroom, -⟩ := hholds
    obtain ⟨before, span, behind, hsplit, hbefore, hspan, hfolded⟩ := exists_span hroom
    rw [hmatch] at hhead
    obtain ⟨rest, hms⟩ : ∃ rest, ms = d.site :: rest :=
      List.head?_eq_some_iff.mp (Except.ok.inj hhead).symm
    exact ⟨d.site, rest, before, span, behind, r, _, e, hms, hsplit, hbefore, hspan, hfolded e, hr,
      hreducer, hreduce⟩
  · obtain ⟨hext, hnodup, -⟩ := Registry.internAll_registry later hbuilds.runs.nodup
    obtain ⟨k, hk, rfl⟩ := List.getElem_of_mem hr
    have hrule := hcompares.get (hcompares.length_eq ▸ hk) hk
    have hnames := hrule.names a ha
    have hlookup : ∀ name ∈ a.names, (reg.internAll later).lookup name = reg.lookup name :=
      fun name hname ↦ hext.lookup_eq (hnames name hname)
    rw [← Matcher.admits_iff hnodup (fun name hname ↦ hext.mem (hnames name hname)) ht]
    refine exists_congr fun name ↦ and_congr_right fun hname ↦ ?_
    rw [hlookup name hname]

/-- A rule that joins `a` with `b` and one that renames either of them match the leaves `a b` at
three places. -/
theorem candidates_enumerate_overlapping :
    ∃ (c : ParserConfig) (p : Parser) (reg : Registry) (ms : List Match),
      c.build (Registry.empty.internAll [[97], [98]]) = .ok (p, reg) ∧
        c.rules.map Rule.pattern = [[⟨[[97]]⟩, ⟨[[98]]⟩], [⟨[[97], [98]]⟩]] ∧
        p.candidates [.leaf ⟨1, [97]⟩ ⟨1, 1⟩ .absent [97], .leaf ⟨2, [98]⟩ ⟨1, 2⟩ .absent [98]] =
          .ok ms ∧
        ms = [⟨0, 0, 2⟩, ⟨1, 0, 1⟩, ⟨1, 1, 1⟩] ∧
        (∀ m, m ∈ ms ↔ m.Holds reg c.rules
          [.leaf ⟨1, [97]⟩ ⟨1, 1⟩ .absent [97], .leaf ⟨2, [98]⟩ ⟨1, 2⟩ .absent [98]]) ∧
        ms.Pairwise Match.Before := by
  let join : Rule := ⟨[112], [⟨[[97]]⟩, ⟨[[98]]⟩], some fun _ _ ↦ .ok (.node ⟨1, [97]⟩ ⟨1, 1⟩ [])⟩
  let rename : Rule := ⟨[113], [⟨[[97], [98]]⟩], some fun _ _ ↦ .ok (.node ⟨2, [98]⟩ ⟨1, 1⟩ [])⟩
  let c : ParserConfig := { rules := [join, rename], budget := id }
  obtain ⟨p, reg, h, hms⟩ : ∃ p reg,
      c.build (Registry.empty.internAll [[97], [98]]) = .ok (p, reg) ∧
        p.candidates [.leaf ⟨1, [97]⟩ ⟨1, 1⟩ .absent [97], .leaf ⟨2, [98]⟩ ⟨1, 2⟩ .absent [98]] =
          .ok [⟨0, 0, 2⟩, ⟨1, 0, 1⟩, ⟨1, 1, 1⟩] := ⟨_, _, rfl, rfl⟩
  obtain ⟨hmem, hsorted, -⟩ := (candidates_enumerate h).2.1 _ _ hms
  exact ⟨c, p, reg, _, h, rfl, hms, rfl, hmem, hsorted⟩

end Parser

end Tagfold
