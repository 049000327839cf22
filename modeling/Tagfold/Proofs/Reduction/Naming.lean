import Tagfold.Proofs.Reduction.Building
import Tagfold.Proofs.Reduction.Iteration

/-!
# Numbers stand for names

Rules are written with names and compared by numbers, and a registry gives its numbers in the order
in which names happen to come up. `Parser.Reaches` follows a parse step by step while the registry
may grow at any time. `Parser.names_decide_matches` says that the tags of every sequence on the way
are owned by the registry, that a rule matches such a sequence at an index exactly if its pattern
names the tags that stand there, and that the rule to be applied and its place are the same in every
registry.
-/

namespace Tagfold

/-- A continuation that repeats no name comes from interning. -/
theorem Registry.Extends.exists_internAll {r r' : Registry} (h : r'.Extends r)
    (hn : r'.names.Nodup) : ∃ more, r' = r.internAll more := by
  obtain ⟨more, hmore⟩ := h
  refine ⟨more, ?_⟩
  induction more generalizing r with
  | nil =>
      cases r
      cases r'
      simpa [Registry.internAll] using hmore.symm
  | cons name more ih =>
      have hnew : name ∉ r.names := by
        intro hold
        rw [← hmore, List.nodup_append] at hn
        exact hn.2.2 name hold name List.mem_cons_self rfl
      show r' = (r.intern name).2.internAll more
      rw [Registry.intern_of_not_mem hnew]
      exact ih (by simpa using hmore)

namespace Matcher

variable {ms : List Matcher} {seq seq' : List Expr}

/-- From an index on, the pattern names the tags of the expressions, one by one. -/
def NamesAt (ms : List Matcher) (seq : List Expr) (i : Nat) : Prop :=
  i + ms.length ≤ seq.length ∧ ∀ (k : Nat) (m : Matcher), ms[k]? = some m →
    ∃ e name, seq[i + k]? = some e ∧ e.name = .ok name ∧ name ∈ m.names

/-- A matcher accepts an expression by the name of its tag. -/
theorem accepts_iff {m : Matcher} {e : Expr} :
    m.accepts e = true ↔ ∃ name, e.name = .ok name ∧ name ∈ m.names := by
  unfold accepts Expr.name
  cases e.tag with
  | error misuse => simp [Except.map]
  | ok t => simp [Except.map]

/-- Matchers fit if each of them names the tag of its expression. -/
theorem fits_iff :
    fits ms seq = true ↔ ∀ (k : Nat) (m : Matcher), ms[k]? = some m →
      ∃ e name, seq[k]? = some e ∧ e.name = .ok name ∧ name ∈ m.names := by
  induction ms generalizing seq with
  | nil => simp [fits]
  | cons m ms ih =>
      constructor
      · intro h k a ha
        cases seq with
        | nil => simp [fits] at h
        | cons e es =>
            simp only [fits, Bool.and_eq_true] at h
            cases k with
            | zero =>
                cases ha
                obtain ⟨name, hname, hmem⟩ := accepts_iff.mp h.1
                exact ⟨e, name, rfl, hname, hmem⟩
            | succ k => exact ih.mp h.2 k a ha
      · intro h
        obtain ⟨e, name, he, hname, hmem⟩ := h 0 m rfl
        cases seq with
        | nil => cases he
        | cons b es =>
            cases he
            simp only [fits, Bool.and_eq_true]
            exact ⟨accepts_iff.mpr ⟨name, hname, hmem⟩, ih.mpr fun k a ha ↦ h (k + 1) a ha⟩

/-- A pattern names the tags from an index on exactly if it fits there and does not go beyond the
end. -/
theorem namesAt_iff {i : Nat} :
    NamesAt ms seq i ↔ i + ms.length ≤ seq.length ∧ fits ms (seq.drop i) = true := by
  simp only [NamesAt, fits_iff, List.getElem?_drop]

/-- A pattern that names tags somewhere occurs. -/
theorem NamesAt.occurs {i : Nat} (h : NamesAt ms seq i) : Occurs ms seq :=
  ⟨seq.take i, seq.drop i, (List.take_append_drop i seq).symm, (namesAt_iff.mp h).2⟩

/-- Whether a pattern fits depends on the names of the tags only. -/
theorem fits_congr (h : seq.map Expr.name = seq'.map Expr.name) : fits ms seq = fits ms seq' := by
  induction ms generalizing seq seq' with
  | nil => rfl
  | cons m ms ih =>
      cases seq with
      | nil =>
          obtain rfl : seq' = [] := by simpa using h.symm
          rfl
      | cons e es =>
          obtain ⟨e', es', rfl, hname, hrest⟩ := List.map_eq_cons_iff.mp h.symm
          have haccepts : m.accepts e = m.accepts e' := by
            rw [Bool.eq_iff_iff, accepts_iff, accepts_iff, hname]
          rw [fits, fits, haccepts, ih hrest.symm]

end Matcher

/-- The first site at which a table names the tags, by rule and then from left to right: no pattern
of an earlier rule names the tags anywhere, and that of the rule itself not further to the left.
There is none if no pattern names the tags anywhere. -/
inductive Rule.FirstNamed (rs : List Rule) (seq : List Expr) : Option Match → Prop where
  | none : (∀ r ∈ rs, ∀ i, ¬ Matcher.NamesAt r.pattern seq i) → FirstNamed rs seq none
  | some {earlier later : List Rule} {r : Rule} {pos : Nat} :
      rs = earlier ++ r :: later → Matcher.NamesAt r.pattern seq pos →
      (∀ a ∈ earlier, ∀ i, ¬ Matcher.NamesAt a.pattern seq i) →
      (∀ i < pos, ¬ Matcher.NamesAt r.pattern seq i) →
      FirstNamed rs seq (some ⟨earlier.length, pos, r.pattern.length⟩)

namespace CompiledRule

variable {reg reg' : Registry} {c c' : CompiledRule} {r r' : Rule} {seq seq' : List Expr}

/-- Searching from an index on is asking at one index after the other. -/
theorem findFrom_eq_findM? {count start : Nat} (hroom : start + count ≤ c.places seq) :
    c.findFrom count start (seq.drop start) =
      (List.range' start count).findM? (c.matchesAt seq) := by
  induction count generalizing start with
  | zero => rfl
  | succ count ih =>
      have hhere : c.matchesAt (seq.drop start) 0 = c.matchesAt seq start :=
        matchesAt_drop (by omega)
      rw [findFrom, List.range'_succ, List.findM?, hhere, List.tail_drop, ih (by omega)]
      cases c.matchesAt seq start with
      | error m => rfl
      | ok found => cases found <;> rfl

/-- The leftmost match is the first index at which the rule matches. -/
theorem find?_eq_findM? (c : CompiledRule) (seq : List Expr) :
    c.find? seq = (List.range (c.places seq)).findM? (c.matchesAt seq) := by
  have hsearch := findFrom_eq_findM? (Nat.le_of_eq (Nat.zero_add (c.places seq)))
  rwa [List.drop_zero, ← List.range_eq_range'] at hsearch

/-- Compiled forms of the same pattern, each in a registry of its own, find the same place among
tags with the same names. -/
theorem find?_congr (hn : reg.names.Nodup) (hn' : reg'.names.Nodup) (hc : c.Represents reg r)
    (hc' : c'.Represents reg' r') (hpattern : r.pattern = r'.pattern)
    (hseq : ∀ e ∈ seq, e.Owned reg) (hseq' : ∀ e ∈ seq', e.Owned reg')
    (hnames : seq.map Expr.name = seq'.map Expr.name) : c.find? seq = c'.find? seq' := by
  have hlength : seq.length = seq'.length := by simpa using congrArg List.length hnames
  have hplaces : c.places seq = c'.places seq' := by
    rw [places, places, hc.width_eq, hc'.width_eq, hpattern, hlength]
  have hmatches : c.matchesAt seq = c'.matchesAt seq' := by
    funext i
    have hdrop : (seq.drop i).map Expr.name = (seq'.drop i).map Expr.name := by
      rw [List.map_drop, List.map_drop, hnames]
    rw [matchesAt_eq hn hc hseq, matchesAt_eq hn' hc' hseq', hpattern, hlength,
      Matcher.fits_congr hdrop]
  rw [find?_eq_findM?, find?_eq_findM?, hplaces, hmatches]

end CompiledRule

/-- Tables of the same patterns choose the same site among tags with the same names. -/
theorem Candidate.site_firstFrom_congr {reg reg' : Registry} {seq seq' : List Expr}
    (hn : reg.names.Nodup) (hn' : reg'.names.Nodup) (hseq : ∀ e ∈ seq, e.Owned reg)
    (hseq' : ∀ e ∈ seq', e.Owned reg') (hnames : seq.map Expr.name = seq'.map Expr.name)
    {cs cs' : List CompiledRule} {rs rs' : List Rule} (hcs : Parser.TableOf reg cs rs)
    (hcs' : Parser.TableOf reg' cs' rs') (hpatterns : rs.map Rule.pattern = rs'.map Rule.pattern)
    (index : Nat) :
    (firstFrom seq index cs).map (·.map Candidate.site) =
      (firstFrom seq' index cs').map (·.map Candidate.site) := by
  induction hcs generalizing cs' rs' index with
  | nil =>
      obtain rfl : rs' = [] := by simpa using hpatterns.symm
      cases hcs'
      rfl
  | @cons c r cs rs hc _ ih =>
      obtain ⟨r', rs', rfl, hpattern, hrest⟩ := List.map_eq_cons_iff.mp hpatterns.symm
      cases hcs' with
      | @cons c' _ cs' _ hc' htable' =>
          have hlater := ih htable' hrest.symm (index + 1)
          have hwidth : c.width = c'.width := by rw [hc.width_eq, hc'.width_eq, hpattern]
          have hfind := CompiledRule.find?_congr hn hn' hc hc' hpattern.symm hseq hseq' hnames
          rw [firstFrom, firstFrom, hfind, hwidth]
          cases c'.find? seq' with
          | error m => rfl
          | ok found =>
              cases found with
              | none => exact hlater
              | some pos => rfl

namespace Parser

variable {p : Parser} {reg last : Registry} {source : Text} {seq folded final : List Expr}

/-- A parse goes from one sequence to another, and the registry from one state to a later one: a
rule is applied, or a name is interned by whoever uses the registry. -/
inductive Reaches (p : Parser) : Registry → List Expr → Registry → List Expr → Prop where
  | refl (reg : Registry) (seq : List Expr) : Reaches p reg seq reg seq
  | fold {reg last : Registry} {seq folded final : List Expr} {report : Bool} {source : Text} :
      (p.attempt reg report source seq).result = .ok (some folded) →
      Reaches p reg folded last final → Reaches p reg seq last final
  | intern {reg last : Registry} {seq final : List Expr} (name : Text) :
      Reaches p (reg.intern name).2 seq last final → Reaches p reg seq last final

/-- An applied rule puts an expression with an owned tag among expressions of the sequence. -/
theorem attempt_owned {report : Bool} (hseq : ∀ e ∈ seq, e.Owned reg)
    (h : (p.attempt reg report source seq).result = .ok (some folded)) :
    ∀ e ∈ folded, e.Owned reg := by
  unfold attempt at h
  split at h
  · cases h
  · cases h
  · next c _ =>
      split at h
      · cases h
      · obtain ⟨m, happly⟩ | ⟨_, _, _, happly⟩ | ⟨e, t, _, -, ht, howns, happly⟩ :=
          apply_cases reg seq c
        · simp [happly] at h
        · simp [happly] at h
        · simp only [happly, Except.ok.injEq, Option.some.injEq] at h
          subst h
          intro a ha
          rcases mem_replaceSpan ha with rfl | ha
          · exact ⟨t, ht, howns⟩
          · exact hseq a ha

/-- Along a parse the registry grows, and it owns the tags of the sequence. -/
theorem Reaches.owned (h : p.Reaches reg seq last final) (hn : reg.names.Nodup)
    (hseq : ∀ e ∈ seq, e.Owned reg) :
    last.Extends reg ∧ last.names.Nodup ∧ ∀ e ∈ final, e.Owned last := by
  induction h with
  | refl reg seq => exact ⟨.refl reg, hn, hseq⟩
  | fold hstep _ ih => exact ih hn (attempt_owned hseq hstep)
  | @intern reg _ _ _ name _ ih =>
      have hext := Registry.extends_intern reg name
      obtain ⟨hgrow, hnodup, hfinal⟩ :=
        ih (Registry.nodup_intern hn name) fun e he ↦ (hseq e he).mono hext
      exact ⟨hgrow.trans hext, hnodup, hfinal⟩

/-- The result of a reduction is reached by the rules it applies. -/
theorem reaches_of_reduceLoop {budget : Nat} {log : List LogEntry} {e : Expr}
    (h : (p.reduceLoop reg source budget log seq).result = .ok e) : p.Reaches reg seq reg [e] := by
  induction budget generalizing log seq with
  | zero =>
      rcases seq with _ | ⟨a, _ | ⟨b, rest⟩⟩
      · cases h
      · cases h
        exact .refl reg _
      · cases h
  | succ budget ih =>
      rcases seq with _ | ⟨a, _ | ⟨b, rest⟩⟩
      · cases h
      · cases h
        exact .refl reg _
      · simp only [reduceLoop] at h
        split at h
        · cases h
        · cases h
        · next hstep => exact .fold hstep (ih h)

/-- On owned tags, the first match is at the first site at which the table names them. -/
theorem exists_firstNamed {rs : List Rule} (hn : reg.names.Nodup) (htable : TableOf reg p.rules rs)
    (hseq : ∀ e ∈ seq, e.Owned reg) :
    ∃ site, (p.firstMatch seq).map (·.map Candidate.site) = .ok site ∧
      Rule.FirstNamed rs seq site := by
  obtain ⟨hnone, hall⟩ |
      ⟨⟨rule, ⟨number, pos, len⟩⟩, earlier, r, before, behind, hsome, hnumber, h⟩ :=
    firstFrom_cases hn htable hseq 0
  · refine ⟨none, ?_, .none fun r hr i hnames ↦ hall r hr hnames.occurs⟩
    rw [firstMatch, hnone]
    rfl
  · obtain ⟨later, hrs⟩ := h.table
    obtain rfl : number = earlier.length := hnumber.trans (Nat.zero_add _)
    obtain rfl : pos = before.length := h.pos
    obtain rfl : len = r.pattern.length := h.len
    have hnames : Matcher.NamesAt r.pattern seq before.length := by
      have hlength := Matcher.length_le_of_fits h.fits
      rw [Matcher.namesAt_iff, h.split, List.drop_left, List.length_append]
      exact ⟨by omega, h.fits⟩
    refine ⟨some _, ?_, .some hrs hnames (fun a ha i hi ↦ h.first a ha hi.occurs) ?_⟩
    · rw [firstMatch, hsome]
      rfl
    · intro i hi hnamed
      have hfits := (Matcher.namesAt_iff.mp hnamed).2
      rw [h.leftmost i hi] at hfits
      cases hfits

/-- The tags that a built parser hands to its leaves are owned. -/
theorem knows_of_builds {c : ParserConfig} (h : c.Builds last p reg) : p.Knows reg where
  stringTag := h.stringTag.2 ▸ Registry.owns_lookup h.stringTag.1
  identifierTag := h.identifierTag.2 ▸ Registry.owns_lookup h.identifierTag.1
  integerTag := h.integerTag.2 ▸ Registry.owns_lookup h.integerTag.1

/-- However the names of a registry came about, the tags of all sequences of a parse are owned; on
owned tags a rule matches at an index exactly if its pattern names them, and the first rule that
does so somewhere is applied at the first such index; and wherever tables of the same patterns are
built, the rule that is applied to tags of the same names and its place are the same. -/
theorem names_decide_matches {c : ParserConfig} {history : List Text} {p : Parser} {reg : Registry}
    (h : c.build (Registry.empty.internAll history) = .ok (p, reg)) :
    (∀ later ts leaves reg', p.classify (reg.internAll later) ts = (.ok leaves, reg') →
        (∀ e, (p.parse (reg.internAll later) ts).1.result = .ok e → p.Reaches reg' leaves reg' [e]) ∧
          ∀ last seq, p.Reaches reg' leaves last seq →
            ∃ grown, last = reg.internAll grown ∧ ∀ e ∈ seq, e.Owned last) ∧
      (∀ later seq, (∀ e ∈ seq, e.Owned (reg.internAll later)) →
        List.Forall₂ (fun (compiled : CompiledRule) (r : Rule) ↦ ∀ i, ∃ found,
          compiled.matchesAt seq i = .ok found ∧
            (found = true ↔ Matcher.NamesAt r.pattern seq i)) p.rules c.rules ∧
        ∃ site, (p.firstMatch seq).map (·.map Candidate.site) = .ok site ∧
          Rule.FirstNamed c.rules seq site) ∧
      ∀ (c' : ParserConfig) history' p' reg',
        c'.build (Registry.empty.internAll history') = .ok (p', reg') →
        c'.rules.map Rule.pattern = c.rules.map Rule.pattern →
        ∀ later later' seq seq', (∀ e ∈ seq, e.Owned (reg.internAll later)) →
          (∀ e ∈ seq', e.Owned (reg'.internAll later')) →
          seq'.map Expr.name = seq.map Expr.name →
          (p'.firstMatch seq').map (·.map Candidate.site) =
            (p.firstMatch seq).map (·.map Candidate.site) := by
  have hstart (names : List Text) : (Registry.empty.internAll names).names.Nodup :=
    (Registry.internAll_registry names List.nodup_nil).2.1
  have hbuilds := ParserConfig.build_builds (hstart history) h
  have hgrow (later : List Text) := Registry.internAll_registry later hbuilds.runs.nodup
  refine ⟨?_, ?_, ?_⟩
  · intro later ts leaves reg' hclassify
    obtain ⟨hext, hnodup, howned⟩ :=
      classify_owned (hgrow later).2.1 ((knows_of_builds hbuilds).mono (hgrow later).1) hclassify
    refine ⟨?_, ?_⟩
    · intro e he
      rw [parse, hclassify] at he
      exact reaches_of_reduceLoop he
    · intro last seq hreaches
      obtain ⟨hlast, hlastNodup, hseq⟩ := hreaches.owned hnodup howned
      obtain ⟨grown, rfl⟩ := (hlast.trans (hext.trans (hgrow later).1)).exists_internAll hlastNodup
      exact ⟨grown, rfl, hseq⟩
  · intro later seq hseq
    refine ⟨hbuilds.runs.table.imp fun compiled r hr i ↦ ?_, ?_⟩
    · refine ⟨_, CompiledRule.matchesAt_eq (hgrow later).2.1 (hr.mono (hgrow later).1) hseq i, ?_⟩
      rw [Matcher.namesAt_iff, Bool.and_eq_true, decide_eq_true_iff]
    · exact exists_firstNamed (hgrow later).2.1
        (hbuilds.runs.table.imp fun _ _ hr ↦ hr.mono (hgrow later).1) hseq
  · intro c' history' p' reg' h' hpatterns later later' seq seq' hseq hseq' hnames
    have hbuilds' := ParserConfig.build_builds (hstart history') h'
    have hgrow' := Registry.internAll_registry later' hbuilds'.runs.nodup
    exact Candidate.site_firstFrom_congr hgrow'.2.1 (hgrow later).2.1 hseq' hseq hnames
      (hbuilds'.runs.table.imp fun _ _ hr ↦ hr.mono hgrow'.1)
      (hbuilds.runs.table.imp fun _ _ hr ↦ hr.mono (hgrow later).1) hpatterns 0

/-- Two registries that know `a` and `b` in opposite order number them differently, and a rule that
joins `b` with `a` or `c` is applied to the leaves `a b a` at the same place. -/
theorem names_decide_matches_reordered :
    ∃ c : ParserConfig, c.rules.map Rule.pattern = [[⟨[[98]]⟩, ⟨[[97], [99]]⟩]] ∧
      ∃ p reg p' reg', c.build (Registry.empty.internAll [[97], [98]]) = .ok (p, reg) ∧
        c.build (Registry.empty.internAll [[98], [97]]) = .ok (p', reg') ∧
        (p'.firstMatch [.leaf ⟨2, [97]⟩ ⟨1, 1⟩ .absent [97], .leaf ⟨1, [98]⟩ ⟨1, 2⟩ .absent [98],
            .leaf ⟨2, [97]⟩ ⟨1, 3⟩ .absent [97]]).map (·.map Candidate.site) =
          (p.firstMatch [.leaf ⟨1, [97]⟩ ⟨1, 1⟩ .absent [97], .leaf ⟨2, [98]⟩ ⟨1, 2⟩ .absent [98],
            .leaf ⟨1, [97]⟩ ⟨1, 3⟩ .absent [97]]).map (·.map Candidate.site) := by
  let r : Rule := ⟨[], [⟨[[98]]⟩, ⟨[[97], [99]]⟩], some fun _ _ ↦ .ok .hole⟩
  have hwell : ∀ r' ∈ [r], r'.WellFormed := by
    intro r' hr'
    obtain rfl := List.mem_singleton.mp hr'
    exact ⟨by decide, rfl, by decide⟩
  let c : ParserConfig := { rules := [r], budget := id }
  obtain ⟨p, reg, h⟩ := ParserConfig.build_ok (c := c) hwell (Registry.empty.internAll [[97], [98]])
  obtain ⟨p', reg', h'⟩ :=
    ParserConfig.build_ok (c := c) hwell (Registry.empty.internAll [[98], [97]])
  have hext := (ParserConfig.build_builds (by decide) h).registry
  have hext' := (ParserConfig.build_builds (by decide) h').registry
  refine ⟨c, rfl, p, reg, p', reg', h, h', ?_⟩
  refine (names_decide_matches h).2.2 c _ p' reg' h' rfl [] [] _ _ ?_ ?_ rfl
  · intro e he
    simp only [List.mem_cons, List.not_mem_nil, or_false] at he
    obtain rfl | rfl | rfl := he <;> exact ⟨_, rfl, hext.owns (by decide)⟩
  · intro e he
    simp only [List.mem_cons, List.not_mem_nil, or_false] at he
    obtain rfl | rfl | rfl := he <;> exact ⟨_, rfl, hext'.owns (by decide)⟩

end Parser

end Tagfold
