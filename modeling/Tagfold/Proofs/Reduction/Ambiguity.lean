import Tagfold.Proofs.Reduction.Candidates
import Tagfold.Proofs.Reduction.Iteration

/-!
# Reporting rivals

A parser that reports rivals lists, before it tries to fold the first match, all other matches that
share an index with it. `Parser.ambiguity_warns` says that the list is exact, and
`Parser.attempt_true_cases` that reporting adds it to what one attempt tells and changes nothing
else. A whole reduction is a series of attempts, at the sequences of its `Parser.trail`; for it
`Parser.reporting_observes` compares the two runs, with the report and without.
-/

namespace Tagfold

namespace Match

variable {m other : Match}

/-- The index is in the span of the match. -/
def Covers (m : Match) (j : Nat) : Prop :=
  m.pos ≤ j ∧ j < m.pos + m.len

/-- Another match of the table that shares an index with the chosen one. -/
def Rivals (reg : Registry) (rs : List Rule) (seq : List Expr) (chosen m : Match) : Prop :=
  m.Holds reg rs seq ∧ m ≠ chosen ∧ ∃ j, m.Covers j ∧ chosen.Covers j

/-- The name of the rule that matches. -/
def title (rs : List Rule) (m : Match) : Text :=
  (rs[m.rule]?.map Rule.title).getD []

/-- Spans that are not empty overlap if they share an index, and spans that merely touch do not. -/
theorem overlaps_iff (hm : 0 < m.len) (hother : 0 < other.len) :
    m.overlaps other = true ↔ ∃ j, m.Covers j ∧ other.Covers j := by
  rw [overlaps, Bool.and_eq_true, decide_eq_true_iff, decide_eq_true_iff]
  constructor
  · -- The later of the two starts is in both spans.
    rintro ⟨hstart, hstart'⟩
    refine ⟨max m.pos other.pos, ⟨Nat.le_max_left .., ?_⟩, ⟨Nat.le_max_right .., ?_⟩⟩
    · exact Nat.max_lt.mpr ⟨by omega, hstart'⟩
    · exact Nat.max_lt.mpr ⟨hstart, by omega⟩
  · rintro ⟨j, ⟨hle, hlt⟩, ⟨hle', hlt'⟩⟩
    exact ⟨by omega, by omega⟩

end Match

namespace Parser

/-- The same parser, reporting rivals or not. -/
def reporting (p : Parser) (report : Bool) : Parser :=
  { p with reportAmbiguity := report }

/-- What is told of rivals where a fold is tried. -/
def warnings (p : Parser) (seq : List Expr) : List LogEntry :=
  match p.firstMatch seq with
  | .ok (some c) => (p.ambiguity seq c).toOption.getD []
  | _ => []

/-- What is told where a fold is tried, rivals apart: what the step tells, and the stall if no rule
matches. -/
def entries (p : Parser) (reg : Registry) (seq : List Expr) : List LogEntry :=
  match (p.step reg seq).result with
  | .ok none => (p.step reg seq).log ++ (stall [] seq).log
  | _ => (p.step reg seq).log

/-- The sequences at which a reduction tries to fold within a budget, in order. -/
def trail (p : Parser) (reg : Registry) : (budget : Nat) → List Expr → List (List Expr)
  | 0, _ => []
  | budget + 1, seq =>
    if seq.length < 2 then []
    else
      match (p.step reg seq).result with
      | .ok (some folded) => seq :: p.trail reg budget folded
      | _ => [seq]

/-- The entries tell of the rivals of a chosen match and of nothing else: there is one warning,
which lists every rival once, by rule and position, or there is no rival and no entry. -/
def Warns (reg : Registry) (rs : List Rule) (seq : List Expr) (chosen : Match)
    (told : List LogEntry) : Prop :=
  ∃ ms : List Match, (∀ m, m ∈ ms ↔ chosen.Rivals reg rs seq m) ∧ ms.Pairwise Match.Before ∧
    ((ms = [] ∧ told = []) ∨
      (ms ≠ [] ∧ ∃ place pending, (seq[chosen.pos]?.getD .hole).pos = .ok place ∧
        Expr.tagNames seq = .ok pending ∧
        told = [.ambiguous (chosen.title rs) chosen (ms.map fun m ↦ (m.title rs, m.pos)) place
          pending]))

variable {p : Parser} {reg later : Registry} {rs : List Rule} {seq : List Expr} {c : Candidate}

/-- What is found has the name of the rule that matches there. -/
theorem title_of_found
    (hname : List.Forall₂ (fun (c : CompiledRule) (r : Rule) ↦ c.name = r.title) p.rules rs)
    (h : c.Found seq 0 p.rules) : c.site.title rs = c.rule.name := by
  obtain ⟨r, hr, htitle⟩ := h.exists_rule hname
  rw [Match.title, hr, htitle]
  rfl

/-- A table matches at spans that are not empty. -/
theorem len_pos_of_holds (hp : p.Compares reg rs) {m : Match} (h : m.Holds reg rs seq) :
    0 < m.len := by
  obtain ⟨c, hfound, rfl⟩ := (exists_found_iff hp).mpr h
  obtain ⟨r, -, hcompares⟩ := hfound.exists_rule hp
  rw [hfound.len]
  exact hcompares.width_pos

/-- The report about a chosen match tells of its rivals and of nothing else. -/
theorem ambiguity_warns (hp : p.Compares reg rs)
    (hname : List.Forall₂ (fun (c : CompiledRule) (r : Rule) ↦ c.name = r.title) p.rules rs)
    (hmatch : p.firstMatch seq = .ok (some c)) {told : List LogEntry}
    (h : p.ambiguity seq c = .ok told) : Warns reg rs seq c.site told := by
  obtain ⟨rivals, hrivals, h⟩ := Except.bind_eq_ok_iff.mp h
  obtain ⟨all, hall, hrivals⟩ := Except.bind_eq_ok_iff.mp hrivals
  cases hrivals
  have hcandidates : p.candidates seq = .ok (all.map Candidate.site) := by
    rw [candidates, hall]
    rfl
  obtain ⟨hmem, hsorted⟩ := mem_candidates_iff hp hcandidates
  have hfound := Candidate.found_of_firstFrom hmatch
  have hchosen : 0 < c.site.len := len_pos_of_holds hp ((exists_found_iff hp).mp ⟨c, hfound, rfl⟩)
  have htitle : ∀ d ∈ all, d.site.title rs = d.rule.name := fun d hd ↦
    title_of_found hname ((Candidate.mem_allFrom_iff hall).1 d |>.mp hd)
  let rivals := all.filter fun d ↦ d.site ≠ c.site ∧ d.site.overlaps c.site
  have hms : rivals.map Candidate.site =
      (all.map Candidate.site).filter fun m ↦ m ≠ c.site ∧ m.overlaps c.site := by
    rw [List.filter_map]
    rfl
  refine ⟨rivals.map Candidate.site, fun m ↦ ?_, hms ▸ hsorted.filter _, ?_⟩
  · rw [hms, List.mem_filter, hmem, decide_eq_true_iff]
    refine and_congr_right fun hholds ↦ and_congr_right fun _ ↦ ?_
    exact Match.overlaps_iff (len_pos_of_holds hp hholds) hchosen
  · -- The parser lists the names of the compiled rules.
    have hnames : (rivals.map Candidate.site).map (fun m ↦ (m.title rs, m.pos)) =
        rivals.map fun d ↦ (d.rule.name, d.site.pos) := by
      rw [List.map_map]
      exact List.map_congr_left fun d hd ↦ Prod.ext (htitle d (List.mem_of_mem_filter hd)) rfl
    rw [hnames]
    split at h
    · next hempty =>
        cases h
        rw [List.isEmpty_iff, List.map_eq_nil_iff] at hempty
        exact .inl ⟨List.map_eq_nil_iff.mpr hempty, rfl⟩
    · next hne =>
        obtain ⟨place, hplace, h⟩ := Except.bind_eq_ok_iff.mp h
        obtain ⟨pending, hpending, h⟩ := Except.bind_eq_ok_iff.mp h
        cases h
        refine .inr ⟨fun hempty ↦ hne ?_, place, pending, hplace, hpending, ?_⟩
        · rw [List.isEmpty_iff, List.map_eq_nil_iff]
          exact List.map_eq_nil_iff.mp hempty
        · rw [title_of_found hname hfound]

/-- An attempt without report is a step, told of its source. -/
theorem attempt_false (p : Parser) (later : Registry) (source : Text) (hne : seq ≠ []) :
    (p.attempt later false source seq).result =
        (p.step later seq).result.mapError (Halt.inSource source) ∧
      (p.attempt later false source seq).log = (p.step later seq).log := by
  refine ⟨(p.reporting false).attempt_eq_step source hne nofun, ?_⟩
  unfold step attempt
  cases hmatch : p.firstMatch seq with
  | error m => rfl
  | ok found =>
      cases found with
      | none => rfl
      | some c =>
          obtain ⟨m, h⟩ | ⟨name, place, failure, h⟩ | ⟨e, t, q, -, -, -, h⟩ :=
            apply_cases later seq c
          · simp [h]
          · simp [h]
          · simp [h]

/-- An attempt with report does the same as one without, and tells of the rivals first. Only where
an expression is missing the report may come to a misuse. -/
theorem attempt_true_cases (hp : p.Compares reg rs)
    (hname : List.Forall₂ (fun (c : CompiledRule) (r : Rule) ↦ c.name = r.title) p.rules rs)
    (later : Registry) (source : Text) (hne : seq ≠ []) :
    (.hole ∈ seq ∧ ∃ m, (p.attempt later true source seq).result = .error (.misused m)) ∨
      ((p.attempt later true source seq).result = (p.attempt later false source seq).result ∧
        (p.attempt later true source seq).log =
          p.warnings seq ++ (p.attempt later false source seq).log ∧
        ∀ c, p.firstMatch seq = .ok (some c) → Warns reg rs seq c.site (p.warnings seq)) := by
  cases hmatch : p.firstMatch seq with
  | error m =>
      exact .inr ⟨by simp [attempt, hmatch], by simp [attempt, warnings, hmatch], by simp⟩
  | ok found =>
      cases found with
      | none =>
          exact .inr ⟨by simp [attempt, hmatch], by simp [attempt, warnings, hmatch], by simp⟩
      | some c =>
          cases hreport : p.ambiguity seq c with
          | error m =>
              refine .inl ⟨?_, m, by simp [attempt, hmatch, hreport]⟩
              by_contra hpresent
              obtain ⟨told, htold⟩ := p.ambiguity_ok
                (fun e he hole ↦ hpresent (hole ▸ he)) (Candidate.pos_lt_of_firstFrom hne hmatch)
              cases hreport.symm.trans htold
          | ok told =>
              have htold : p.warnings seq = told := by
                simp [warnings, hmatch, hreport, Except.toOption]
              rw [htold]
              refine .inr ⟨?_, ?_, ?_⟩
              · cases happly : apply later source seq c <;> simp [attempt, hmatch, hreport, happly]
              · cases happly : apply later source seq c <;> simp [attempt, hmatch, hreport, happly]
              · intro c' hc'
                cases hc'
                exact ambiguity_warns hp hname hmatch hreport

/-- Everything that is told of rivals is a warning. -/
theorem level_of_mem_warnings {e : LogEntry} (h : e ∈ p.warnings seq) :
    e.level = utf8 "warning" := by
  unfold warnings at h
  split at h
  · next c _ =>
      cases hreport : p.ambiguity seq c with
      | error m =>
          rw [hreport] at h
          cases h
      | ok told =>
          rw [hreport] at h
          obtain ⟨rivals, -, hreport⟩ := Except.bind_eq_ok_iff.mp hreport
          split at hreport
          · cases hreport
            cases h
          · obtain ⟨place, -, hreport⟩ := Except.bind_eq_ok_iff.mp hreport
            obtain ⟨pending, -, hreport⟩ := Except.bind_eq_ok_iff.mp hreport
            cases hreport
            obtain rfl := List.mem_singleton.mp h
            rfl
  · cases h

/-- What a step tells is that it has folded. -/
theorem eq_reduced_of_mem_step {e : LogEntry} (h : e ∈ (p.step later seq).log) :
    ∃ rule m tag place, e = .reduced rule m tag place := by
  unfold step attempt at h
  split at h
  · cases h
  · cases h
  · next c _ =>
      obtain ⟨m, happly⟩ | ⟨_, _, _, happly⟩ | ⟨_, t, q, -, -, -, happly⟩ := apply_cases later seq c
      · simp [happly] at h
      · simp [happly] at h
      · simp only [happly, Bool.false_eq_true, if_false, List.nil_append, List.mem_singleton] at h
        exact ⟨_, _, _, _, h⟩

/-- What is told of a stall is that no rule matches. -/
theorem eq_stalled_of_mem_stall {source : Text} {e : LogEntry} (h : e ∈ (stall source seq).log) :
    ∃ names, e = .stalled names := by
  unfold stall at h
  split at h
  · exact ⟨_, List.mem_singleton.mp h⟩
  · cases h

/-- A stall tells the same in every source. -/
theorem stall_log (source : Text) (seq : List Expr) :
    (stall source seq).log = (stall [] seq).log := by
  unfold stall
  cases Expr.tagNames seq <;> cases (culprit seq).name <;> cases (culprit seq).pos <;> rfl

/-- Nothing else that is told where a fold is tried is a warning. -/
theorem level_of_mem_entries {e : LogEntry} (h : e ∈ p.entries later seq) :
    e.level ≠ utf8 "warning" := by
  have hlevels : utf8 "debug" ≠ utf8 "warning" := by decide
  have htold : e ∈ (p.step later seq).log ∨ e ∈ (stall [] seq).log := by
    unfold entries at h
    split at h
    · exact List.mem_append.mp h
    · exact .inl h
  rcases htold with h | h
  · obtain ⟨_, _, _, _, rfl⟩ := eq_reduced_of_mem_step h
    exact hlevels
  · obtain ⟨_, rfl⟩ := eq_stalled_of_mem_stall h
    exact hlevels

/-- One round of a reduction on two or more expressions, with report or without. -/
theorem reduceLoop_reporting_succ (report : Bool) (source : Text) (budget : Nat)
    (log : List LogEntry) (htwo : 2 ≤ seq.length) :
    (p.reporting report).reduceLoop later source (budget + 1) log seq =
      match (p.attempt later report source seq).result with
      | .error h => ⟨log.reverse ++ (p.attempt later report source seq).log, .error h⟩
      | .ok none =>
        ⟨log.reverse ++ ((p.attempt later report source seq).log ++ (stall source seq).log),
          .error (stall source seq).result⟩
      | .ok (some folded) =>
        (p.reporting report).reduceLoop later source budget
          ((p.attempt later report source seq).log.reverse ++ log) folded := by
  have hattempt : (p.reporting report).attempt later report source seq =
      p.attempt later report source seq := rfl
  rcases seq with _ | ⟨e, _ | ⟨b, rest⟩⟩
  · simp at htwo
  · simp at htwo
  · simp only [reduceLoop, show (p.reporting report).reportAmbiguity = report from rfl, hattempt]
    cases (p.attempt later report source (e :: b :: rest)).result with
    | error h => simp
    | ok found =>
        cases found with
        | none => simp
        | some folded => rfl

/-- Without a budget, or where nothing is left to fold, the loop ends at once and tells nothing, with
report or without. -/
theorem reduceLoop_of_idle (later : Registry) (source : Text) {budget : Nat}
    (hidle : budget = 0 ∨ seq.length < 2) (log log' : List LogEntry)
    {told told' : List Expr → List LogEntry} {P : List Expr → Prop} :
    ((p.reporting true).reduceLoop later source budget log seq).result =
        ((p.reporting false).reduceLoop later source budget log' seq).result ∧
      ((p.reporting true).reduceLoop later source budget log seq).log = log.reverse ++
        (p.trail later budget seq).flatMap told ∧
      ((p.reporting false).reduceLoop later source budget log' seq).log = log'.reverse ++
        (p.trail later budget seq).flatMap told' ∧
      ∀ s ∈ p.trail later budget seq, P s := by
  obtain ⟨htrail, result, hloop⟩ : p.trail later budget seq = [] ∧ ∃ result, ∀ report log,
      (p.reporting report).reduceLoop later source budget log seq = ⟨log.reverse, result⟩ := by
    rcases seq with _ | ⟨e, _ | ⟨b, rest⟩⟩
    · cases budget <;> exact ⟨rfl, _, fun _ _ ↦ rfl⟩
    · cases budget <;> exact ⟨rfl, _, fun _ _ ↦ rfl⟩
    · obtain rfl : budget = 0 := hidle.resolve_right (by simp)
      exact ⟨rfl, _, fun _ _ ↦ rfl⟩
  rw [hloop, hloop, htrail]
  simp

/-- A reduction with report goes through the same sequences as one without and comes to the same
result. At each of them it tells of the rivals first. Only where an expression is missing the report
may come to a misuse. -/
theorem reduceLoop_reporting (hp : p.Compares reg rs)
    (hname : List.Forall₂ (fun (c : CompiledRule) (r : Rule) ↦ c.name = r.title) p.rules rs)
    (source : Text) (budget : Nat) (log log' : List LogEntry) :
    (.hole ∈ seq ∧
        ∃ m, ((p.reporting true).reduceLoop later source budget log seq).result =
          .error (.misused m)) ∨
      (((p.reporting true).reduceLoop later source budget log seq).result =
          ((p.reporting false).reduceLoop later source budget log' seq).result ∧
        ((p.reporting true).reduceLoop later source budget log seq).log = log.reverse ++
          (p.trail later budget seq).flatMap (fun s ↦ p.warnings s ++ p.entries later s) ∧
        ((p.reporting false).reduceLoop later source budget log' seq).log = log'.reverse ++
          (p.trail later budget seq).flatMap (p.entries later) ∧
        ∀ s ∈ p.trail later budget seq, ∀ c, p.firstMatch s = .ok (some c) →
          Warns reg rs s c.site (p.warnings s)) := by
  induction budget generalizing seq log log' with
  | zero => exact .inr (reduceLoop_of_idle later source (.inl rfl) log log')
  | succ budget ih =>
      by_cases htwo : 2 ≤ seq.length
      · have hne : seq ≠ [] := List.length_pos_iff.mp (by omega)
        rw [reduceLoop_reporting_succ true source budget log htwo,
          reduceLoop_reporting_succ false source budget log' htwo, trail,
          if_neg (Nat.not_lt.mpr htwo)]
        obtain ⟨hfalse, hfalseLog⟩ := p.attempt_false later source hne
        -- Both runs try the step of the same sequence, and go on with the same one behind it.
        obtain ⟨hole, m, hm⟩ | ⟨htrue, htrueLog, hwarns⟩ :=
          attempt_true_cases hp hname later source hne
        · exact .inl ⟨hole, m, by simp [hm]⟩
        · rw [htrue, htrueLog, hfalse, hfalseLog]
          cases hstep : (p.step later seq).result with
          | error h =>
              have hentries : p.entries later seq = (p.step later seq).log := by
                rw [entries, hstep]
              refine .inr ⟨rfl, ?_, ?_, ?_⟩
              · simp [Except.mapError, hentries]
              · simp [Except.mapError, hentries]
              · simpa using hwarns
          | ok found =>
              cases found with
              | none =>
                  have hentries : p.entries later seq =
                      (p.step later seq).log ++ (stall source seq).log := by
                    rw [entries, hstep, stall_log source]
                  refine .inr ⟨rfl, ?_, ?_, ?_⟩
                  · simp [Except.mapError, hentries]
                  · simp [Except.mapError, hentries]
                  · simpa using hwarns
              | some folded =>
                  have hentries : p.entries later seq = (p.step later seq).log := by
                    rw [entries, hstep]
                  have hpresent := (step_present hstep).2
                  obtain ⟨hole, m, hm⟩ | ⟨hresult, hlog, hlog', hall⟩ :=
                    ih ((p.warnings seq ++ (p.step later seq).log).reverse ++ log)
                      ((p.step later seq).log.reverse ++ log')
                  · refine .inl ⟨?_, m, hm⟩
                    by_contra hmissing
                    exact hpresent (fun e he hole ↦ hmissing (hole ▸ he)) _ hole rfl
                  · refine .inr ⟨hresult, ?_, ?_, ?_⟩
                    · exact hlog.trans (by simp [hentries])
                    · exact hlog'.trans (by simp [hentries])
                    · intro s hs
                      rcases List.mem_cons.mp hs with rfl | hs
                      · exact hwarns
                      · exact hall s hs
      · exact .inr (reduceLoop_of_idle later source (.inr (by omega)) log log')

/-- Asking for the report changes nothing else about a parser that is built. -/
theorem build_reporting {c : ParserConfig} {start : Registry} (h : c.build start = .ok (p, reg))
    (report : Bool) :
    { c with reportAmbiguity := report }.build start = .ok (p.reporting report, reg) := by
  obtain ⟨⟨rules, last⟩, hrules, h⟩ := Except.bind_eq_ok_iff.mp h
  cases h
  exact Except.bind_eq_ok_iff.mpr ⟨_, hrules, rfl⟩

/-- The field for the rivals lists them by the names of their rules and their positions. -/
theorem mem_fields_rivals_iff (rule : Text) (m : Match) (ms : List Match) (place : Pos)
    (pending : Text) (grammar : Option Text) (v : FieldValue) :
    (utf8 "rivals", v) ∈ (LogEntry.ambiguous rule m (ms.map fun m ↦ (m.title rs, m.pos)) place
        pending).fields grammar ↔
      v = .text (Text.join (utf8 ", ")
        (ms.map fun m ↦ m.title rs ++ utf8 "@" ++ Text.decimal m.pos)) := by
  have hnames : utf8 "rivals" ∉ [utf8 "col", utf8 "grammar", utf8 "line", utf8 "pending",
    utf8 "pos", utf8 "rule"] := by decide
  simp only [List.mem_cons, List.not_mem_nil, or_false, not_or] at hnames
  have hgrammar : (utf8 "rivals", v) ∉ grammar.toList.map fun g ↦
      (utf8 "grammar", FieldValue.text g) := by
    intro hmem
    obtain ⟨g, -, hg⟩ := List.mem_map.mp hmem
    exact hnames.2.1 (Prod.mk.inj hg).1.symm
  simp [LogEntry.fields, hnames, hgrammar, List.map_map, Function.comp_def, LogEntry.rival]

/-- Reporting rivals observes a reduction and does not change it: with report and without, a parser
comes to the same result, and without warnings the logs are the same. The warnings stand right
before what is told of the fold that is tried next, and tell exactly of the rivals of the chosen
match. Only where an expression is missing the report may come to a misuse of its own. -/
theorem reporting_observes {c : ParserConfig} {history : List Text} {p : Parser} {reg : Registry}
    (h : c.build (Registry.empty.internAll history) = .ok (p, reg)) :
    (∀ report, { c with reportAmbiguity := report }.build (Registry.empty.internAll history) =
        .ok (p.reporting report, reg)) ∧
      (∀ later source seq,
        (.hole ∈ seq ∧
            ∃ m, ((p.reporting true).reduceIn later source seq).result = .error (.misused m)) ∨
          (((p.reporting true).reduceIn later source seq).result =
              ((p.reporting false).reduceIn later source seq).result ∧
            ((p.reporting true).reduceIn later source seq).log.filter
                (·.level ≠ utf8 "warning") =
              ((p.reporting false).reduceIn later source seq).log ∧
            ((p.reporting true).reduceIn later source seq).log =
              (p.trail later (p.budget seq.length) seq).flatMap
                (fun s ↦ p.warnings s ++ p.entries later s) ∧
            (∀ s, ∀ e ∈ p.warnings s, e.level = utf8 "warning") ∧
            (∀ s, ∀ e ∈ p.entries later s, e.level ≠ utf8 "warning") ∧
            ∀ s ∈ p.trail later (p.budget seq.length) seq,
              (p.firstMatch s = .ok none → p.warnings s = []) ∧
              ∀ chosen, p.firstMatch s = .ok (some chosen) →
                Warns reg c.rules s chosen.site (p.warnings s))) ∧
      ∀ rule m (ms : List Match) place pending grammar v,
        (utf8 "rivals", v) ∈ (LogEntry.ambiguous rule m
            (ms.map fun m ↦ (m.title c.rules, m.pos)) place pending).fields grammar ↔
          v = .text (Text.join (utf8 ", ")
            (ms.map fun m ↦ m.title c.rules ++ utf8 "@" ++ Text.decimal m.pos)) := by
  have hstart : (Registry.empty.internAll history).names.Nodup :=
    (Registry.internAll_registry history List.nodup_nil).2.1
  have hname := (ParserConfig.build_builds hstart h).runs.table.imp fun _ _ hrep ↦ hrep.name
  refine ⟨build_reporting h, fun later source seq ↦ ?_, mem_fields_rivals_iff⟩
  refine (reduceLoop_reporting (compares_of_build hstart h) hname source _ [] []).imp_right ?_
  rintro ⟨hresult, hlog, hlog', hwarns⟩
  refine ⟨hresult, ?_, hlog, fun _ _ ↦ level_of_mem_warnings, fun _ _ ↦ level_of_mem_entries,
    fun s hs ↦ ⟨fun hnone ↦ by rw [warnings, hnone], hwarns s hs⟩⟩
  calc ((p.reporting true).reduceIn later source seq).log.filter (·.level ≠ utf8 "warning")
      = ((p.trail later (p.budget seq.length) seq).flatMap
          fun s ↦ p.warnings s ++ p.entries later s).filter (·.level ≠ utf8 "warning") :=
        congrArg _ hlog
    _ = (p.trail later (p.budget seq.length) seq).flatMap (p.entries later) := by
        rw [List.filter_flatMap]
        refine List.flatMap_congr fun s _ ↦ ?_
        rw [List.filter_append, List.filter_eq_nil_iff.mpr, List.filter_eq_self.mpr,
          List.nil_append]
        · exact fun e he ↦ decide_eq_true (level_of_mem_entries he)
        · intro e he
          simp [level_of_mem_warnings he]
    _ = ((p.reporting false).reduceIn later source seq).log := hlog'.symm

/-- A rule that joins `a` with `b` has two rivals on the leaves `a b`, the matches of a rule that
renames either of them; with report and without, the leaves are joined. -/
theorem reporting_observes_overlapping :
    ∃ (c : ParserConfig) (p : Parser) (reg : Registry) (seq : List Expr),
      c.build (Registry.empty.internAll [[97], [98]]) = .ok (p, reg) ∧
        c.rules.map Rule.pattern = [[⟨[[97]]⟩, ⟨[[98]]⟩], [⟨[[97], [98]]⟩]] ∧
        seq.map Expr.name = [.ok [97], .ok [98]] ∧
        ((p.reporting true).reduceIn reg [] seq).log =
          [.ambiguous [112] ⟨0, 0, 2⟩ [([113], 0), ([113], 1)] ⟨1, 1⟩ [97, 32, 98],
            .reduced [112] ⟨0, 0, 2⟩ [97] ⟨1, 1⟩] ∧
        ((p.reporting true).reduceIn reg [] seq).result =
          ((p.reporting false).reduceIn reg [] seq).result ∧
        ((p.reporting true).reduceIn reg [] seq).log.filter (·.level ≠ utf8 "warning") =
          ((p.reporting false).reduceIn reg [] seq).log := by
  let join : Rule := ⟨[112], [⟨[[97]]⟩, ⟨[[98]]⟩], some fun _ _ ↦ .ok (.node ⟨1, [97]⟩ ⟨1, 1⟩ [])⟩
  let rename : Rule := ⟨[113], [⟨[[97], [98]]⟩], some fun _ _ ↦ .ok (.node ⟨2, [98]⟩ ⟨1, 1⟩ [])⟩
  let c : ParserConfig := { rules := [join, rename], budget := id }
  let seq : List Expr :=
    [.leaf ⟨1, [97]⟩ ⟨1, 1⟩ .absent [97], .leaf ⟨2, [98]⟩ ⟨1, 2⟩ .absent [98]]
  obtain ⟨p, reg, h, hlog⟩ : ∃ p reg,
      c.build (Registry.empty.internAll [[97], [98]]) = .ok (p, reg) ∧
        ((p.reporting true).reduceIn reg [] seq).log =
          [.ambiguous [112] ⟨0, 0, 2⟩ [([113], 0), ([113], 1)] ⟨1, 1⟩ [97, 32, 98],
            .reduced [112] ⟨0, 0, 2⟩ [97] ⟨1, 1⟩] := ⟨_, _, rfl, rfl⟩
  refine ⟨c, p, reg, seq, h, rfl, rfl, hlog, ?_⟩
  obtain ⟨hole, -⟩ | ⟨hresult, hfilter, -⟩ := (reporting_observes h).2.1 reg [] seq
  · simp [seq] at hole
  · exact ⟨hresult, hfilter⟩

end Parser

end Tagfold
