import Tagfold.Proofs.Reduction.Candidates
import Tagfold.Proofs.Reduction.Iteration

/-!
# Reductions that end

Every step shortens the sequence or applies a rule of one place, which keeps its length. A reduction
ends if the rules of one place lower a rank of tag names, `Rule.Lowers`. Wider rules may raise
ranks, but what they remove pays for it: `Parser.potential_lt_of_step` says that every step lowers
the `Parser.potential` of the sequence, so that no reduction takes more steps than the potential of
its start, `Parser.exists_iterates_of_lowers`. `Parser.Outcome` lists what a reduction can come to,
and `Parser.Outcome.ne_misused` leaves misuses out where the reducers keep an invariant.
-/

namespace Tagfold

/-- A rule of one place lowers the rank: its reducer has results of a lower rank than the expression
that is matched. Nothing is said about wider rules, nor about tags of other registries. -/
def Rule.Lowers (rank : Text → Nat) (reg : Registry) (r : Rule) : Prop :=
  ∀ m reduce, r.pattern = [m] → r.reduce = some reduce →
    ∀ seq i e t result t', seq[i]? = some e → e.tag = .ok t → reg.owns t = true →
      t.name ∈ m.names → reduce seq i = .ok result → result.tag = .ok t' → reg.owns t' = true →
        rank t'.name < rank t.name

/-- The highest rank of a name that the registry knows. -/
def Registry.topRank (reg : Registry) (rank : Text → Nat) : Nat :=
  (reg.names.map rank).max?.getD 0

/-- No known name has a higher rank than the highest. -/
theorem Registry.rank_le_topRank {reg : Registry} (rank : Text → Nat) {name : Text}
    (h : name ∈ reg.names) : rank name ≤ reg.topRank rank :=
  List.le_max?_getD_of_mem (List.mem_map_of_mem h)

/-- The rank of an expression is that of its tag. What has no tag of the registry ranks above all
that has. -/
def Expr.rank (rank : Text → Nat) (reg : Registry) (e : Expr) : Nat :=
  match e.tag with
  | .ok t => if reg.owns t then rank t.name else reg.topRank rank + 1
  | .error _ => reg.topRank rank + 1

namespace Expr

variable {rank : Text → Nat} {reg : Registry} {e : Expr} {t : Tag}

/-- An expression with an owned tag has the rank of its name. -/
theorem rank_eq (ht : e.tag = .ok t) (howns : reg.owns t = true) :
    e.rank rank reg = rank t.name := by
  rw [Expr.rank, ht]
  exact if_pos howns

/-- An expression with an owned tag ranks no higher than the highest known name. -/
theorem rank_le (hn : reg.names.Nodup) (h : e.Owned reg) : e.rank rank reg ≤ reg.topRank rank := by
  obtain ⟨t, ht, howns⟩ := h
  rw [rank_eq ht howns]
  exact Registry.rank_le_topRank rank ((Registry.owns_iff hn).mp howns).1

/-- Everything else ranks higher. -/
theorem rank_of_not_owned (h : ¬ e.Owned reg) : e.rank rank reg = reg.topRank rank + 1 := by
  unfold Expr.rank
  split
  · next t ht => exact if_neg fun howns ↦ h ⟨t, ht, howns⟩
  · rfl

end Expr

namespace Parser

/-- The potential of a sequence: the ranks of its expressions, and for each of them more than the
highest rank of a known name. -/
def potential (rank : Text → Nat) (reg : Registry) : List Expr → Nat
  | [] => 0
  | e :: seq => e.rank rank reg + (reg.topRank rank + 1) + potential rank reg seq

variable {rank : Text → Nat} {p : Parser} {reg later : Registry} {rs : List Rule}
  {seq folded : List Expr}

/-- The potential of a single expression. -/
theorem potential_singleton (e : Expr) :
    potential rank reg [e] = e.rank rank reg + (reg.topRank rank + 1) := rfl

/-- The potential of a sequence is that of its parts. -/
theorem potential_append (seq behind : List Expr) :
    potential rank reg (seq ++ behind) = potential rank reg seq + potential rank reg behind := by
  induction seq with
  | nil => simp [potential]
  | cons e seq ih =>
      rw [List.cons_append, potential, potential, ih]
      omega

/-- Every expression adds more than the highest rank. -/
theorem length_mul_le_potential (seq : List Expr) :
    seq.length * (reg.topRank rank + 1) ≤ potential rank reg seq := by
  induction seq with
  | nil => simp
  | cons e seq ih =>
      rw [potential, List.length_cons, Nat.succ_mul]
      omega

/-- Where all ranks are lowest, nothing is added to it. -/
theorem potential_of_rank_eq_zero (h : ∀ e ∈ seq, e.rank rank reg = 0) :
    potential rank reg seq = seq.length * (reg.topRank rank + 1) := by
  induction seq with
  | nil => simp [potential]
  | cons e seq ih =>
      rw [potential, h e List.mem_cons_self, ih fun a ha ↦ h a (List.mem_cons_of_mem _ ha),
        List.length_cons, Nat.succ_mul]
      omega

/-- Folding two or more expressions into one lowers the potential, whatever their ranks are. -/
theorem potential_lt_of_wide {span : List Expr} {e : Expr} (hn : reg.names.Nodup)
    (hspan : 2 ≤ span.length) (he : e.Owned reg) :
    potential rank reg [e] < potential rank reg span := by
  have hlength : 2 * (reg.topRank rank + 1) ≤ span.length * (reg.topRank rank + 1) :=
    Nat.mul_le_mul_right _ hspan
  have hrank : e.rank rank reg ≤ reg.topRank rank := Expr.rank_le hn he
  calc potential rank reg [e]
      = e.rank rank reg + (reg.topRank rank + 1) := potential_singleton e
    _ < 2 * (reg.topRank rank + 1) := by omega
    _ ≤ span.length * (reg.topRank rank + 1) := hlength
    _ ≤ potential rank reg span := length_mul_le_potential span

/-- Folding one expression by a rule that lowers the rank lowers the potential. -/
theorem potential_lt_of_narrow {r : Rule} {m : Matcher} {reduce : Reducer} {i : Nat} {a e : Expr}
    {t : Tag} (hn : reg.names.Nodup) (hr : r.Lowers rank reg) (hpattern : r.pattern = [m])
    (hreducer : r.reduce = some reduce) (ha : seq[i]? = some a) (ht : a.tag = .ok t)
    (hadmits : reg.owns t = true → t.name ∈ m.names) (hreduce : reduce seq i = .ok e)
    (he : e.Owned reg) : potential rank reg [e] < potential rank reg [a] := by
  suffices hrank : e.rank rank reg < a.rank rank reg by
    rw [potential_singleton, potential_singleton]
    omega
  by_cases howns : reg.owns t = true
  · obtain ⟨t', ht', howns'⟩ := he
    rw [Expr.rank_eq ht' howns', Expr.rank_eq ht howns]
    exact hr m reduce hpattern hreducer seq i a t e t' ha ht howns (hadmits howns) hreduce ht'
      howns'
  · -- The rule turns a tag of another registry into one that is known.
    have hforeign : ¬ a.Owned reg := by
      rintro ⟨t', ht', howns'⟩
      cases ht.symm.trans ht'
      exact howns howns'
    have hle : e.rank rank reg ≤ reg.topRank rank := Expr.rank_le hn he
    rw [Expr.rank_of_not_owned hforeign]
    omega

/-- The compiled rules compare the numbers that the rules of a table name, and have the reducers of
these rules. -/
abbrev Applies (reg : Registry) (p : Parser) (rs : List Rule) : Prop :=
  List.Forall₂ (fun (c : CompiledRule) (r : Rule) ↦ c.Compares reg r ∧ r.reduce = some c.reduce)
    p.rules rs

/-- Every step lowers the potential. -/
theorem potential_lt_of_step (hn : reg.names.Nodup) (hp : p.Applies reg rs)
    (hrank : ∀ r ∈ rs, r.Lowers rank reg) (h : (p.step reg seq).result = .ok (some folded)) :
    potential rank reg folded < potential rank reg seq := by
  obtain ⟨c, e, hmatch, hreduce, he, rfl⟩ := exists_reduced_of_step h
  have hfound := Candidate.found_of_firstFrom hmatch
  obtain ⟨r, hr, hcompares, hreducer⟩ := hfound.exists_rule hp
  obtain ⟨hroom, hadmits⟩ := hcompares.matchesAt_iff.mp hfound.accepts
  have hlen : c.site.len = r.pattern.length := hfound.len.trans hcompares.width_eq
  obtain ⟨before, span, behind, hsplit, hbefore, hspan, hfolded⟩ := exists_span (hlen ▸ hroom)
  suffices hlt : potential rank reg [e] < potential rank reg span by
    have hfirst : potential rank reg (e :: behind) =
        potential rank reg [e] + potential rank reg behind := potential_append [e] behind
    rw [hfolded, hsplit, potential_append, potential_append, potential_append, hfirst]
    omega
  rw [hlen] at hspan
  rcases hpattern : r.pattern with _ | ⟨m, _ | ⟨m', ms⟩⟩
  · exact absurd hpattern hcompares.pattern
  · -- The only expression of the span is the one that the only matcher admits.
    obtain ⟨a, t, ha, ht, hadmits⟩ := hadmits 0 m (by rw [hpattern]; rfl)
    obtain ⟨b, rfl⟩ := List.length_eq_one_iff.mp (hspan.trans (by rw [hpattern]; rfl))
    obtain rfl : b = a := by
      rw [hsplit, List.getElem?_append_right (by omega), hbefore] at ha
      simpa using ha
    refine potential_lt_of_narrow hn (hrank r (List.mem_of_getElem? hr)) hpattern hreducer ha ht
      (fun howns ↦ ?_) hreduce he
    have hm : m ∈ r.pattern := by
      rw [hpattern]
      exact List.mem_singleton_self m
    exact (Matcher.admits_iff hn (hcompares.names m hm) howns).mp hadmits
  · refine potential_lt_of_wide hn ?_ he
    rw [hspan, hpattern]
    simp

/-- The steps of a run are paid for by the potential of its start. -/
theorem Steps.add_potential_le (hn : reg.names.Nodup) (hp : p.Applies reg rs)
    (hrank : ∀ r ∈ rs, r.Lowers rank reg) {n : Nat} {last : List Expr}
    (h : p.Steps reg n seq last) : n + potential rank reg last ≤ potential rank reg seq := by
  induction h with
  | refl seq => omega
  | head htwo hstep _ ih =>
      have hlt := potential_lt_of_step hn hp hrank hstep
      omega

/-- With rules that lower a rank, the loop of steps ends after at most as many steps as the
potential of its start. -/
theorem exists_iterates_of_lowers (hn : reg.names.Nodup) (hp : p.Applies reg rs)
    (hrank : ∀ r ∈ rs, r.Lowers rank reg) (hne : seq ≠ []) :
    ∃ n ≤ potential rank reg seq, ∃ out, p.Iterates reg n seq out := by
  obtain h | ⟨last, hsteps, hlast⟩ := iterates_or_steps p reg (potential rank reg seq) hne
  · exact h
  · -- Two expressions that are left would have a potential of their own.
    have hpaid := hsteps.add_potential_le hn hp hrank
    have hmul : last.length * (reg.topRank rank + 1) ≤ potential rank reg last :=
      length_mul_le_potential last
    have hpos : 0 < last.length * (reg.topRank rank + 1) :=
      Nat.mul_pos (by omega) (Nat.succ_pos _)
    omega

/-- What a loop of steps can come to: a result, a stall, or a reducer error. It is misused only if
an expression is missing at its start, or the reducer that is chosen somewhere on the way is
misused. -/
inductive Outcome (p : Parser) (reg : Registry) (seq : List Expr) : Except Halt Expr → Prop where
  | result (e : Expr) : Outcome p reg seq (.ok e)
  | stalled (source tag : Text) (place : Pos) (names : Text) (remaining : List Expr) :
      Outcome p reg seq (.error (.failed (.stalled source tag place names remaining)))
  | reducer (source rule tag : Text) (place : Pos) (failure : ReducerFailure) :
      Outcome p reg seq (.error (.failed (.reducer source rule tag place failure)))
  | missing (m : Misuse) : .hole ∈ seq → Outcome p reg seq (.error (.misused m))
  | misused (m : Misuse) (n : Nat) (last : List Expr) (c : Candidate) : p.Steps reg n seq last →
      p.firstMatch last = .ok (some c) → c.rule.reduce last c.site.pos = .error (.misuse m) →
      Outcome p reg seq (.error (.misused m))

/-- Where every expression is there, applying a rule is misused only by the reducer. -/
theorem misuse_of_apply {source : Text} {c : Candidate} {m : Misuse}
    (hpresent : ∀ e ∈ seq, e ≠ .hole) (hpos : c.site.pos < seq.length)
    (h : apply reg source seq c = .error (.misused m)) :
    c.rule.reduce seq c.site.pos = .error (.misuse m) := by
  have hfirst : seq[c.site.pos]? = some seq[c.site.pos] := List.getElem?_eq_getElem hpos
  obtain ⟨name, hname⟩ := Expr.name_ok (hpresent _ (List.getElem_mem hpos))
  obtain ⟨place, hplace⟩ := Expr.pos_ok (hpresent _ (List.getElem_mem hpos))
  simp only [apply, hfirst, Option.getD_some, hname, hplace, Halt.ofMisuse, Except.mapError, bind,
    Except.bind] at h
  cases hreduce : c.rule.reduce seq c.site.pos with
  | error fault =>
      rw [hreduce] at h
      cases fault with
      | misuse m' =>
          cases h
          rfl
      | issue i => cases h
  | ok e =>
      -- The result has a tag and a position, or there is no result.
      rw [hreduce] at h
      by_cases hole : e = .hole
      · subst hole
        cases h
      · obtain ⟨t, ht⟩ := Expr.tag_ok hole
        obtain ⟨q, hq⟩ := Expr.pos_ok hole
        simp only [ht, hq] at h
        split at h <;> cases h

/-- Where every expression is there, a step is misused only by the reducer of the first match. -/
theorem misuse_of_step (hne : seq ≠ []) (hpresent : ∀ e ∈ seq, e ≠ .hole) {m : Misuse}
    (h : (p.step reg seq).result = .error (.misused m)) :
    ∃ c, p.firstMatch seq = .ok (some c) ∧ c.rule.reduce seq c.site.pos = .error (.misuse m) := by
  obtain ⟨all, hall⟩ := Candidate.allFrom_ok hpresent 0 p.rules
  have hmatch : p.firstMatch seq = .ok all.head? := Candidate.firstFrom_eq_head? hall
  cases hhead : all.head? with
  | none =>
      rw [hhead] at hmatch
      simp [step, attempt, hmatch] at h
  | some c =>
      rw [hhead] at hmatch
      have hpos := Candidate.pos_lt_of_firstFrom hne hmatch
      cases happly : apply reg [] seq c with
      | ok folded => simp [step, attempt, hmatch, happly] at h
      | error halt =>
          obtain rfl : halt = .misused m := by simpa [step, attempt, hmatch, happly] using h
          exact ⟨c, hmatch, misuse_of_apply hpresent hpos happly⟩

/-- The error of a step is one that a reduction may come to. -/
theorem outcome_of_step (hne : seq ≠ []) {halt : Halt}
    (h : (p.step reg seq).result = .error halt) : p.Outcome reg seq (.error halt) := by
  obtain ⟨m, hm⟩ | ⟨_, _, _, _, hm⟩ | ⟨hm, -⟩ | ⟨_, _, _, -, -, hm⟩ := step_cases p reg seq
  · cases hm.symm.trans h
    by_cases hmissing : .hole ∈ seq
    · exact .missing m hmissing
    · obtain ⟨c, hmatch, hreduce⟩ := misuse_of_step hne (fun e he hole ↦ hmissing (hole ▸ he)) hm
      exact .misused m 0 seq c (.refl seq) hmatch hreduce
  · cases hm.symm.trans h
    exact .reducer ..
  · cases hm.symm.trans h
  · cases hm.symm.trans h

/-- A stall is one that a reduction may come to. -/
theorem outcome_of_stall (source : Text) (hne : seq ≠ []) :
    p.Outcome reg seq (.error (stall source seq).result) := by
  by_cases hmissing : .hole ∈ seq
  · unfold stall
    split
    · exact .stalled ..
    · exact .missing _ hmissing
  · have hpresent : ∀ e ∈ seq, e ≠ .hole := fun e he hole ↦ hmissing (hole ▸ he)
    have hculprit : culprit seq ≠ .hole := hpresent _ (blamed_culprit hne).mem
    obtain ⟨names, hnames⟩ := Expr.tagNames_ok hpresent
    obtain ⟨tag, htag⟩ := Expr.name_ok hculprit
    obtain ⟨place, hplace⟩ := Expr.pos_ok hculprit
    simp only [stall, hnames, htag, hplace]
    exact .stalled ..

/-- What a sequence may come to after a step, it may come to before. -/
theorem Outcome.of_step {out : Except Halt Expr} (h : p.Outcome reg folded out)
    (htwo : 2 ≤ seq.length) (hstep : (p.step reg seq).result = .ok (some folded)) :
    p.Outcome reg seq out := by
  cases h with
  | result e => exact .result e
  | stalled => exact .stalled ..
  | reducer => exact .reducer ..
  | missing m hole =>
      refine .missing m ?_
      by_contra hmissing
      exact (step_present hstep).2 (fun e he hole ↦ hmissing (hole ▸ he)) _ hole rfl
  | misused m n last c hsteps hmatch hreduce =>
      exact .misused m (n + 1) last c (.head htwo hstep hsteps) hmatch hreduce

/-- What the loop of steps comes to is a result, a stall or a reducer error, or a misuse as said. -/
theorem Iterates.outcome {n : Nat} {out : Except Halt Expr} (h : p.Iterates reg n seq out) :
    p.Outcome reg seq out := by
  induction h with
  | done e => exact .result e
  | failed htwo hstep => exact outcome_of_step (List.length_pos_iff.mp (by omega)) hstep
  | stalled htwo _ => exact outcome_of_stall [] (List.length_pos_iff.mp (by omega))
  | again htwo hstep _ ih => exact ih.of_step htwo hstep

/-- The reducers of first matches keep a property of expressions: where all expressions of a
sequence have it, the reducer is not misused, and a result with an owned tag has the property. -/
def Sustains (p : Parser) (reg : Registry) (I : Expr → Prop) : Prop :=
  ∀ seq c, (∀ e ∈ seq, I e) → p.firstMatch seq = .ok (some c) →
    (∀ m, c.rule.reduce seq c.site.pos ≠ .error (.misuse m)) ∧
      ∀ e, c.rule.reduce seq c.site.pos = .ok e → e.Owned reg → I e

/-- Successful steps keep what the reducers keep. -/
theorem Steps.sustained {I : Expr → Prop} {n : Nat} {last : List Expr}
    (h : p.Steps reg n seq last) (hp : p.Sustains reg I) (hseq : ∀ e ∈ seq, I e) :
    ∀ e ∈ last, I e := by
  induction h with
  | refl seq => exact hseq
  | head htwo hstep _ ih =>
      obtain ⟨c, e, hmatch, hreduce, he, rfl⟩ := exists_reduced_of_step hstep
      refine ih fun a ha ↦ ?_
      rcases mem_replaceSpan ha with rfl | ha
      · exact (hp _ c hseq hmatch).2 a hreduce he
      · exact hseq a ha

/-- Nothing is misused where the reducers keep a property that all expressions have at the start,
and that only expressions have that are there. -/
theorem Outcome.ne_misused {I : Expr → Prop} {out : Except Halt Expr} (h : p.Outcome reg seq out)
    (hp : p.Sustains reg I) (hpresent : ∀ e, I e → e ≠ .hole) (hseq : ∀ e ∈ seq, I e)
    (m : Misuse) : out ≠ .error (.misused m) := by
  cases h with
  | result => nofun
  | stalled => nofun
  | reducer => nofun
  | missing m' hole => exact absurd rfl (hpresent _ (hseq _ hole))
  | misused m' n last c hsteps hmatch hreduce =>
      exact absurd hreduce ((hp last c (hsteps.sustained hp hseq) hmatch).1 m')

/-- Rules that lower a rank of tag names make every reduction end: within as many steps as the
potential of the sequence, it comes to a result, a stall or a reducer error, with every budget that
allows so many steps. -/
theorem reduceLoop_terminates (hn : reg.names.Nodup) (hp : p.Applies reg rs)
    (hrank : ∀ r ∈ rs, r.Lowers rank reg) (hne : seq ≠ []) :
    ∃ n ≤ potential rank reg seq, ∃ out, p.Iterates reg n seq out ∧ p.Outcome reg seq out ∧
      ((p.reportAmbiguity = true → ∀ e ∈ seq, e ≠ .hole) → ∀ source budget log, n ≤ budget →
        (p.reduceLoop reg source budget log seq).result = out.mapError (Halt.inSource source)) := by
  obtain ⟨n, hn, out, hout⟩ := exists_iterates_of_lowers hn hp hrank hne
  exact ⟨n, hn, out, hout, hout.outcome, fun hpresent source budget log hbudget ↦
    hout.reduceLoop_eq hpresent source hbudget log⟩

/-- The rules are applied alike while the registry grows. -/
theorem Applies.mono (h : p.Applies reg rs) (hext : later.Extends reg) : p.Applies later rs :=
  h.imp fun _ _ hr ↦ ⟨hr.1.mono hext, hr.2⟩

/-- A built parser applies the rules of its configuration. -/
theorem applies_of_build {c : ParserConfig} {start : Registry} (hn : start.names.Nodup)
    (h : c.build start = .ok (p, reg)) : p.Applies reg c.rules := by
  have hcompares : p.Compares reg c.rules := compares_of_build hn h
  have hbuilds := ParserConfig.build_builds hn h
  exact List.Forall₂.mp (fun _ _ hrep hc ↦ ⟨hc, hrep.reduce⟩) hbuilds.runs.table hcompares

end Parser

end Tagfold
