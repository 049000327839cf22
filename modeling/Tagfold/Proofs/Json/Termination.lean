import Tagfold.Proofs.Json.Reducers

/-!
# JSON reductions end

Only one rule of JSON folds a single expression: it makes a pair a list of one member. A rank that
puts pairs above everything else is lowered by it, `rules_lower_pairRank`, so that reductions end by
the general argument. Leaves are no pairs, and the potential of a sequence of leaves is at most
twice its length, which is the budget of the parser. `reductions_terminate` has the general
statement and what it comes to for JSON, where nothing is misused either.
-/

namespace Tagfold

/-- A node is tagged as asked for. -/
theorem Reducer.tag_of_nodeOf {t : Tag} {cs : List Expr} {e : Expr} (h : nodeOf t cs = .ok e) :
    e.tag = .ok t := by
  unfold nodeOf Expr.nodeOf Expr.nodeAt at h
  split at h
  · cases h
  · split at h
    · cases h
      rfl
    · next c _ _ =>
        cases hpos : c.pos with
        | error m =>
            rw [hpos] at h
            cases h
        | ok p =>
            rw [hpos] at h
            cases h
            rfl

/-- Collecting gives a node that is tagged as asked for. -/
theorem Reducer.tag_of_collect {t : Tag} {start stop : Int} {seq : List Expr} {i : Nat} {e : Expr}
    (h : collect t start stop seq i = .ok e) : e.tag = .ok t := by
  unfold collect at h
  dsimp only at h
  split at h
  · cases h
  · exact tag_of_nodeOf h

namespace Json

/-- The rank that puts pairs above everything else. -/
def pairRank (name : Text) : Nat :=
  if name = pairName then 1 else 0

/-- No name ranks above pairs. -/
theorem topRank_pairRank_le (reg : Registry) : reg.topRank pairRank ≤ 1 := by
  unfold Registry.topRank
  cases hmax : (reg.names.map pairRank).max? with
  | none => exact Nat.zero_le 1
  | some top =>
      obtain ⟨name, -, rfl⟩ := List.mem_map.mp (List.max?_mem hmax)
      show (if name = pairName then 1 else 0) ≤ 1
      split <;> omega

/-- The rules of JSON lower the rank: the only one with a single place turns a pair into members. -/
theorem rules_lower_pairRank (reg later : Registry) :
    ∀ r ∈ rules (tagsOf reg), r.Lowers pairRank later := by
  intro r hr m reduce hpattern hreducer seq i e t result t' _ _ _ hname hreduce ht' _
  simp only [rules, List.mem_cons, List.not_mem_nil, or_false] at hr
  obtain rfl | rfl | rfl | rfl | rfl | rfl | rfl | rfl | rfl | rfl | rfl := hr
  case inr.inr.inr.inl =>
    cases hpattern
    cases hreducer
    have hpair : t.name = pairName := List.mem_singleton.mp hname
    have hmembers : result.tag = .ok (tagsOf reg).members := Reducer.tag_of_collect hreduce
    obtain rfl : (tagsOf reg).members = t' := Except.ok.inj (hmembers.symm.trans ht')
    rw [hpair]
    show pairRank membersName < pairRank pairName
    decide
  all_goals cases hpattern

/-- The names of what is folded but not finished. -/
def unfinishedNames : List Text :=
  pairName :: listNames

/-- No name of a leaf is that of something unfinished. -/
theorem leaf_not_mem_unfinishedNames :
    (∀ text, keywordTagName text ∉ unfinishedNames ∧ symbolTagName text ∉ unfinishedNames) ∧
      ∀ name ∈ [stringTagName, identifierTagName, integerTagName], name ∉ unfinishedNames := by
  -- They begin with other letters.
  have hhead : ∀ name ∈ unfinishedNames, name.head? ≠ some 75 ∧ name.head? ≠ some 83 := by decide
  refine ⟨fun text ↦ ⟨fun hmem ↦ ?_, fun hmem ↦ ?_⟩, by decide⟩
  · exact (hhead _ hmem).1 rfl
  · exact (hhead _ hmem).2 rfl

namespace Language

variable {report : Bool} {l : Language}

/-- The parser of the front end is built from the table of JSON in a registry that is known. -/
theorem exists_config_of_build (h : build report = .ok l) :
    ∃ start : Registry, start.names.Nodup ∧
      (config (tagsOf l.registry) report).build start = .ok (l.grammar.parser, l.registry) := by
  obtain ⟨⟨g, reg⟩, hgrammar, h⟩ := Except.bind_eq_ok_iff.mp h
  cases h
  obtain ⟨-, hext, -, -⟩ := Grammar.build_builds nodup_internTags hgrammar
  obtain ⟨-, htags, -⟩ := internTags_spec hext
  refine ⟨(internTags .empty).2.internAll (Grammar.leafTagNames lexicon), ?_, ?_⟩
  · exact (Registry.internAll_registry _ nodup_internTags).2.1
  · rw [← htags]
    exact Grammar.build_config hgrammar

/-- The leaves of any tokens are leaves, and none has the name of something unfinished. -/
theorem leaf_of_classify (h : build report = .ok l) {reg reg' : Registry} {ts : List Token}
    {leaves : List Expr} (hclassify : l.grammar.parser.classify reg ts = (.ok leaves, reg')) :
    ∀ e ∈ leaves, ∃ t p v text, e = .leaf t p v text ∧ t.name ∉ unfinishedNames := by
  obtain ⟨start, -, hbuild⟩ := exists_config_of_build h
  obtain ⟨htexts, hnames⟩ := leaf_not_mem_unfinishedNames
  have hleaves := Parser.classify_leafOf (ParserConfig.build_tagged hbuild)
    (congrArg Prod.fst hclassify)
  intro e he
  obtain ⟨i, hi, rfl⟩ := List.getElem_of_mem he
  have hleaf := hleaves.get (hleaves.length_eq.symm ▸ hi) hi
  rw [List.get_eq_getElem, List.get_eq_getElem] at hleaf
  generalize leaves[i] = e at hleaf
  cases hleaf with
  | keyword _ htag => exact ⟨_, _, _, _, rfl, htag ▸ (htexts _).1⟩
  | symbol _ htag => exact ⟨_, _, _, _, rfl, htag ▸ (htexts _).2⟩
  | string _ htag | identifier _ htag | integer _ htag =>
      exact ⟨_, _, _, _, rfl, htag ▸ hnames _ (by simp)⟩

/-- A leaf with an owned tag has the lowest rank if it is no pair. -/
theorem rank_leaf {reg : Registry} {t : Tag} {p : Pos} {v : Value} {text : Text}
    (howned : (Expr.leaf t p v text).Owned reg) (hname : t.name ∉ unfinishedNames) :
    (Expr.leaf t p v text).rank pairRank reg = 0 := by
  obtain ⟨t', ht, howns⟩ := howned
  cases ht
  have hpair : t.name ≠ pairName := fun heq ↦ hname (heq ▸ List.mem_cons_self)
  rw [Expr.rank_eq rfl howns]
  exact if_neg hpair

/-- The reduction of leaves takes at most two steps for each of them, which is within the budget,
and nothing is misused. -/
theorem parse_of_leaves (h : build report = .ok l) (later : List Text) {ts : List Token}
    {leaves : List Expr} {reg' : Registry}
    (hclassify : l.grammar.parser.classify (l.registry.internAll later) ts = (.ok leaves, reg'))
    (hne : leaves ≠ []) :
    ∃ n ≤ 2 * leaves.length, ∃ out, l.grammar.parser.Iterates reg' n leaves out ∧
      l.grammar.parser.Outcome reg' leaves out ∧ (∀ m, out ≠ .error (.misused m)) ∧
      (l.grammar.parser.parse (l.registry.internAll later) ts).1.result =
        out.mapError (Halt.inSource (Parser.sourceName ts)) := by
  obtain ⟨start, hstart, hbuild⟩ := exists_config_of_build h
  have hbuilds := ParserConfig.build_builds hstart hbuild
  obtain ⟨hgrow, hgrowNodup, -⟩ := Registry.internAll_registry later hbuilds.runs.nodup
  obtain ⟨hext, hnodup, howned⟩ :=
    Parser.classify_owned hgrowNodup ((Parser.knows_of_builds hbuilds).mono hgrow) hclassify
  have happlies : l.grammar.parser.Applies reg' (rules (tagsOf l.registry)) :=
    (Parser.applies_of_build hstart hbuild).mono (hext.trans hgrow)
  obtain ⟨n, hn, out, hout, houtcome, hloop⟩ := Parser.reduceLoop_terminates hnodup happlies
    (rules_lower_pairRank l.registry reg') hne
  have hleaf := leaf_of_classify h hclassify
  have hranks : ∀ e ∈ leaves, e.rank pairRank reg' = 0 := by
    intro e he
    obtain ⟨t, p, v, text, rfl, hname⟩ := hleaf e he
    exact rank_leaf (howned _ he) hname
  -- The highest rank is one, so that a leaf of the lowest rank adds at most two.
  have hpotential : Parser.potential pairRank reg' leaves ≤ 2 * leaves.length := by
    rw [Parser.potential_of_rank_eq_zero hranks, Nat.mul_comm]
    exact Nat.mul_le_mul_right _ (Nat.succ_le_succ (topRank_pairRank_le reg'))
  have husable : ∀ e ∈ leaves, e.Owned reg' ∧ Usable e := by
    intro e he
    obtain ⟨t, p, v, text, rfl, hname⟩ := hleaf e he
    exact ⟨howned _ he, usable_leaf fun hlist ↦ hname (List.mem_cons_of_mem _ hlist)⟩
  have hruns : l.grammar.parser.Runs reg' (rules (tagsOf l.registry)) :=
    ⟨hnodup, hbuilds.runs.table.imp fun _ _ hr ↦ hr.mono (hext.trans hgrow)⟩
  have hpresent : ∀ e ∈ leaves, e ≠ .hole := fun e he ↦ (howned e he).ne_hole
  refine ⟨n, hn.trans hpotential, out, hout, houtcome, ?_, ?_⟩
  · exact houtcome.ne_misused (sustains_usable hruns) (fun _ h ↦ h.2.ne_hole) husable
  · rw [Parser.parse, hclassify]
    refine hloop (fun _ ↦ hpresent) (Parser.sourceName ts) _ [] ?_
    rw [hbuilds.budget]
    exact hn.trans hpotential

/-- The parser of JSON is never over its budget and never misused, whatever tokens it is given. -/
theorem parse_settles (h : build report = .ok l) (later : List Text) (ts : List Token) :
    (∃ e, (l.grammar.parser.parse (l.registry.internAll later) ts).1.result = .ok e) ∨
      ∃ e, (l.grammar.parser.parse (l.registry.internAll later) ts).1.result =
        .error (.failed e) := by
  rcases hclassify : l.grammar.parser.classify (l.registry.internAll later) ts with
    ⟨e | leaves, reg'⟩
  · exact .inr ⟨e, by simp [Parser.parse, hclassify]⟩
  · by_cases hne : leaves = []
    · subst hne
      refine .inr ⟨.emptyInput (Parser.sourceName ts), ?_⟩
      simp only [Parser.parse, hclassify, Parser.reduceIn, Parser.reduceLoop]
    · obtain ⟨n, -, out, -, houtcome, hmisused, hparse⟩ := parse_of_leaves h later hclassify hne
      rw [hparse]
      cases houtcome with
      | result e => exact .inl ⟨e, rfl⟩
      | stalled => exact .inr ⟨_, rfl⟩
      | reducer => exact .inr ⟨_, rfl⟩
      | missing m => exact absurd rfl (hmisused m)
      | misused m => exact absurd rfl (hmisused m)

end Language

/-- Reductions by a table end if there is a rank of tag names that its rules of one place lower,
however wide rules treat the rank: after at most as many steps as the potential of the sequence,
with a result, a stall or a reducer error. The table of JSON has such a rank, so that its parser
ends on all tokens, within its budget and without a misuse. -/
theorem reductions_terminate :
    (∀ (c : ParserConfig) (history later : List Text) (p : Parser) (reg : Registry)
        (rank : Text → Nat), c.build (Registry.empty.internAll history) = .ok (p, reg) →
        (∀ r ∈ c.rules, r.Lowers rank (reg.internAll later)) → ∀ seq, seq ≠ [] →
        ∃ n ≤ Parser.potential rank (reg.internAll later) seq, ∃ out,
          p.Iterates (reg.internAll later) n seq out ∧ p.Outcome (reg.internAll later) seq out ∧
          ((p.reportAmbiguity = true → ∀ e ∈ seq, e ≠ .hole) → ∀ source budget log, n ≤ budget →
            (p.reduceLoop (reg.internAll later) source budget log seq).result =
              out.mapError (Halt.inSource source))) ∧
      ∀ report l, Language.build report = .ok l → ∀ later,
        (∀ r ∈ rules (tagsOf l.registry), r.Lowers pairRank (l.registry.internAll later)) ∧
          (∀ ts leaves reg',
            l.grammar.parser.classify (l.registry.internAll later) ts = (.ok leaves, reg') →
            leaves ≠ [] → ∃ n ≤ 2 * leaves.length, ∃ out,
              l.grammar.parser.Iterates reg' n leaves out ∧
              l.grammar.parser.Outcome reg' leaves out ∧ (∀ m, out ≠ .error (.misused m)) ∧
              (l.grammar.parser.parse (l.registry.internAll later) ts).1.result =
                out.mapError (Halt.inSource (Parser.sourceName ts))) ∧
          ∀ ts, (∃ e, (l.grammar.parser.parse (l.registry.internAll later) ts).1.result = .ok e) ∨
            ∃ e, (l.grammar.parser.parse (l.registry.internAll later) ts).1.result =
              .error (.failed e) := by
  refine ⟨fun c history later p reg rank h hrank seq hne ↦ ?_, fun report l h later ↦ ?_⟩
  · have hstart : (Registry.empty.internAll history).names.Nodup :=
      (Registry.internAll_registry history List.nodup_nil).2.1
    obtain ⟨hext, hnodup, -⟩ := Registry.internAll_registry later
      (ParserConfig.build_builds hstart h).runs.nodup
    have happlies := (Parser.applies_of_build hstart h).mono hext
    exact Parser.reduceLoop_terminates hnodup happlies hrank hne
  · exact ⟨rules_lower_pairRank l.registry _, fun ts leaves reg' ↦ Language.parse_of_leaves h later,
      Language.parse_settles h later⟩

/-- A rule that turns `a` into `b` lowers the rank of `a`, and a rule that folds `b b` into `a`
raises it again; still, reductions of `a a` end. So do those of JSON. -/
theorem reductions_terminate_raising :
    (∃ (c : ParserConfig) (p : Parser) (reg : Registry) (rank : Text → Nat) (seq : List Expr),
      c.build (Registry.empty.internAll [[97], [98]]) = .ok (p, reg) ∧
        c.rules.map Rule.pattern = [[⟨[[97]]⟩], [⟨[[98]]⟩, ⟨[[98]]⟩]] ∧
        seq.map Expr.name = [.ok [97], .ok [97]] ∧
        (∀ r ∈ c.rules, r.Lowers rank (reg.internAll [])) ∧
        ∃ n ≤ Parser.potential rank (reg.internAll []) seq, ∃ out,
          p.Iterates (reg.internAll []) n seq out ∧ p.Outcome (reg.internAll []) seq out) ∧
      ∃ l, Language.build false = .ok l ∧
        ∀ ts, (∃ e, (l.grammar.parser.parse (l.registry.internAll []) ts).1.result = .ok e) ∨
          ∃ e, (l.grammar.parser.parse (l.registry.internAll []) ts).1.result =
            .error (.failed e) := by
  constructor
  · let lower : Rule := ⟨[108], [⟨[[97]]⟩], some fun _ _ ↦ .ok (.node ⟨2, [98]⟩ ⟨1, 1⟩ [])⟩
    let raise : Rule :=
      ⟨[114], [⟨[[98]]⟩, ⟨[[98]]⟩], some fun _ _ ↦ .ok (.node ⟨1, [97]⟩ ⟨1, 1⟩ [])⟩
    let c : ParserConfig := { rules := [lower, raise], budget := id }
    obtain ⟨p, reg, h⟩ : ∃ p reg, c.build (Registry.empty.internAll [[97], [98]]) = .ok (p, reg) :=
      ⟨_, _, rfl⟩
    have hrank : ∀ r ∈ c.rules,
        r.Lowers (fun name ↦ if name = [97] then 1 else 0) (reg.internAll []) := by
      intro r hr m reduce hpattern hreducer seq i e t result t' _ _ _ hname hreduce ht' _
      rcases List.mem_cons.mp hr with rfl | hr
      · cases hpattern
        cases hreducer
        cases hreduce
        cases ht'
        rw [List.mem_singleton.mp hname]
        decide
      · obtain rfl := List.mem_singleton.mp hr
        cases hpattern
    obtain ⟨n, hn, out, hout, houtcome, -⟩ := reductions_terminate.1 c _ [] p reg _ h hrank
      [.leaf ⟨1, [97]⟩ ⟨1, 1⟩ .absent [97], .leaf ⟨1, [97]⟩ ⟨1, 2⟩ .absent [97]]
      (List.cons_ne_nil _ _)
    exact ⟨c, p, reg, _, _, h, rfl, rfl, hrank, n, hn, out, hout, houtcome⟩
  · obtain ⟨l, h⟩ := Language.exists_build false
    exact ⟨l, h, (reductions_terminate.2 false l h []).2.2⟩

end Json

end Tagfold
