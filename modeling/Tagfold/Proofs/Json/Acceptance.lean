import Tagfold.Proofs.Json.Lexemes
import Tagfold.Proofs.Json.Printing

/-!
# What is accepted besides values

The folding ends as soon as one expression is left, whatever its tag is. So some texts are accepted
that are no values: `Fragment` lists their tokens. `parse_not_isValue_iff_fragment` says that these
are all, and that neither decoding nor printing has a result for the expressions of fragments.
-/

namespace Tagfold.Json

open Reading

/-- Tokens that are folded into one expression which is no value. -/
inductive Fragment : List Token → Prop where
  | punct {t : Token} {p : Punct} : IsPunct p t → Fragment [t]
  | key {k c : Token} {s : Text} : IsString s k → IsPunct .colon c → Fragment [k, c]
  | members {ts : List Token} {ms : List Member} : Derives ts (.members ms) → Fragment ts
  | elements {o : Token} {ts : List Token} {vs : List Tree} :
      IsPunct .openBracket o → Derives ts (.items vs) → Fragment (o :: ts)

/-- A phrase has tokens. -/
theorem Derives.ne_nil {ts : List Token} {phrase : Phrase} (h : Derives ts phrase) : ts ≠ [] := by
  rintro rfl
  obtain ⟨first, rest, -, hleaves, -⟩ := h.leaves
  cases hleaves

/-- A part stands for some tokens. -/
theorem Covers.ne_nil {ts : List Token} {p : Part} (h : Covers ts p) : ts ≠ [] := by
  cases p with
  | punct q pos =>
      obtain ⟨t, rfl, -⟩ := h
      exact List.cons_ne_nil _ _
  | key pos s =>
      obtain ⟨t, c, rfl, -⟩ := h
      exact List.cons_ne_nil _ _
  | elements pos v vs =>
      obtain ⟨o, us, rfl, -⟩ := h
      exact List.cons_ne_nil _ _
  | value v => exact Derives.ne_nil h
  | pair m => exact Derives.ne_nil h
  | members m ms => exact Derives.ne_nil h

/-- There are no more parts than tokens that they stand for. -/
theorem Spans.length_le {ts : List Token} {parts : List Part} (h : Spans ts parts) :
    parts.length ≤ ts.length := by
  induction h with
  | nil => exact Nat.le_refl _
  | cons hp _ ih =>
      have := List.length_pos_iff.mpr hp.ne_nil
      simp only [List.length_cons, List.length_append]
      omega

/-- Tokens are what some parts stand for. -/
theorem Spans.ne_nil {ts : List Token} {parts : List Part} (h : Spans ts parts) (hts : ts ≠ []) :
    parts ≠ [] := by
  rintro rfl
  cases h
  exact hts rfl

/-- The tokens of a part that is no value are a fragment. -/
theorem Covers.fragment {ts : List Token} {p : Part} (h : Covers ts p) (hp : ∀ v, p ≠ .value v) :
    Fragment ts := by
  cases p with
  | value v => exact absurd rfl (hp v)
  | punct q pos =>
      obtain ⟨t, rfl, -, ht⟩ := h
      exact .punct ht
  | key pos s =>
      obtain ⟨t, c, rfl, -, ht, hc⟩ := h
      exact .key ht hc
  | pair m => exact .members (.lastMember h)
  | members m ms => exact .members h
  | elements pos v vs =>
      obtain ⟨o, us, rfl, -, ho, hus⟩ := h
      exact .elements ho hus

/-- A value of one token is a leaf. -/
theorem Derives.leaf {t : Token} {v : Tree} (h : Derives [t] (.value v)) : Leaf t (.value v) := by
  generalize hts : [t] = ts at h
  cases h with
  | string ht => cases hts; exact .string ht
  | integer ht => cases hts; exact .numeral ht
  | constant ht => cases hts; exact .constant ht
  | _ => simp at hts

/-- A pair has more than one token. -/
theorem Derives.not_pair {t : Token} {m : Member} : ¬ Derives [t] (.pair m) := by
  intro h
  generalize hts : [t] = ts at h
  cases h with
  | pair => simp at hts

/-- A part of one token is a leaf. -/
theorem Covers.leaf {t : Token} {p : Part} (h : Covers [t] p) : Leaf t p := by
  cases p with
  | punct q pos =>
      obtain ⟨u, hu, rfl, hq⟩ := h
      cases hu
      exact .punct hq
  | value v => exact Derives.leaf h
  | key pos s =>
      obtain ⟨u, c, hu, -⟩ := h
      cases hu
  | pair m => exact absurd h Derives.not_pair
  | members m ms =>
      have h : Derives [t] (.members (m :: ms)) := h
      generalize hts : [t] = ts at h
      cases h with
      | lastMember hm =>
          subst hts
          exact absurd hm Derives.not_pair
      | nextMember hm _ _ =>
          have := List.length_pos_iff.mpr hm.ne_nil
          have hlength := congrArg List.length hts
          simp only [List.length_cons, List.length_nil, List.length_append] at hlength
          omega
  | elements pos v vs =>
      obtain ⟨o, us, hts, -, -, hus⟩ := h
      cases hts
      exact absurd rfl hus.ne_nil

/-- As many parts as tokens are leaves. -/
theorem Spans.leaves {ts : List Token} {parts : List Part} (h : Spans ts parts)
    (hlength : ts.length ≤ parts.length) : Leaves ts parts := by
  induction h with
  | nil => exact .nil
  | @cons ts us p ps hp hps ih =>
      have hrest := hps.length_le
      have hpos := List.length_pos_iff.mpr hp.ne_nil
      simp only [List.length_append, List.length_cons] at hlength
      obtain ⟨t, rfl⟩ := List.length_eq_one_iff.mp (show ts.length = 1 by omega)
      exact .cons hp.leaf (ih (by omega))

/-- A value that is one token is no symbol. -/
theorem Derives.not_symbol {t : Token} {v : Tree} (h : Derives [t] (.value v)) :
    t.kind ≠ .symbol := by
  intro hkind
  cases h.leaf with
  | string ht => exact nomatch hkind.symm.trans ht.1
  | numeral ht => exact nomatch hkind.symm.trans ht.1
  | constant ht => exact nomatch hkind.symm.trans ht.1

/-- The leaves of a key and a colon can be folded. -/
theorem not_stuck_of_key {k c : Token} {s : Text} {parts : List Part} (hk : IsString s k)
    (hc : IsPunct .colon c) (h : Leaves [k, c] parts) : ¬ Stuck parts := by
  obtain _ | ⟨hfirst, _ | ⟨hsecond, ⟨⟩⟩⟩ := h
  intro hstuck
  cases hfirst with
  | punct h => exact nomatch h.1.symm.trans hk.1
  | constant h => exact nomatch h.1.symm.trans hk.1
  | numeral h => exact nomatch h.1.symm.trans hk.1
  | string _ =>
      cases hsecond with
      | constant h => exact nomatch h.1.symm.trans hc.1
      | string h => exact nomatch h.1.symm.trans hc.1
      | numeral h => exact nomatch h.1.symm.trans hc.1
      | @punct p h =>
          have htext : p.text = Punct.colon.text := h.2.symm.trans hc.2
          cases @Label.name_injective (.punct p) (.punct .colon) (congrArg symbolTagName htext)
          exact hstuck.not_fold (.key _ _ _ _) (List.append_nil _).symm

/-- A value that starts with a string is that string. -/
theorem Derives.eq_nil_of_string {t : Token} {ts : List Token} {v : Tree}
    (h : Derives (t :: ts) (.value v)) (hkind : t.kind = .string) : ts = [] := by
  generalize hts : t :: ts = us at h
  cases h with
  | string ht => cases hts; rfl
  | integer ht => cases hts; rfl
  | constant ht => cases hts; rfl
  | decimal ht _ _ => cases hts; exact nomatch hkind.symm.trans ht.1
  | emptyObject ho _ => cases hts; exact nomatch hkind.symm.trans ho.1
  | emptyArray ho _ => cases hts; exact nomatch hkind.symm.trans ho.1
  | object ho _ _ => cases hts; exact nomatch hkind.symm.trans ho.1
  | array ho _ _ => cases hts; exact nomatch hkind.symm.trans ho.1

/-- The leaves of the tokens are folded into one part, which is no value. -/
structure Collapses (ts : List Token) (parts : List Part) : Prop where
  leaves : Leaves ts parts
  one : ∀ rest, Stuck rest → Spans ts rest → ReadAlike parts rest → rest.length = 1
  noValue : ∀ v, Derives ts (.value v) → ¬ ReadAlike parts [.value v]

/-- Leaves collapse if a slot reads them before some closing parts, and reads no value there. -/
theorem Collapses.of_slot {ts : List Token} {parts behind : List Part} {s : Slot}
    (hleaves : Leaves ts parts) (hbehind : Closers behind) (hread : s.read (parts ++ behind) ≠ none)
    (hone : ∀ rest, Stuck rest → s.read (rest ++ behind) ≠ none → rest.length = 1)
    (hvalue : ∀ v, s.read (.value v :: behind) = none) : Collapses ts parts := by
  have halike : ∀ {rest}, ReadAlike parts rest → s.read (rest ++ behind) ≠ none := by
    intro rest h
    rw [← read_slot, ← h (.slot s) behind hbehind, read_slot]
    exact hread
  exact
    { leaves := hleaves
      one := fun rest hstuck _ h ↦ hone rest hstuck (halike h)
      noValue := fun v _ h ↦ halike h (hvalue v) }

/-- Members collapse: with a closing brace behind them they are read where a member must come. -/
theorem Derives.collapses_members {ts : List Token} {ms : List Member}
    (h : Derives ts (.members ms)) : ∃ parts, Collapses ts parts := by
  obtain ⟨first, inner, -, hleaves, hread⟩ := h.leaves
  refine ⟨first :: inner, @Collapses.of_slot ts _ [.punct .closeBrace ⟨1, 1⟩] (.member ⟨1, 1⟩ [] [])
    hleaves (by simp [Closers, Part.closes]) ?_ ?_ ?_⟩
  · rw [hread _ _ _ [.punct .closeBrace ⟨1, 1⟩] fun h ↦ by cases h]
    exact Option.some_ne_none _
  · intro rest hstuck
    exact length_eq_one_of_members hstuck
  · intro v
    cases v <;> rfl

/-- An opening bracket and values collapse: with a closing bracket behind them they are an array. -/
theorem Derives.collapses_elements {o : Token} {ts : List Token} {vs : List Tree}
    (ho : IsPunct .openBracket o) (h : Derives ts (.items vs)) :
    ∃ parts, Collapses (o :: ts) parts := by
  obtain ⟨first, inner, hfirst, hleaves, hread⟩ := h.leaves
  refine ⟨.punct .openBracket o.pos :: first :: inner, @Collapses.of_slot (o :: ts) _
    [.punct .closeBracket ⟨1, 1⟩] (.value []) (.cons (.punct ho) hleaves)
    (by simp [Closers, Part.closes]) ?_ ?_ ?_⟩
  · have harray : (Phrase.value (.array o.pos vs)).ReadFrom (.punct .openBracket o.pos ::
        (first :: inner ++ [.punct .closeBracket ⟨1, 1⟩])) := .array hfirst hread
    have hclosed := harray [] [] fun h ↦ by cases h
    rw [List.append_nil] at hclosed
    rw [List.cons_append, hclosed]
    exact Option.some_ne_none _
  · intro rest hstuck
    exact length_eq_one_of_elements hstuck
  · intro v
    cases v <;> rfl

/-- Fragments collapse. -/
theorem Fragment.collapses {ts : List Token} (h : Fragment ts) : ∃ parts, Collapses ts parts := by
  cases h with
  | members hms => exact hms.collapses_members
  | elements ho hvs => exact hvs.collapses_elements ho
  | punct ht =>
      refine ⟨_, .cons (.punct ht) .nil, ?_, ?_⟩
      · intro rest _ hspans _
        have hle := hspans.length_le
        have hpos := List.length_pos_iff.mpr (hspans.ne_nil (List.cons_ne_nil _ _))
        simp only [List.length_cons, List.length_nil] at hle
        omega
      · intro v hv
        exact absurd ht.1 hv.not_symbol
  | key hk hc =>
      refine ⟨_, .cons (.string hk) (.cons (.punct hc) .nil), ?_, ?_⟩
      · intro rest hstuck hspans _
        -- Two parts would be the two leaves, which can be folded.
        by_contra hone
        refine not_stuck_of_key hk hc (hspans.leaves ?_) hstuck
        have hne := hspans.ne_nil (List.cons_ne_nil _ _)
        have := List.length_pos_iff.mpr hne
        simp only [List.length_cons, List.length_nil]
        omega
      · intro v hv
        cases hv.eq_nil_of_string hk.1

section

variable {l : Language} (hl : l.Built)

include hl

/-- Fragments are accepted, as a part that is no value. -/
theorem parse_of_fragment {ts : List Token} (h : Fragment ts) :
    ∃ p : Part, (l.grammar.parser.parse l.registry ts).1.result = .ok (p.expr l.registry) ∧
      ∀ v, p ≠ .value v := by
  obtain ⟨parts, hparts⟩ := h.collapses
  rcases parse_leaves hl hparts.leaves with
    ⟨p, hok, hcovers, halike⟩ | ⟨rest, -, hlength, hstuck, hspans, halike⟩
  · refine ⟨p, hok, ?_⟩
    rintro v rfl
    exact hparts.noValue v hcovers halike
  · exact absurd (hparts.one rest hstuck hspans halike) hlength

/-- What is parsed is a part that stands for all tokens of the text. -/
theorem covers_of_parse {s : Source} {e : Expr} (h : l.parse s = .ok e) :
    ∃ ts p, lexicon.lexer.scan s = .ok ts ∧ Covers ts p ∧ e = p.expr l.registry := by
  obtain ⟨ts, hscan, hparse⟩ := (parse_eq_ok_iff hl).mp h
  obtain ⟨parts, hleaves⟩ := exists_leaves (lexeme_of_parse hl hscan hparse)
  rcases parse_leaves hl hleaves with ⟨p, hok, hcovers, -⟩ | ⟨rest, herror, -⟩
  · rw [hparse] at hok
    cases hok
    exact ⟨ts, p, hscan, hcovers, rfl⟩
  · rw [hparse] at herror
    cases herror

end

/-- The expression of a part is decoded and printed exactly if it has the tag of a value. -/
theorem decode_print_iff (reg : Registry) (p : Part) :
    ((∃ d, decode (p.expr reg) = .ok d) ↔ IsValue reg (p.expr reg)) ∧
      ((∃ t, print (p.expr reg) = .ok t) ↔ IsValue reg (p.expr reg)) := by
  rw [isValue_expr_iff]
  by_cases hvalue : ∃ v, p = .value v
  · obtain ⟨v, rfl⟩ := hvalue
    have hdecode : ∃ d, decode ((Part.value v).expr reg) = .ok d := ⟨_, v.decode_expr reg⟩
    have hprint : ∃ t, print ((Part.value v).expr reg) = .ok t := ⟨_, v.print_expr reg⟩
    exact ⟨⟨fun _ ↦ ⟨v, rfl⟩, fun _ ↦ hdecode⟩, ⟨fun _ ↦ ⟨v, rfl⟩, fun _ ↦ hprint⟩⟩
  · have hne : ∀ v, p ≠ .value v := fun v hv ↦ hvalue ⟨v, hv⟩
    obtain ⟨⟨fault, hdecode⟩, fault', hprint⟩ := decode_print_part reg hne
    simp [hvalue, hdecode, hprint]

/-- A text is accepted without the tag of a value exactly if its tokens are a fragment. What is
accepted is decoded, and printed, exactly if it has the tag of a value. -/
theorem parse_not_isValue_iff_fragment {report : Bool} {l : Language}
    (hl : Language.build report = .ok l) (s : Source) :
    ((∃ e, l.parse s = .ok e ∧ ¬ IsValue l.registry e) ↔
        ∃ ts, lexicon.lexer.scan s = .ok ts ∧ Fragment ts) ∧
      ∀ e, l.parse s = .ok e →
        ((∃ d, decode e = .ok d) ↔ IsValue l.registry e) ∧
          ((∃ t, print e = .ok t) ↔ IsValue l.registry e) := by
  have hbuilt := Language.built_of_build hl
  refine ⟨⟨?_, ?_⟩, ?_⟩
  · rintro ⟨e, hparse, he⟩
    obtain ⟨ts, p, hscan, hcovers, rfl⟩ := covers_of_parse hbuilt hparse
    exact ⟨ts, hscan, hcovers.fragment fun v hv ↦ he (isValue_expr_iff.mpr ⟨v, hv⟩)⟩
  · rintro ⟨ts, hscan, hfragment⟩
    obtain ⟨p, hparse, hp⟩ := parse_of_fragment hbuilt hfragment
    refine ⟨_, (parse_eq_ok_iff hbuilt).mpr ⟨ts, hscan, hparse⟩, fun he ↦ ?_⟩
    obtain ⟨v, rfl⟩ := isValue_expr_iff.mp he
    exact hp v rfl
  · intro e hparse
    obtain ⟨ts, p, -, -, rfl⟩ := covers_of_parse hbuilt hparse
    exact decode_print_iff l.registry p

/-- A single opening brace is accepted, though it is no value. -/
theorem parse_openBrace :
    ∃ l, Language.build false = .ok l ∧
      ∃ e, l.parse ⟨utf8 "in", utf8 "\x7b"⟩ = .ok e ∧ ¬ IsValue l.registry e := by
  obtain ⟨l, hl⟩ := Language.exists_build false
  have hscan : lexicon.lexer.scan ⟨utf8 "in", utf8 "\x7b"⟩ =
      .ok [⟨.symbol, utf8 "\x7b", utf8 "in", 0, ⟨1, 1⟩⟩] := by
    refine (Lexer.scan_iff_splits rfl rfl _ _).mpr
      ⟨['\x7b'], [.single ⟨'\x7b', ⟨0, ⟨1, 1⟩⟩⟩], rfl, ?_, ?_⟩
    · rw [lexer_lexicon]
      exact .single (by decide) (by decide) (.nil _)
    · rw [lexer_lexicon]
      decide
  refine ⟨l, hl, (parse_not_isValue_iff_fragment hl _).1.mpr ⟨_, hscan, ?_⟩⟩
  exact .punct (p := .openBrace) ⟨rfl, rfl⟩

end Tagfold.Json
