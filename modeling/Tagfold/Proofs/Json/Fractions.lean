import Mathlib.Tactic.FieldSimp
import Tagfold.Proofs.Json.Diagnosis
import Tagfold.Proofs.Json.Integers
import Tagfold.Proofs.Json.Scanning

/-!
# Two runs of digits around a point

A text of digits, a point and digits is scanned as three tokens, and the range of both numbers is
checked one by one. If both are in range then the text is the double nearest to the number that it
spells, and otherwise it fails at the first run that is out of range: `Language.parse_point`. The
double is read again from the spelling of both runs, which never fails because a fraction adds less
than one.
-/

namespace Tagfold.Json

open Text Double

/-- Two numerals around a point are the double nearest to the number that they spell. -/
theorem Numeral.nearest_withFraction (m n : Numeral) :
    (m.withFraction n).Nearest
      (digitsValue m.text + digitsValue n.text / 10 ^ n.text.length) := by
  have hpow : 0 < 10 ^ n.text.length := Nat.pow_pos (by omega)
  have hfinite : nearestRank (digitsValue (m.text ++ n.text)) (10 ^ n.text.length) < infiniteRank :=
    (nearestRank_lt_infiniteRank_iff hpow).mpr
      (Literal.digitsValue_append_lt_overflowBound n.digits m.inRange)
  have hspelled : ((digitsValue (m.text ++ n.text) : Nat) : ℚ) / (10 ^ n.text.length : Nat) =
      digitsValue m.text + digitsValue n.text / 10 ^ n.text.length := by
    rw [digitsValue_append]
    push_cast
    field_simp
  rw [← hspelled]
  exact nearest_nearestRank hpow hfinite

/-- Two runs of digits around a point are out of range only if the first one is so alone. -/
theorem exists_integer_eq_error_of_point {a b : Text} (ha : Digits a) (hane : a ≠ [])
    (hb : Digits b) (h : ∃ i, Number.double (a ++ utf8 "." ++ b) = .error i) :
    ∃ i, Number.integer a = .error i := by
  apply Number.exists_integer_eq_error (Number.isNumeral_iff.mpr ⟨hane, ha⟩)
  by_contra hrange
  have hlt := Literal.digitsValue_append_lt_overflowBound hb (Nat.not_le.mp hrange)
  obtain ⟨i, hi⟩ := h
  rw [Number.double, Literal.readDouble_point ha hane hb, if_pos hlt] at hi
  cases hi

section Point

variable {a b : Text} (name : Text) (ha : Digits a) (hane : a ≠ []) (hb : Digits b) (hbne : b ≠ [])

include ha hane hb hbne

/-- Two runs of digits around a point are scanned as a word, a symbol and a word on one line. -/
theorem scan_point :
    lexicon.lexer.scan ⟨name, a ++ utf8 "." ++ b⟩ =
      .ok [⟨.word, a, name, 0, ⟨1, 1⟩⟩,
        ⟨.symbol, utf8 ".", name, a.length, ⟨1, a.length + 1⟩⟩,
        ⟨.word, b, name, a.length + 1, ⟨1, a.length + 2⟩⟩] := by
  obtain ⟨cs, hcs, hlength, hcword, hckeyword⟩ := exists_chars_of_digits ha
  obtain ⟨ds, hds, -, hdword, hdkeyword⟩ := exists_chars_of_digits hb
  have hcne : cs ≠ [] := by
    rintro rfl
    exact hane hcs
  have hdne : ds ≠ [] := by
    rintro rfl
    exact hbne hds
  have hline : '\n' ∉ cs := by
    intro hmem
    have hrole : lexicon.lexer.role '\n' ≠ .word := by
      rw [lexer_lexicon]
      decide
    exact hrole (hcword _ hmem)
  have hbehind : Place.behind cs = ⟨a.length, ⟨1, a.length + 1⟩⟩ := by
    show Place.mk (Utf8.encodeAll cs).length (Place.behind cs).pos = _
    rw [Place.pos_behind_line hline, ← hcs, hlength]
  have hnext : Place.behind (cs ++ [Punct.point.char]) = ⟨a.length + 1, ⟨1, a.length + 2⟩⟩ := by
    rw [Place.behind_concat, hbehind]
    rfl
  have hcontent : a ++ utf8 "." ++ b = Utf8.encodeAll (cs ++ Punct.point.char :: ds) := by
    rw [encodeAll_around, ← hcs, ← hds]
    rfl
  have hend : Breaks [] := nofun
  have hlast := tokensBehind_word hdne hdword name (cs ++ [Punct.point.char]) hend
  rw [List.append_nil, ← hds, if_neg (hds ▸ hdkeyword), hnext] at hlast
  rw [Lexer.scan_eq_tokensFrom _ hcontent]
  show tokensBehind name [] [] (cs ++ Punct.point.char :: ds) = _
  rw [tokensBehind_word hcne hcword name [] (breaks_char _ ds), ← hcs, if_neg (hcs ▸ hckeyword),
    List.nil_append, tokensBehind_punct, hbehind, hlast]
  rfl

namespace Language

variable {report : Bool} {l : Language}

/-- If a run of digits is out of range, then the first such run is the place of the error. -/
theorem Built.parse_point_error (hl : l.Built)
    (h : overflowBound ≤ digitsValue a ∨ overflowBound ≤ digitsValue b) :
    ∃ e, l.parse ⟨name, a ++ utf8 "." ++ b⟩ = .error (.failed e) ∧
      e.report.code = Kind.integerRange.code ∧
      e.report.pos = if overflowBound ≤ digitsValue a then ⟨1, 1⟩ else ⟨1, a.length + 2⟩ := by
  have hscan := scan_point name ha hane hb hbne
  rw [← hl.lexer] at hscan
  by_cases hrange : overflowBound ≤ digitsValue a
  · obtain ⟨i, hrefuses⟩ := hl.refuses_digits (t := ⟨.word, a, name, 0, ⟨1, 1⟩⟩) rfl hane ha hrange
    have hfirst : l.grammar.lexer.scan ⟨name, a ++ utf8 "." ++ b⟩ = .ok ([] ++ _ :: _) := hscan
    exact ⟨_, parse_of_refuses hfirst nofun hrefuses, rfl, (if_pos hrange).symm⟩
  · let m : Numeral := ⟨a, Number.isNumeral_iff.mpr ⟨hane, ha⟩, Nat.not_le.mp hrange⟩
    obtain ⟨i, hrefuses⟩ := hl.refuses_digits
      (t := ⟨.word, b, name, a.length + 1, ⟨1, a.length + 2⟩⟩) rfl hbne hb (h.resolve_left hrange)
    have hthird : l.grammar.lexer.scan ⟨name, a ++ utf8 "." ++ b⟩ = .ok ([_, _] ++ _ :: _) := hscan
    refine ⟨_, parse_of_refuses hthird ?_ hrefuses, rfl, (if_neg hrange).symm⟩
    intro u hu reg
    simp only [List.mem_cons, List.not_mem_nil, or_false] at hu
    obtain rfl | rfl := hu
    · exact ⟨_, _, _, hl.classifyToken_numeral (n := m) ⟨rfl, rfl⟩ reg⟩
    · exact ⟨_, _, _, rfl⟩

/-- If both runs of digits are in range, then the text is a decimal with the double of both. -/
theorem Built.parse_point_ok (hl : l.Built) (hma : digitsValue a < overflowBound)
    (hnb : digitsValue b < overflowBound) :
    ∃ tag rank, tag.name = decimalName ∧ l.parse ⟨name, a ++ utf8 "." ++ b⟩ =
        .ok (.simple tag ⟨1, 1⟩ (.double (.number false rank))) ∧
      (Double.number false rank).Nearest (digitsValue a + digitsValue b / 10 ^ b.length) := by
  let m : Numeral := ⟨a, Number.isNumeral_iff.mpr ⟨hane, ha⟩, hma⟩
  let n : Numeral := ⟨b, Number.isNumeral_iff.mpr ⟨hbne, hb⟩, hnb⟩
  have hderives := parse_of_derives hl
    (Derives.decimal (t := ⟨.word, a, name, 0, ⟨1, 1⟩⟩) (m := m) (n := n) ⟨rfl, rfl⟩
      (p := ⟨.symbol, utf8 ".", name, a.length, ⟨1, a.length + 1⟩⟩) ⟨rfl, rfl⟩
      (u := ⟨.word, b, name, a.length + 1, ⟨1, a.length + 2⟩⟩) ⟨rfl, rfl⟩)
  have hparse := (parse_eq_ok_iff hl).mpr ⟨_, scan_point name ha hane hb hbne, hderives⟩
  exact ⟨_, _, rfl, hparse, m.nearest_withFraction n⟩

/-- For every two runs of digits, the text of both around a point fails as out of range exactly if
one of their numbers is, at the first run that is so, and does not fail in any other way. Otherwise
it is a decimal at its start with the double nearest to the number that is spelled, where all digits
of the fraction count. Reading both runs together is out of range only if the first one is alone. -/
theorem parse_point (hl : build report = .ok l) :
    ((∃ e, l.parse ⟨name, a ++ utf8 "." ++ b⟩ = .error (.failed e) ∧
          e.report.code = Kind.integerRange.code) ↔
        overflowBound ≤ digitsValue a ∨ overflowBound ≤ digitsValue b) ∧
      (∀ halt, l.parse ⟨name, a ++ utf8 "." ++ b⟩ = .error halt →
        ∃ e, halt = .failed e ∧ e.report.code = Kind.integerRange.code ∧
          e.report.pos = if overflowBound ≤ digitsValue a then ⟨1, 1⟩ else ⟨1, a.length + 2⟩) ∧
      (¬ (overflowBound ≤ digitsValue a ∨ overflowBound ≤ digitsValue b) →
        ∃ tag rank, tag.name = decimalName ∧ l.parse ⟨name, a ++ utf8 "." ++ b⟩ =
            .ok (.simple tag ⟨1, 1⟩ (.double (.number false rank))) ∧
          (Double.number false rank).Nearest (digitsValue a + digitsValue b / 10 ^ b.length)) ∧
      ((∃ i, Number.double (a ++ utf8 "." ++ b) = .error i) →
        ∃ i, Number.integer a = .error i) := by
  have hbuilt := built_of_build hl
  have hread := exists_integer_eq_error_of_point ha hane hb
  by_cases hrange : overflowBound ≤ digitsValue a ∨ overflowBound ≤ digitsValue b
  · obtain ⟨e, hparse, hcode, hpos⟩ := hbuilt.parse_point_error name ha hane hb hbne hrange
    refine ⟨⟨fun _ ↦ hrange, fun _ ↦ ⟨e, hparse, hcode⟩⟩, ?_, fun h ↦ absurd hrange h, hread⟩
    intro halt hhalt
    cases hparse.symm.trans hhalt
    exact ⟨e, rfl, hcode, hpos⟩
  · obtain ⟨hma, hnb⟩ := not_or.mp hrange
    have hok := hbuilt.parse_point_ok name ha hane hb hbne (Nat.not_le.mp hma) (Nat.not_le.mp hnb)
    obtain ⟨tag, rank, -, hparse, -⟩ := id hok
    refine ⟨⟨?_, fun h ↦ absurd h hrange⟩, ?_, fun _ ↦ hok, hread⟩
    · intro h
      obtain ⟨e, he, -⟩ := h
      cases hparse.symm.trans he
    · intro halt hhalt
      cases hparse.symm.trans hhalt

end Language

end Point

/-- The zero behind the point counts, and a fraction that is too long fails where it starts although
the number is small. -/
theorem Language.parse_point_zero_and_nines :
    ∃ l, build true = .ok l ∧
      (∃ tag rank, tag.name = decimalName ∧ l.parse ⟨utf8 "in", utf8 "0.05"⟩ =
          .ok (.simple tag ⟨1, 1⟩ (.double (.number false rank))) ∧
        (Double.number false rank).Nearest (1 / 20)) ∧
      ∃ e, l.parse ⟨utf8 "in", utf8 "1." ++ List.replicate 310 57⟩ = .error (.failed e) ∧
        e.report.code = Kind.integerRange.code ∧ e.report.pos = ⟨1, 3⟩ := by
  obtain ⟨l, hl⟩ := exists_build true
  have hzero : digitsValue (utf8 "0") = 0 := rfl
  have hone : ¬ overflowBound ≤ digitsValue (utf8 "1") := by decide +kernel
  have hfive : digitsValue (utf8 "05") = 5 := rfl
  have hbound : ¬ overflowBound ≤ 5 := by decide +kernel
  have hnines : overflowBound ≤ digitsValue (List.replicate 310 57) := by decide +kernel
  have hdigits : Digits (List.replicate 310 57) := by
    intro b hb
    rw [List.eq_of_mem_replicate hb]
    rfl
  obtain ⟨-, -, hok, -⟩ := parse_point (a := utf8 "0") (b := utf8 "05") (utf8 "in")
    (List.all_eq_true.mp rfl) (List.cons_ne_nil _ _) (List.all_eq_true.mp rfl)
    (List.cons_ne_nil _ _) hl
  obtain ⟨hcode, hplace, -, -⟩ := parse_point (a := utf8 "1") (b := List.replicate 310 57)
    (utf8 "in") (List.all_eq_true.mp rfl) (List.cons_ne_nil _ _) hdigits (List.cons_ne_nil _ _) hl
  obtain ⟨tag, rank, htag, hparse, hnearest⟩ := hok (by rw [hzero, hfive]; omega)
  obtain ⟨e, he, hrange⟩ := hcode.mpr (.inr hnines)
  obtain ⟨e', heq, -, hpos⟩ := hplace _ he
  cases heq
  rw [if_neg hone] at hpos
  refine ⟨l, hl, ⟨tag, rank, htag, hparse, ?_⟩, e, he, hrange, hpos⟩
  have hspelled : ((digitsValue (utf8 "0") : Nat) : ℚ) +
      (digitsValue (utf8 "05") : Nat) / 10 ^ (utf8 "05").length = 1 / 20 := by
    have hlength : (utf8 "05").length = 2 := rfl
    rw [hzero, hfive, hlength]
    norm_num
  rwa [hspelled] at hnearest

end Tagfold.Json
