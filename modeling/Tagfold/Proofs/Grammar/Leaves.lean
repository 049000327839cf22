import Mathlib.Data.List.Forall2
import Tagfold.Proofs.Decimal.Literal
import Tagfold.Proofs.Reduction.Building
import Tagfold.Proofs.Text.Runes
import Tagfold.Proofs.Token.Tiling

/-!
# The leaves of scanned tokens

A literal that was scanned starts and ends with the same delimiter, so that the default decoder of
literals finds the text between two characters, whatever these are and however many bytes they have:
`stripDelimiters_encodeAll`. What can be wrong with scanned tokens is thus only a word that is no
identifier and no numeral in range. `Lexicon.classify_scanned` puts this together: it says which
error a list of scanned tokens has, and what its leaves are.
-/

namespace Tagfold

open Text Double

/-- The default decoder finds what stands between the first and the last character. -/
theorem stripDelimiters_encodeAll (a z : Char) (body : List Char) :
    stripDelimiters (Utf8.encodeAll (a :: (body ++ [z]))) = .ok (.text (Utf8.encodeAll body)) := by
  generalize hraw : Utf8.encodeAll (a :: (body ++ [z])) = raw
  have hsplit : raw = Utf8.encode a ++ Utf8.encodeAll body ++ Utf8.encode z := by
    rw [← hraw]
    simp
  have hfirst : ((Utf8.decode raw).head?.map Rune.size).getD 0 = (Utf8.encode a).length := by
    rw [← hraw, Utf8.decode_encodeAll]
    rfl
  have hlast : Utf8.lastSize raw = (Utf8.encode z).length := by
    rw [hsplit, Utf8.lastSize_append_encode]
  have hlength : raw.length =
      (Utf8.encode a ++ Utf8.encodeAll body).length + (Utf8.encode z).length := by
    rw [hsplit, List.length_append]
  have hlong : ¬ (raw.length < (Utf8.encode a).length + (Utf8.encode z).length ∨
      (Utf8.encode a).length = 0) := by
    have hpos : 0 < (Utf8.encode a).length := List.length_pos_iff.mpr (Utf8.encode_ne_nil a)
    rw [hlength, List.length_append]
    omega
  simp only [stripDelimiters, hfirst, hlast]
  rw [if_neg hlong, hlength, Nat.add_sub_cancel, hsplit, List.take_left, List.drop_left]

/-- The value is the text of a literal between its delimiters, which are the same. -/
def Lexer.Between (l : Lexer) (raw : Text) (v : Value) : Prop :=
  ∃ d body, l.isDelimiter d = true ∧ raw = Utf8.encodeAll (d :: (body ++ [d])) ∧
    v = .text (Utf8.encodeAll body)

namespace Parser

/-- The word is an identifier, or a run of digits below the bound from which doubles overflow. -/
def Acceptable (isIdentifier : Text → Bool) (word : Text) : Prop :=
  isIdentifier word = true ∨ Number.isNumeral word = true ∧ digitsValue word < overflowBound

/-- The word is not acceptable, for the reason that the error gives. -/
inductive Unacceptable (isIdentifier : Text → Bool) (t : Token) : ParseError → Prop where
  | identifier : t.kind = .word → isIdentifier t.text = false → Number.isNumeral t.text = false →
      Unacceptable isIdentifier t (.invalidIdentifier t)
  | range {i : Issue} : t.kind = .word → isIdentifier t.text = false →
      Number.isNumeral t.text = true → overflowBound ≤ digitsValue t.text →
      Number.integer t.text = .error i → Unacceptable isIdentifier t (.integerRange t i)

/-- A word is acceptable, or there is a reason why it is not. -/
theorem exists_unacceptable_iff {isIdentifier : Text → Bool} {t : Token} :
    (∃ e, Unacceptable isIdentifier t e) ↔ t.kind = .word ∧ ¬ Acceptable isIdentifier t.text := by
  unfold Acceptable
  constructor
  · rintro ⟨e, ⟨hkind, hidentifier, hnumeral⟩ | ⟨hkind, hidentifier, hnumeral, hrange, -⟩⟩
    · exact ⟨hkind, by simp [hidentifier, hnumeral]⟩
    · exact ⟨hkind, by simp [hidentifier, hnumeral, hrange]⟩
  · rintro ⟨hkind, hno⟩
    rw [not_or] at hno
    obtain ⟨hidentifier, hno⟩ := hno
    by_cases hnumeral : Number.isNumeral t.text = true
    · have hrange : overflowBound ≤ digitsValue t.text :=
        Nat.le_of_not_lt fun hlt ↦ hno ⟨hnumeral, hlt⟩
      obtain ⟨i, hi⟩ := Number.exists_integer_eq_error hnumeral hrange
      exact ⟨_, .range hkind (eq_false_of_ne_true hidentifier) hnumeral hrange hi⟩
    · exact ⟨_, .identifier hkind (eq_false_of_ne_true hidentifier) (eq_false_of_ne_true hnumeral)⟩

section Words

variable {p : Parser} {t : Token} {e : ParseError}

/-- A word that is not acceptable has no leaf, for the same reason. -/
theorem refuses_of_unacceptable (h : Unacceptable p.isIdentifier t e) : p.Refuses t e := by
  intro reg
  cases h with
  | identifier hkind hidentifier hnumeral =>
      simp only [classifyToken, hkind, wordLeaf, hidentifier, hnumeral, Bool.false_eq_true,
        if_false]
  | range hkind hidentifier hnumeral _ hinteger =>
      simp only [classifyToken, hkind, wordLeaf, hidentifier, hnumeral, hinteger,
        Bool.false_eq_true, if_false, if_true]

/-- A word that is acceptable has a leaf. -/
theorem admits_of_acceptable (hkind : t.kind = .word) (h : Acceptable p.isIdentifier t.text) :
    p.Admits t := by
  intro reg
  by_cases hidentifier : p.isIdentifier t.text = true
  · simp only [classifyToken, hkind, wordLeaf, hidentifier, if_true]
    exact ⟨_, _, _, rfl⟩
  · obtain ⟨hnumeral, hrange⟩ := h.resolve_left hidentifier
    simp only [classifyToken, hkind, wordLeaf, hidentifier, hnumeral,
      Number.integer_of_lt hnumeral hrange, Bool.false_eq_true, if_false, if_true]
    exact ⟨_, _, _, rfl⟩

section Decoded

-- A token that was scanned is of a known class, and if it is a literal then it has a value.
variable (hkind : ∀ n, t.kind ≠ .other n)
  (hliteral : t.kind = .string → ∃ v, p.stringValue t.text = .ok v)

include hkind hliteral

/-- If literals have values, then only words can have no leaf. -/
theorem Refuses.unacceptable (h : p.Refuses t e) : Unacceptable p.isIdentifier t e := by
  have hword : t.kind = .word := by
    obtain ⟨hword, -⟩ | ⟨hword, -⟩ | ⟨hstring, -⟩ | ⟨n, hother, -⟩ := h.cases
    · exact hword
    · exact hword
    · obtain ⟨v, hv⟩ := hliteral hstring
      have hok := h .empty
      simp only [classifyToken, hstring, hv] at hok
      cases hok
    · exact absurd hother (hkind n)
  have hno : ¬ Acceptable p.isIdentifier t.text :=
    fun hyes ↦ (admits_of_acceptable hword hyes).not_refuses e h
  obtain ⟨e', he'⟩ := exists_unacceptable_iff.mpr ⟨hword, hno⟩
  cases (h .empty).symm.trans (refuses_of_unacceptable he' .empty)
  exact he'

/-- If literals have values, then all tokens have leaves but words that are not acceptable. -/
theorem admits_iff_acceptable :
    p.Admits t ↔ (t.kind = .word → Acceptable p.isIdentifier t.text) := by
  constructor
  · intro h hword
    by_contra hno
    obtain ⟨e, he⟩ := exists_unacceptable_iff.mpr ⟨hword, hno⟩
    exact h.not_refuses e (refuses_of_unacceptable he)
  · intro h
    refine (p.admits_or_refuses t).resolve_right ?_
    rintro ⟨e, he⟩
    obtain ⟨hword, hno⟩ := exists_unacceptable_iff.mp ⟨e, he.unacceptable hkind hliteral⟩
    exact hno (h hword)

end Decoded

/-- If literals have values, then the error of a list of tokens is that of the first word that is
not acceptable. -/
theorem classify_eq_error_iff_unacceptable {ts : List Token} (reg : Registry)
    (hkind : ∀ t ∈ ts, ∀ n, t.kind ≠ .other n)
    (hliteral : ∀ t ∈ ts, t.kind = .string → ∃ v, p.stringValue t.text = .ok v) :
    (p.classify reg ts).1 = .error e ↔ ∃ before t behind, ts = before ++ t :: behind ∧
      (∀ u ∈ before, u.kind = .word → Acceptable p.isIdentifier u.text) ∧
      Unacceptable p.isIdentifier t e := by
  have hadmits : ∀ t ∈ ts, p.Admits t ↔ (t.kind = .word → Acceptable p.isIdentifier t.text) :=
    fun t ht ↦ admits_iff_acceptable (hkind t ht) (hliteral t ht)
  rw [classify_eq_error_iff]
  constructor
  · rintro ⟨before, t, behind, rfl, hbefore, ht⟩
    refine ⟨before, t, behind, rfl, fun u hu ↦ ?_, ht.unacceptable (hkind t ?_) (hliteral t ?_)⟩
    · exact (hadmits u (List.mem_append_left _ hu)).mp (hbefore u hu)
    all_goals simp
  · rintro ⟨before, t, behind, rfl, hbefore, ht⟩
    refine ⟨before, t, behind, rfl, fun u hu ↦ ?_, refuses_of_unacceptable ht⟩
    exact (hadmits u (List.mem_append_left _ hu)).mpr (hbefore u hu)

end Words

/-- The leaf of a token depends on what a literal denotes only if the token is a literal. -/
theorem LeafOf.imp {isIdentifier : Text → Bool} {Denotes Denotes' : Text → Value → Prop}
    {t : Token} {e : Expr} (h : LeafOf isIdentifier Denotes t e)
    (himp : t.kind = .string → ∀ v, Denotes t.text v → Denotes' t.text v) :
    LeafOf isIdentifier Denotes' t e := by
  cases h with
  | keyword hkind htag => exact .keyword hkind htag
  | symbol hkind htag => exact .symbol hkind htag
  | string hkind htag hv => exact .string hkind htag (himp hkind _ hv)
  | identifier hkind htag hidentifier => exact .identifier hkind htag hidentifier
  | integer hkind htag hidentifier hnumeral hinteger =>
      exact .integer hkind htag hidentifier hnumeral hinteger

end Parser

namespace Lexicon

/-- Scanned tokens are classified, with the default decoder of literals, unless one of them is a
word that is neither an identifier nor a numeral in range; the first such word is the error.
Otherwise each token has its leaf, in order and with its position and text, and the value of a
literal is what stands between its delimiters. -/
theorem classify_scanned (l : Lexicon) {s : Source} {ts : List Token} {c : ParserConfig}
    {p : Parser} {reg reg' : Registry} (hscan : l.lexer.scan s = .ok ts)
    (hdefault : c.stringValue = stripDelimiters) (hbuild : c.build reg = .ok (p, reg'))
    (later : Registry) :
    (∀ e, (p.classify later ts).1 = .error e ↔ ∃ before t behind, ts = before ++ t :: behind ∧
      (∀ u ∈ before, u.kind = .word → Parser.Acceptable c.isIdentifier u.text) ∧
      Parser.Unacceptable c.isIdentifier t e) ∧
    ∀ leaves, (p.classify later ts).1 = .ok leaves →
      List.Forall₂ (Parser.LeafOf c.isIdentifier l.lexer.Between) ts leaves := by
  obtain ⟨hidentifier, hvalue⟩ := ParserConfig.build_choices hbuild
  have hdelimited : ∀ t ∈ ts, t.kind = .string → ∃ d body, l.lexer.isDelimiter d = true ∧
      t.text = Utf8.encodeAll (d :: (body ++ [d])) := by
    intro t ht
    obtain ⟨_, _, htile, hfits⟩ := Lexer.exists_fits_of_scan hscan ht
    exact hfits.isDelimiter htile
  rw [← hidentifier]
  constructor
  · intro e
    apply Parser.classify_eq_error_iff_unacceptable
    · intro t ht
      obtain ⟨_, _, htile, hfits⟩ := Lexer.exists_fits_of_scan hscan ht
      exact hfits.kind_ne_other htile
    · intro t ht hstring
      obtain ⟨d, body, -, htext⟩ := hdelimited t ht hstring
      rw [hvalue, hdefault, htext, stripDelimiters_encodeAll]
      exact ⟨_, rfl⟩
  · intro leaves hleaves
    have hall := Parser.classify_leafOf (ParserConfig.build_tagged hbuild) hleaves
    refine ((List.forall₂_and_left ts leaves).mpr ⟨hdelimited, hall⟩).imp fun t leaf h ↦ ?_
    obtain ⟨hends, hleaf⟩ := h
    refine hleaf.imp fun hstring v hv ↦ ?_
    obtain ⟨d, body, hd, htext⟩ := hends hstring
    rw [hvalue, hdefault, htext, stripDelimiters_encodeAll] at hv
    exact ⟨d, body, hd, htext, (Except.ok.inj hv).symm⟩

/-- A delimiter of two bytes around nothing and around one letter, beside a keyword, a symbol, an
identifier and a numeral; and a word that is none of these, in front of another one. -/
theorem classify_scanned_accented :
    ∃ p reg' ts leaves us,
      (ParserConfig.mk [] (· == utf8 "x") stripDelimiters false id).build .empty = .ok (p, reg') ∧
      (Lexicon.mk [utf8 "if"] (utf8 ";") (utf8 "é") false false (some Char.isAlphanum)).lexer.scan
        ⟨utf8 "in", utf8 "if éé éaé;x 07"⟩ = .ok ts ∧
      (p.classify reg' ts).1 = .ok leaves ∧
      List.Forall₂ (Parser.LeafOf (· == utf8 "x") (Lexicon.mk [utf8 "if"] (utf8 ";") (utf8 "é")
        false false (some Char.isAlphanum)).lexer.Between) ts leaves ∧
      (Lexicon.mk [utf8 "if"] (utf8 ";") (utf8 "é") false false (some Char.isAlphanum)).lexer.scan
        ⟨utf8 "in", utf8 "éé x 9y y"⟩ = .ok us ∧
      (p.classify reg' us).1 =
        .error (.invalidIdentifier ⟨.word, utf8 "9y", utf8 "in", 7, ⟨1, 6⟩⟩) := by
  have hlexer : (Lexicon.mk [utf8 "if"] (utf8 ";") (utf8 "é") false false
      (some Char.isAlphanum)).lexer = ⟨[utf8 "if"], [';'], ['é'], false, false, Char.isAlphanum⟩ :=
    lexer_encodeAll _ [';'] ['é'] _ _ _
  have hscan : (Lexicon.mk [utf8 "if"] (utf8 ";") (utf8 "é") false false
      (some Char.isAlphanum)).lexer.scan ⟨utf8 "in", utf8 "if éé éaé;x 07"⟩ =
      .ok [⟨.keyword, utf8 "if", utf8 "in", 0, ⟨1, 1⟩⟩, ⟨.string, utf8 "éé", utf8 "in", 3, ⟨1, 4⟩⟩,
        ⟨.string, utf8 "éaé", utf8 "in", 8, ⟨1, 7⟩⟩, ⟨.symbol, utf8 ";", utf8 "in", 13, ⟨1, 10⟩⟩,
        ⟨.word, utf8 "x", utf8 "in", 14, ⟨1, 11⟩⟩, ⟨.word, utf8 "07", utf8 "in", 16, ⟨1, 13⟩⟩] := by
    have hcs : utf8 "if éé éaé;x 07" = Utf8.encodeAll
        ['i', 'f', ' ', 'é', 'é', ' ', 'é', 'a', 'é', ';', 'x', ' ', '0', '7'] := rfl
    rw [hlexer, Lexer.scan_eq_tokensFrom _ hcs]
    rfl
  have hscan' : (Lexicon.mk [utf8 "if"] (utf8 ";") (utf8 "é") false false
      (some Char.isAlphanum)).lexer.scan ⟨utf8 "in", utf8 "éé x 9y y"⟩ =
      .ok [⟨.string, utf8 "éé", utf8 "in", 0, ⟨1, 1⟩⟩, ⟨.word, utf8 "x", utf8 "in", 5, ⟨1, 4⟩⟩,
        ⟨.word, utf8 "9y", utf8 "in", 7, ⟨1, 6⟩⟩, ⟨.word, utf8 "y", utf8 "in", 10, ⟨1, 9⟩⟩] := by
    have hcs : utf8 "éé x 9y y" =
        Utf8.encodeAll ['é', 'é', ' ', 'x', ' ', '9', 'y', ' ', 'y'] := rfl
    rw [hlexer, Lexer.scan_eq_tokensFrom _ hcs]
    rfl
  have hbuild : (ParserConfig.mk [] (· == utf8 "x") stripDelimiters false id).build .empty =
      .ok (⟨[], (· == utf8 "x"), stripDelimiters, false, id, ⟨1, stringTagName⟩,
        ⟨2, identifierTagName⟩, ⟨3, integerTagName⟩⟩,
        ⟨[stringTagName, identifierTagName, integerTagName]⟩) := rfl
  have hempty : stripDelimiters (utf8 "éé") = .ok (.text []) := stripDelimiters_encodeAll 'é' 'é' []
  have hletter : stripDelimiters (utf8 "éaé") = .ok (.text (utf8 "a")) :=
    stripDelimiters_encodeAll 'é' 'é' ['a']
  have hleaves := (classify_scanned _ hscan rfl hbuild
    ⟨[stringTagName, identifierTagName, integerTagName]⟩).2
  have herror := (classify_scanned _ hscan' rfl hbuild
    ⟨[stringTagName, identifierTagName, integerTagName]⟩).1
  simp only [Parser.classify, Parser.classifyOnto, Parser.classifyToken, hempty, hletter]
    at hleaves
  refine ⟨_, _, _, _, _, hbuild, hscan, ?_, hleaves _ rfl, hscan', (herror _).mpr ?_⟩
  · simp only [Parser.classify, Parser.classifyOnto, Parser.classifyToken, hempty, hletter]
    rfl
  · refine ⟨[⟨.string, utf8 "éé", utf8 "in", 0, ⟨1, 1⟩⟩, ⟨.word, utf8 "x", utf8 "in", 5, ⟨1, 4⟩⟩],
      _, _, rfl, ?_, .identifier rfl rfl rfl⟩
    intro u hu hword
    rcases List.mem_pair.mp hu with rfl | rfl
    · cases hword
    · exact .inl rfl

end Lexicon

end Tagfold
