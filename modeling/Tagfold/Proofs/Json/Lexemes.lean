import Tagfold.Proofs.Json.Recognition
import Tagfold.Proofs.Reduction.Classification
import Tagfold.Proofs.Token.Splitting

/-!
# The lexemes of JSON texts

What the JSON lexer does with single characters, and what its tokens are. A token that is scanned
and then classified is one of the lexemes that the grammar speaks about: `lexeme_of_classified`. So
the results about token lists carry over to texts: `parse_eq_ok_iff` and `lexeme_of_parse`.
-/

namespace Tagfold.Json

open Reading

/-- The characters of the punctuation marks. -/
def Punct.char : Punct → Char
  | openBrace => '\x7b'
  | closeBrace => '\x7d'
  | openBracket => '['
  | closeBracket => ']'
  | colon => ':'
  | comma => ','
  | point => '.'

/-- The text of a punctuation mark is its character. -/
theorem Punct.text_eq (p : Punct) : p.text = Utf8.encode p.char := by
  cases p <;> rfl

/-- The lexer of JSON texts. -/
theorem lexer_lexicon : lexicon.lexer =
    ⟨[utf8 "true", utf8 "false", utf8 "null"], ['\x7b', '\x7d', '[', ']', ':', ',', '.'], ['"'],
      false, false, isWordChar⟩ :=
  Lexicon.lexer_encodeAll _ ['\x7b', '\x7d', '[', ']', ':', ',', '.'] ['"'] _ _ _

/-- Only punctuation marks are symbols. -/
theorem exists_punct_of_role {c : Char} (h : lexicon.lexer.role c = .symbol) :
    ∃ p : Punct, c = p.char := by
  have hsymbol := Lexer.isSymbol_of_role h
  rw [lexer_lexicon] at hsymbol
  simp only [Lexer.isSymbol, List.contains_eq_mem, List.mem_cons, List.not_mem_nil, or_false,
    decide_eq_true_eq] at hsymbol
  rcases hsymbol with rfl | rfl | rfl | rfl | rfl | rfl | rfl
  · exact ⟨.openBrace, rfl⟩
  · exact ⟨.closeBrace, rfl⟩
  · exact ⟨.openBracket, rfl⟩
  · exact ⟨.closeBracket, rfl⟩
  · exact ⟨.colon, rfl⟩
  · exact ⟨.comma, rfl⟩
  · exact ⟨.point, rfl⟩

/-- Only the quote is a delimiter. -/
theorem eq_quote_of_role {c : Char} (h : lexicon.lexer.role c = .delimiter) : c = '"' := by
  have hdelimiter := Lexer.isDelimiter_of_role h
  rw [lexer_lexicon] at hdelimiter
  simpa [Lexer.isDelimiter] using hdelimiter

/-- Only the three constants are keywords. -/
theorem exists_constant_of_isKeyword {t : Text} (h : lexicon.lexer.isKeyword t = true) :
    ∃ c : Constant, t = c.text := by
  rw [lexer_lexicon] at h
  simp only [Lexer.isKeyword, List.contains_eq_mem, List.mem_cons, List.not_mem_nil, or_false,
    decide_eq_true_eq] at h
  rcases h with rfl | rfl | rfl
  · exact ⟨.yes, rfl⟩
  · exact ⟨.no, rfl⟩
  · exact ⟨.null, rfl⟩

/-- A run of digits that has a value is in range. -/
theorem exists_numeral {t : Text} {v : Value} (hnumeral : Number.isNumeral t = true)
    (h : Number.integer t = .ok v) : ∃ n : Numeral, t = n.text := by
  by_cases hrange : Text.digitsValue t < Double.overflowBound
  · exact ⟨⟨t, hnumeral, hrange⟩, rfl⟩
  · obtain ⟨i, hi⟩ := Number.exists_integer_eq_error hnumeral (Nat.le_of_not_lt hrange)
    cases hi.symm.trans h

/-- A token that is scanned and has a leaf is a lexeme. -/
theorem lexeme_of_classified {l : Language} (hl : l.Built) {t : Token} {e : Expr} {reg : Registry}
    (ht : lexicon.lexer.Emits t)
    (h : (l.grammar.parser.classifyToken reg t).1 = .ok e) : Lexeme t := by
  cases ht with
  | keyword hkind hkeyword =>
      obtain ⟨c, hc⟩ := exists_constant_of_isKeyword hkeyword
      exact .constant c ⟨hkind, hc⟩
  | symbol c hkind hrole htext =>
      obtain ⟨p, rfl⟩ := exists_punct_of_role hrole
      exact .punct p ⟨hkind, htext.trans p.text_eq.symm⟩
  | string d body hkind hrole htext =>
      simp only [Parser.classifyToken, hkind, hl.stringValue, unquote] at h
      cases hs : decodeString? t.text with
      | none => rw [hs] at h; cases h
      | some s => exact .string s ⟨hkind, hs⟩
  | word hkind =>
      simp only [Parser.classifyToken, hkind, Parser.wordLeaf, hl.isIdentifier, Bool.false_eq_true,
        if_false] at h
      by_cases hnumeral : Number.isNumeral t.text = true
      · rw [if_pos hnumeral] at h
        cases hv : Number.integer t.text with
        | error i => rw [hv] at h; cases h
        | ok v =>
            obtain ⟨n, hn⟩ := exists_numeral hnumeral hv
            exact .numeral n ⟨hkind, hn⟩
      · rw [if_neg hnumeral] at h
        cases h

section Texts

variable {l : Language} (hl : l.Built) {s : Source} {e : Expr}

include hl

/-- A text is parsed by scanning it and parsing its tokens. -/
theorem parse_eq_ok_iff :
    l.parse s = .ok e ↔ ∃ ts, lexicon.lexer.scan s = .ok ts ∧
      (l.grammar.parser.parse l.registry ts).1.result = .ok e := by
  rw [Language.parse, Grammar.parse, hl.lexer]
  cases hscan : lexicon.lexer.scan s with
  | error err => simp
  | ok ts => simp

/-- The tokens of a text are of known classes, and those that have leaves are lexemes. -/
theorem lexeme_of_scan {ts : List Token} {t : Token} (hscan : lexicon.lexer.scan s = .ok ts)
    (ht : t ∈ ts) :
    (∀ n, t.kind ≠ .other n) ∧ (l.grammar.parser.Admits t → Lexeme t) := by
  obtain ⟨cs, pieces, -, hsplits, rfl⟩ := (Lexer.scan_iff_splits rfl rfl s ts).mp hscan
  have hemits := hsplits.emits ht
  refine ⟨?_, ?_⟩
  · intro n hkind
    cases hemits with
    | keyword h => cases hkind.symm.trans h
    | word h => cases hkind.symm.trans h
    | symbol c h => cases hkind.symm.trans h
    | string d body h => cases hkind.symm.trans h
  · intro hadmits
    obtain ⟨tag, v, reg, hleaf⟩ := hadmits l.registry
    exact lexeme_of_classified hl hemits (congrArg Prod.fst hleaf)

/-- The tokens of a text that is parsed are lexemes. -/
theorem lexeme_of_parse {ts : List Token} (hscan : lexicon.lexer.scan s = .ok ts)
    (hparse : (l.grammar.parser.parse l.registry ts).1.result = .ok e) : ∀ t ∈ ts, Lexeme t := by
  have hclassify : ∃ es, (l.grammar.parser.classify l.registry ts).1 = .ok es := by
    rw [Parser.parse] at hparse
    rcases hcases : l.grammar.parser.classify l.registry ts with ⟨err | es, reg⟩
    · rw [hcases] at hparse
      cases hparse
    · exact ⟨es, rfl⟩
  intro t ht
  exact (lexeme_of_scan hl hscan ht).2 (Parser.exists_classify_ok_iff.mp hclassify t ht)

end Texts

end Tagfold.Json
