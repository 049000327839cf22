import Tagfold.Proofs.Token.Escapes
import Tagfold.Proofs.Token.Openings

/-!
# Where literals end

At every delimiter the scanner counts the backslashes before it, backwards and no further than to
the delimiter that opened the literal. `Lexicon.literalEnds_iff_cutLiteral` says that a literal ends
where escapes that are read from left to right leave the first delimiter outside of them, whatever
came before the literal, and that a literal without such an end is reported with all of its text.
-/

namespace Tagfold

namespace Lexer

/-- The literal that the delimiter opens behind the characters ends at the position of the text
behind it: what stands before the position is its body, and the character there completes its
token. -/
structure LiteralEnds (l : Lexer) (source : Text) (before : List Char) (d : Char)
    (earlier : List Token) (text : List Char) (position : Nat) : Prop where
  inside : l.Reads source (before ++ d :: text.take position)
    (.literal ⟨d, .behind before⟩ (text.take position).reverse) earlier
  outside : l.Reads source (before ++ d :: text.take (position + 1)) (.plain [])
    (tokenAt source .string (Utf8.encodeAll (d :: text.take (position + 1))) (.behind before) ::
      earlier)

section Bodies

variable {d : Char} {body text : List Char}

/-- A text that is not open has a delimiter that closes what stands before it. -/
theorem unclosed_or_exists_closes (d : Char) (text : List Char) :
    Unclosed d text ∨ ∃ body behind, text = body ++ d :: behind ∧ Closes d body := by
  -- By induction from the right, as the first delimiter that closes is the one to be found.
  induction text using List.reverseRecOn with
  | nil => exact .inl (unclosed_nil d)
  | append_singleton text c ih =>
      obtain hopen | ⟨body, behind, rfl, hcloses⟩ := ih
      · by_cases hc : c = d ∧ slashesAtEnd text % 2 = 0
        · obtain ⟨rfl, heven⟩ := hc
          exact .inr ⟨text, [], rfl, heven, hopen⟩
        · refine .inl (hopen.concat fun heq ↦ ?_)
          have hodd := not_and.mp hc heq
          omega
      · exact .inr ⟨body, behind ++ [c], by simp, hcloses⟩

/-- Reading from left to right finds no end of an open text, and only of such a text. -/
theorem cutLiteral_eq_none_iff (hd : d ≠ '\\') :
    cutLiteral '\\' d false text = none ↔ Unclosed d text := by
  constructor
  · intro hnone
    obtain hopen | ⟨body, behind, htext, hcloses⟩ := unclosed_or_exists_closes d text
    · exact hopen
    · have hsome := (cutLiteral_eq_some_iff hd).mpr ⟨htext, (closes_iff_literalBody hd).mp hcloses⟩
      cases hnone.symm.trans hsome
  · intro hopen
    rw [Option.eq_none_iff_forall_ne_some]
    rintro ⟨body, behind⟩ hsome
    obtain ⟨htext, hbody⟩ := (cutLiteral_eq_some_iff hd).mp hsome
    have heven := ((closes_iff_literalBody hd).mpr hbody).1
    have hodd := hopen body behind htext
    omega

/-- A text is cut at a position exactly if the delimiter stands there, behind a body. -/
theorem cutLiteral_take_iff (hd : d ≠ '\\') {position : Nat} :
    cutLiteral '\\' d false text = some (text.take position, text.drop (position + 1)) ↔
      text[position]? = some d ∧ Closes d (text.take position) := by
  rw [cutLiteral_eq_some_iff hd, closes_iff_literalBody hd]
  refine and_congr_left fun _ ↦ ?_
  constructor
  · intro htext
    have hlength : (text.take position).length = position := by
      have htotal := congrArg List.length htext
      rw [List.length_append, List.length_cons, List.length_drop, List.length_take] at htotal
      rw [List.length_take]
      omega
    rw [htext, List.getElem?_append_right (by omega), hlength, Nat.sub_self]
    rfl
  · intro hchar
    obtain ⟨hlt, rfl⟩ := List.getElem?_eq_some_iff.mp hchar
    rw [List.getElem_cons_drop, List.take_append_drop]

end Bodies

section Reading

variable {l : Lexer} {source : Text} {before body text : List Char} {d : Char}
  {earlier : List Token} {position : Nat}

/-- As long as its body is open, the scanner stays in a literal. -/
theorem Reads.append_unclosed
    (h : l.Reads source (before ++ [d]) (.literal ⟨d, .behind before⟩ []) earlier)
    (hbody : Unclosed d body) :
    l.Reads source (before ++ d :: body) (.literal ⟨d, .behind before⟩ body.reverse) earlier := by
  induction body using List.reverseRecOn with
  | nil => exact h
  | append_singleton body c ih =>
      have hstep : l.modeStep source (.literal ⟨d, .behind before⟩ body.reverse)
          ⟨c, .behind (before ++ d :: body)⟩ =
            .ok (.literal ⟨d, .behind before⟩ (c :: body.reverse), []) := by
        refine modeStep_body fun hc ↦ ?_
        obtain rfl : c = d := hc
        rw [List.reverse_reverse]
        exact hbody body [] rfl
      have hnext := (ih hbody.of_concat).concat hstep
      simpa using hnext

/-- The body of the literal that the scanner is in is open. -/
theorem Reads.unclosed
    (h : l.Reads source (before ++ d :: body) (.literal ⟨d, .behind before⟩ body.reverse) earlier) :
    Unclosed d body := by
  have hreached := reached_of_reads h
  generalize before ++ d :: body = cs at hreached
  generalize hmode : ScanMode.literal ⟨d, .behind before⟩ body.reverse = mode at hreached
  cases hreached with
  | literal _ _ hopen =>
      injection hmode with hopening hbody
      injection hopening with hd _
      rw [hd, List.reverse_injective hbody]
      exact hopen
  | plain | lineComment | blockComment => cases hmode

/-- The characters that were read tell where the scanner is. -/
theorem Reads.unique {cs : List Char} {mode other : ScanMode} {tokens more : List Token}
    (h : l.Reads source cs mode tokens) (hother : l.Reads source cs other more) :
    mode = other ∧ tokens = more := by
  cases h.symm.trans hother
  exact ⟨rfl, rfl⟩

/-- An opened literal ends exactly where its delimiter closes what stands before. -/
theorem literalEnds_iff_closes
    (h : l.Reads source (before ++ [d]) (.literal ⟨d, .behind before⟩ []) earlier) :
    l.LiteralEnds source before d earlier text position ↔
      text[position]? = some d ∧ Closes d (text.take position) := by
  constructor
  · intro hends
    have hopen := hends.inside.unclosed
    have houtside := hends.outside
    rcases lt_or_ge position text.length with hlt | hge
    · rw [List.take_succ_eq_append_getElem hlt, ← List.cons_append, ← List.append_assoc] at houtside
      obtain ⟨mode, tokens, completed, hreads, hstep, -⟩ := reads_concat_cases houtside
      obtain ⟨rfl, -⟩ := hreads.unique hends.inside
      simp only [modeStep] at hstep
      split at hstep
      · next hclose =>
          obtain ⟨hchar, hplain⟩ := hclose
          rw [escaped_iff, List.reverse_reverse] at hplain
          exact ⟨List.getElem?_eq_some_iff.mpr ⟨hlt, hchar⟩, by omega, hopen⟩
      · cases hstep
    · -- Behind the end of the text nothing more is read.
      have hinside := hends.inside
      rw [List.take_of_length_le hge] at hinside
      rw [List.take_of_length_le (Nat.le_succ_of_le hge)] at houtside
      cases (hinside.unique houtside).1
  · rintro ⟨hchar, hcloses⟩
    obtain ⟨hlt, hd⟩ := List.getElem?_eq_some_iff.mp hchar
    have hinside := h.append_unclosed hcloses.2
    have heven : slashesAtEnd (text.take position).reverse.reverse % 2 = 0 := by
      rw [List.reverse_reverse]
      exact hcloses.1
    have houtside := hinside.concat (modeStep_closing heven _)
    refine ⟨hinside, ?_⟩
    rw [List.take_succ_eq_append_getElem hlt, hd]
    simpa [Piece.text] using houtside

/-- A literal without an end is reported with its text. -/
theorem Reads.scan_of_unclosed
    (h : l.Reads source (before ++ [d]) (.literal ⟨d, .behind before⟩ []) earlier)
    (htext : Unclosed d text) :
    l.scan ⟨source, Utf8.encodeAll (before ++ d :: text)⟩ =
      .error (.unterminatedString (Place.behind before).pos (Utf8.encodeAll (d :: text))) := by
  have hreads := h.append_unclosed htext
  rw [Reads] at hreads
  rw [scan, Utf8.decode_encodeAll, hreads]
  simp [bind, Except.bind, finish]

end Reading

end Lexer

namespace Lexicon

/-- Let the scanner have opened a literal behind some characters, with a delimiter that is not the
backslash. The literal ends at a position of the text behind exactly if that is where the first
delimiter outside of escapes stands, with escapes read from left to right. If there is none, the
text from the opening delimiter on is reported as a literal without an end. -/
theorem literalEnds_iff_cutLiteral (l : Lexicon) (source : Text) {before : List Char} {d : Char}
    {earlier : List Token} (hd : d ≠ '\\')
    (hopened : l.lexer.Reads source (before ++ [d]) (.literal ⟨d, .behind before⟩ []) earlier)
    (text : List Char) :
    (∀ position, l.lexer.LiteralEnds source before d earlier text position ↔
      cutLiteral '\\' d false text = some (text.take position, text.drop (position + 1))) ∧
    (cutLiteral '\\' d false text = none →
      l.lexer.scan ⟨source, Utf8.encodeAll (before ++ d :: text)⟩ =
        .error (.unterminatedString (Place.behind before).pos (Utf8.encodeAll (d :: text)))) := by
  constructor
  · intro position
    rw [Lexer.literalEnds_iff_closes hopened, Lexer.cutLiteral_take_iff hd]
  · intro hnone
    exact hopened.scan_of_unclosed ((Lexer.cutLiteral_eq_none_iff hd).mp hnone)

/-- Two backslashes right behind the opening quote leave the next quote outside of escapes. With a
third one that quote is escaped, and the literal has no end. -/
theorem literalEnds_slashes :
    '"' ≠ '\\' ∧
      (Lexicon.mk [] [] (utf8 "\"") true false (some Char.isAlpha)).lexer.Reads (utf8 "in")
        (['a'] ++ ['"']) (.literal ⟨'"', .behind ['a']⟩ [])
        [⟨.word, utf8 "a", utf8 "in", 0, ⟨1, 1⟩⟩] ∧
      (Lexicon.mk [] [] (utf8 "\"") true false (some Char.isAlpha)).lexer.LiteralEnds (utf8 "in")
        ['a'] '"' [⟨.word, utf8 "a", utf8 "in", 0, ⟨1, 1⟩⟩] ['\\', '\\', '"', '"'] 2 ∧
      (Lexicon.mk [] [] (utf8 "\"") true false (some Char.isAlpha)).lexer.scan
        ⟨utf8 "in", utf8 "a\"\\\\\\\""⟩ =
          .error (.unterminatedString ⟨1, 2⟩ (utf8 "\"\\\\\\\"")) := by
  have hd : '"' ≠ '\\' := by decide
  have hopened : (Lexicon.mk [] [] (utf8 "\"") true false (some Char.isAlpha)).lexer.Reads
      (utf8 "in") (['a'] ++ ['"']) (.literal ⟨'"', .behind ['a']⟩ [])
      [⟨.word, utf8 "a", utf8 "in", 0, ⟨1, 1⟩⟩] := by
    have hlexer : (Lexicon.mk [] [] (utf8 "\"") true false (some Char.isAlpha)).lexer =
        ⟨[], [], ['"'], true, false, Char.isAlpha⟩ := lexer_encodeAll _ [] ['"'] _ _ _
    rw [hlexer]
    rfl
  refine ⟨hd, hopened, ?_, ?_⟩
  · exact ((literalEnds_iff_cutLiteral _ _ hd hopened _).1 2).mpr (by decide)
  · exact (literalEnds_iff_cutLiteral _ _ hd hopened ['\\', '\\', '\\', '"']).2 (by decide)

end Lexicon

end Tagfold
