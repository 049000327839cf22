import Tagfold.Proofs.Token.Positions

/-!
# Errors come as early as they can

A scan that fails is outside of literals and comments where the error is reported: at a character
that it does not take, and in front of a literal or comment without an end. So the text before that
place can be scanned, and what stands behind a wrong character makes no difference. Both are said by
`Lexicon.scan_error_earliest`.
-/

namespace Tagfold

namespace Lexer

variable {l : Lexer} {source : Text} {before : List Char} {mode : ScanMode} {tokens : List Token}
  {e : LexicalError}

/-- A character is only refused outside of literals and comments. -/
theorem eq_plain_of_modeStep_error {c : Placed} (h : l.modeStep source mode c = .error e) :
    ∃ pending, mode = .plain pending := by
  cases mode with
  | plain pending => exact ⟨pending, rfl⟩
  | literal opening body =>
      simp only [modeStep] at h
      split at h <;> cases h
  | lineComment => cases h
  | blockComment opening star =>
      simp only [modeStep] at h
      split at h <;> cases h

/-- Where an error of characters is reported, the scanner is outside of literals and comments. -/
theorem FailsAt.exists_reads {behind : List Char}
    (h : l.FailsAt source before (behind.map .scalar) e) :
    ∃ pending tokens, l.Reads source before (.plain pending) tokens := by
  generalize hrunes : behind.map Rune.scalar = runes at h
  cases h with
  | @refused mode tokens r pos rest hreads hstep =>
      obtain ⟨c, more, rfl, rfl, -⟩ := List.map_eq_cons_iff.mp hrunes
      cases hmode : l.modeStep source mode ⟨c, .behind before⟩ with
      | error f =>
          obtain ⟨pending, rfl⟩ := eq_plain_of_modeStep_error hmode
          exact ⟨pending, tokens, hreads⟩
      | ok out =>
          simp only [step, hmode, bind, Except.bind] at hstep
          cases hstep
  | literal henters => exact ⟨_, _, henters.outside⟩
  | comment henters => exact ⟨_, _, henters.outside⟩

/-- Outside of literals and comments, a text may end. -/
theorem Reads.exists_scan {pending : List Placed}
    (h : l.Reads source before (.plain pending) tokens) :
    ∃ ts, l.scan ⟨source, Utf8.encodeAll before⟩ = .ok ts := by
  rw [scan, Utf8.decode_encodeAll, h]
  exact ⟨_, rfl⟩

/-- A wrong character ends the scan, whatever stands behind it. -/
theorem FailsAt.scan_of_wrongChar {runes : List Rune} (h : l.FailsAt source before runes e)
    (hcode : (e.report source).code = Kind.wrongChar.code) {t : Text} {behind : List Rune}
    (ht : Utf8.decode t = before.map .scalar ++ (runes ++ behind)) :
    l.scan ⟨source, t⟩ = .error e := by
  cases h with
  | refused rest hreads hstep =>
      rw [Reads] at hreads
      rw [scan, ht, run, List.foldlM_append, ← run, hreads]
      simp only [List.cons_append, List.foldlM_cons, hstep, bind, Except.bind]
  | literal =>
      have hne : Kind.unterminatedString.code ≠ Kind.wrongChar.code := by decide
      exact absurd hcode hne
  | comment =>
      have hne : Kind.unterminatedComment.code ≠ Kind.wrongChar.code := by decide
      exact absurd hcode hne

end Lexer

namespace Lexicon

/-- Where the scan of characters fails, the text before the position that it reports can be scanned.
If it fails at a wrong character, then it fails in the same way whatever is added to the text. -/
theorem scan_error_earliest (l : Lexicon) {s : Source} {e : LexicalError}
    (hvalid : Utf8.Valid s.content) (h : l.lexer.scan s = .error e) :
    (∃ ts, l.lexer.scan ⟨s.name, s.content.take (s.offset (e.report s.name).pos)⟩ = .ok ts) ∧
      ((e.report s.name).code = Kind.wrongChar.code →
        ∀ suffix, l.lexer.scan ⟨s.name, s.content ++ suffix⟩ = .error e) := by
  obtain ⟨cs, hcs⟩ := hvalid
  obtain ⟨before, runes, hdecode, hfails, hpos⟩ := Lexer.failsAt_of_scan h
  have hchars : cs.map Rune.scalar = before.map .scalar ++ runes := by
    rw [← hdecode, hcs, Utf8.decode_encodeAll]
  obtain ⟨front, behind, rfl, hfront, rfl⟩ := List.map_eq_append_iff.mp hchars
  obtain rfl : front = before := List.map_injective_iff.mpr (fun _ _ ↦ Rune.scalar.inj) hfront
  constructor
  · obtain ⟨pending, tokens, hreads⟩ := hfails.exists_reads
    have htake : s.content.take (s.offset (e.report s.name).pos) = Utf8.encodeAll front := by
      rw [hpos, Source.offset_of_decode hdecode, hcs, Utf8.encodeAll_append, List.take_left]
    rw [htake]
    exact hreads.exists_scan
  · intro hcode suffix
    have hmore : Utf8.decode (s.content ++ suffix) =
        front.map .scalar ++ (behind.map .scalar ++ Utf8.decode suffix) := by
      rw [hcs, Utf8.decode_encodeAll_append, List.map_append, List.append_assoc]
    exact hfails.scan_of_wrongChar hcode hmore

/-- A wrong character behind a literal that holds it as well: the text before it is a word and a
literal, and a comment behind it makes no difference. -/
theorem scan_error_earliest_literal :
    Utf8.Valid (utf8 "a\"é\"é") ∧
      (Lexicon.mk [] [] (utf8 "\"") false true (some Char.isAlpha)).lexer.scan
        ⟨utf8 "in", utf8 "a\"é\"é"⟩ = .error (.wrongChar ⟨1, 5⟩ (.scalar 'é')) ∧
      (∃ ts, (Lexicon.mk [] [] (utf8 "\"") false true (some Char.isAlpha)).lexer.scan
        ⟨utf8 "in", utf8 "a\"é\""⟩ = .ok ts) ∧
      (Lexicon.mk [] [] (utf8 "\"") false true (some Char.isAlpha)).lexer.scan
        ⟨utf8 "in", utf8 "a\"é\"é" ++ utf8 "/*"⟩ = .error (.wrongChar ⟨1, 5⟩ (.scalar 'é')) := by
  have hcs : utf8 "a\"é\"é" = Utf8.encodeAll ['a', '"', 'é', '"', 'é'] := rfl
  have hvalid : Utf8.Valid (utf8 "a\"é\"é") := ⟨_, hcs⟩
  have hscan : (Lexicon.mk [] [] (utf8 "\"") false true (some Char.isAlpha)).lexer.scan
      ⟨utf8 "in", utf8 "a\"é\"é"⟩ = .error (.wrongChar ⟨1, 5⟩ (.scalar 'é')) := by
    have hlexer : (Lexicon.mk [] [] (utf8 "\"") false true (some Char.isAlpha)).lexer =
        ⟨[], [], ['"'], false, true, Char.isAlpha⟩ := lexer_encodeAll _ [] ['"'] _ _ _
    rw [hlexer, Lexer.scan_eq_tokensFrom _ hcs]
    rfl
  obtain ⟨hbefore, hbehind⟩ := scan_error_earliest _ hvalid hscan
  have hsplit : utf8 "a\"é\"é" = Utf8.encodeAll ['a', '"', 'é', '"'] ++ utf8 "é" := rfl
  have hoffset : Source.offset ⟨utf8 "in", utf8 "a\"é\"é"⟩ ⟨1, 5⟩ = 5 := by
    have hbefore := Source.offset_behind (s := ⟨utf8 "in", utf8 "a\"é\"é"⟩) hsplit
    exact hbefore
  refine ⟨hvalid, hscan, ?_, hbehind rfl (utf8 "/*")⟩
  have hpos : (LexicalError.report (utf8 "in") (.wrongChar ⟨1, 5⟩ (.scalar 'é'))).pos =
      ⟨1, 5⟩ := rfl
  rw [hpos, hoffset] at hbefore
  exact hbefore

end Lexicon

end Tagfold
