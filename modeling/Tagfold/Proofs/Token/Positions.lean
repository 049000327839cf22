import Tagfold.Proofs.Token.Openings

/-!
# Positions and offsets agree

The scanner counts lines and columns as it goes, and a source finds them again from an offset and
its line starts. `Source.lineCol_behind` says that both give the same position behind any characters
of a source. Hence `Lexicon.scan_lineCol`: the position of every token is that of its offset, and an
error is reported at the position of the rune that keeps the text from being scanned, which
`Lexer.FailsAt` tells.
-/

namespace Tagfold

namespace Source

variable {s : Source} {before : List Char} {rest : Text}

/-- The offset behind some characters of a source has the position behind them. -/
theorem lineCol_behind (h : s.content = Utf8.encodeAll before ++ rest) :
    s.lineCol (Utf8.encodeAll before).length = (Place.behind before).pos := by
  obtain ⟨complete, line, rfl, hline, hcomplete, hlength⟩ := exists_lastLine '\n' before
  have htake : s.content.take ((Utf8.encodeAll (complete ++ line)).length : Int).toNat =
      Utf8.encodeAll complete ++ Utf8.encodeAll line := by
    rw [h, Int.toNat_natCast, List.take_left, Utf8.encodeAll_append]
  have hlines : (complete ++ line).count '\n' = complete.count '\n' := by
    rw [List.count_append, List.count_eq_zero.mpr hline, Nat.add_zero]
  have hcount : Utf8.count (Utf8.encodeAll line) = line.length := by
    rw [Utf8.count, Utf8.decode_encodeAll, List.length_map]
  rw [lineCol_of_take htake (wholeLines_encodeAll hcomplete) (newline_not_mem_encodeAll hline),
    count_newline_encodeAll, hcount, Place.behind, ← hlength, hlines]

end Source

namespace Lexer

/-- What keeps a text from being scanned, at the first of the runes behind the characters: a rune
that the scanner does not take there, a delimiter with which it enters a literal that nothing
closes, or a slash with which it enters a block comment that nothing closes. -/
inductive FailsAt (l : Lexer) (source : Text) (before : List Char) :
    List Rune → LexicalError → Prop where
  | refused {mode : ScanMode} {tokens : List Token} {r : Rune} {pos : Pos} (behind : List Rune) :
      l.Reads source before mode tokens →
      l.step source ⟨.behind before, mode, tokens⟩ r = .error (.wrongChar pos r) →
      FailsAt l source before (r :: behind) (.wrongChar pos r)
  | literal {d : Char} {body : List Char} {pending : List Placed} {earlier : List Token}
      {pos : Pos} :
      l.Enters source before [d] pending (.literal ⟨d, .behind before⟩ []) earlier →
      Unclosed d body →
      FailsAt l source before ((d :: body).map .scalar)
        (.unterminatedString pos (Utf8.encodeAll (d :: body)))
  | comment {gap body : List Char} {pending : List Placed} {earlier : List Token} {pos : Pos} :
      l.Enters source before ('/' :: (gap ++ ['*'])) pending (.blockComment (.behind before) false)
        earlier →
      (∀ c ∈ gap, l.role c = .ignorable) → ¬ ['*', '/'] <:+: body →
      FailsAt l source before (('/' :: (gap ++ '*' :: body)).map .scalar)
        (.unterminatedComment pos)

variable {l : Lexer} {source : Text} {state : ScanState} {e : LexicalError}

/-- A rune that is not taken is wrong where it stands. -/
theorem eq_wrongChar_of_step {r : Rune} (h : l.step source state r = .error e) :
    e = .wrongChar state.place.pos r := by
  cases r with
  | stray b =>
      cases h
      rfl
  | scalar c =>
      cases hstep : l.modeStep source state.mode ⟨c, state.place⟩ with
      | error f =>
          simp only [step, hstep, bind, Except.bind] at h
          cases h
          exact (modeStep_error hstep).2
      | ok out =>
          simp only [step, hstep, bind, Except.bind] at h
          cases h

/-- A run that fails reads some characters and does not take the next rune. -/
theorem exists_refused {runes : List Rune} (h : l.run source state runes = .error e) :
    ∃ (before : List Char) (r : Rune) (behind : List Rune) (last : ScanState),
      runes = before.map .scalar ++ r :: behind ∧
      l.run source state (before.map .scalar) = .ok last ∧ l.step source last r = .error e := by
  induction runes generalizing state with
  | nil => cases h
  | cons r runes ih =>
      rw [run, List.foldlM_cons] at h
      cases hstep : l.step source state r with
      | error f =>
          rw [hstep] at h
          cases h
          exact ⟨[], r, runes, state, rfl, rfl, hstep⟩
      | ok next =>
          rw [hstep] at h
          obtain ⟨before, r', behind, last, rfl, hrun, hlast⟩ := ih h
          cases r with
          | stray b => cases hstep
          | scalar c =>
              refine ⟨c :: before, r', behind, last, rfl, ?_, hlast⟩
              rw [List.map_cons, run, List.foldlM_cons, hstep]
              exact hrun

/-- A scan fails at a rune, and the error is reported at its position. -/
theorem failsAt_of_scan {s : Source} (h : l.scan s = .error e) :
    ∃ before runes, Utf8.decode s.content = before.map .scalar ++ runes ∧
      l.FailsAt s.name before runes e ∧ (e.report s.name).pos = (Place.behind before).pos := by
  rw [scan] at h
  cases hrun : l.run s.name initial (Utf8.decode s.content) with
  | error f =>
      rw [hrun] at h
      cases h
      obtain ⟨before, r, behind, last, hdecode, hlast, hstep⟩ := exists_refused hrun
      have hread := reads_of_run hlast
      obtain rfl := eq_wrongChar_of_step hstep
      have hplace := (read_of_run hlast).place
      refine ⟨before, r :: behind, hdecode, .refused behind hread ?_, by rw [hplace]; rfl⟩
      rw [← hplace]
      exact hstep
  | ok last =>
      rw [hrun] at h
      obtain ⟨cs, hcs⟩ := Utf8.exists_encodeAll_of_no_stray (no_stray_of_run hrun)
      have hdecode : Utf8.decode s.content = cs.map .scalar := by
        rw [hcs, Utf8.decode_encodeAll]
      rw [hdecode] at hrun ⊢
      have hreached := reached_of_reads (reads_of_run hrun)
      obtain ⟨place, mode, tokens⟩ := last
      cases hreached with
      | plain => cases h
      | lineComment => cases h
      | @literal before body d _ _ henters _ hbody =>
          have hend : e = .unterminatedString (Place.behind before).pos
              (Utf8.encodeAll (d :: body)) := by
            cases h
            rw [List.reverse_reverse]
          rw [hend]
          exact ⟨before, (d :: body).map .scalar, List.map_append, .literal henters hbody, rfl⟩
      | @blockComment before gap body _ _ henters _ hgap hbody =>
          cases h
          exact ⟨before, _, List.map_append, .comment henters hgap hbody, rfl⟩

end Lexer

namespace Lexicon

/-- The position of a token is that of its offset and leads back to it. The position of an error is
that of the offset of the rune that the scan fails at: one that is not taken, a stray byte included,
the delimiter of a literal without an end, or the slash of a comment without an end. -/
theorem scan_lineCol (l : Lexicon) (s : Source) :
    (∀ ts, l.lexer.scan s = .ok ts → ∀ t ∈ ts,
      t.pos = s.lineCol t.offset ∧ (s.offset t.pos : Int) = t.offset) ∧
    ∀ e, l.lexer.scan s = .error e →
      ∃ before runes, Utf8.decode s.content = before.map .scalar ++ runes ∧
        l.lexer.FailsAt s.name before runes e ∧
        (e.report s.name).pos = s.lineCol (Utf8.encodeAll before).length := by
  constructor
  · intro ts hts t ht
    refine ⟨?_, Lexer.offset_of_scan hts ht⟩
    obtain ⟨cs, ts', hcs, hts', hplaces⟩ | ⟨_, _, _, e, -, he, -⟩ := l.lexer.scan_reads s
    · cases hts'.symm.trans hts
      obtain ⟨before, behind, rfl, hplace⟩ := hplaces t ht
      rw [Utf8.encodeAll_append] at hcs
      have hpos : t.pos = (Place.behind before).pos := congrArg Place.pos hplace
      have hoffset : t.offset = (Place.behind before).offset := congrArg Place.offset hplace
      rw [hpos, hoffset]
      exact (Source.lineCol_behind hcs).symm
    · cases he.symm.trans hts
  · intro e he
    obtain ⟨before, runes, hdecode, hfails, hpos⟩ := Lexer.failsAt_of_scan he
    have hcontent : s.content = Utf8.encodeAll before ++ runes.flatMap Rune.bytes := by
      rw [← Utf8.bytes_decode s.content, hdecode, List.flatMap_append, List.flatMap_map]
      rfl
    exact ⟨before, runes, hdecode, hfails, by rw [hpos, Source.lineCol_behind hcontent]⟩

/-- The comment without an end is reported on the second line, behind a character of two bytes. -/
theorem scan_lineCol_comment :
    (Lexicon.mk [] [] [] false true (some fun c ↦ c = 'é')).lexer.scan
        ⟨utf8 "in", utf8 "é\né/\t*/"⟩ = .error (.unterminatedComment ⟨2, 2⟩) ∧
      ∃ before runes, Utf8.decode (utf8 "é\né/\t*/") = before.map .scalar ++ runes ∧
        (Lexicon.mk [] [] [] false true (some fun c ↦ c = 'é')).lexer.FailsAt (utf8 "in") before
          runes (.unterminatedComment ⟨2, 2⟩) ∧
        (⟨2, 2⟩ : Pos) = Source.lineCol ⟨utf8 "in", utf8 "é\né/\t*/"⟩
          (Utf8.encodeAll before).length := by
  have hscan : (Lexicon.mk [] [] [] false true (some fun c ↦ c = 'é')).lexer.scan
      ⟨utf8 "in", utf8 "é\né/\t*/"⟩ = .error (.unterminatedComment ⟨2, 2⟩) := by
    have hlexer : (Lexicon.mk [] [] [] false true (some fun c ↦ c = 'é')).lexer =
        ⟨[], [], [], false, true, fun c ↦ c = 'é'⟩ := lexer_encodeAll _ [] [] _ _ _
    have hcs : utf8 "é\né/\t*/" = Utf8.encodeAll ['é', '\n', 'é', '/', '\t', '*', '/'] := rfl
    rw [hlexer, Lexer.scan_eq_tokensFrom _ hcs]
    rfl
  exact ⟨hscan, (scan_lineCol _ _).2 _ hscan⟩

end Lexicon

end Tagfold
