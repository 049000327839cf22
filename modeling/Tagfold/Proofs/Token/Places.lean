import Tagfold.Proofs.Source.Lines
import Tagfold.Proofs.Token.Splitting

/-!
# Where tokens and errors stand

Positions count lines and runes, and a source turns them back into byte offsets.
`Source.offset_behind` says that the position behind some characters leads to the offset behind
them. Tokens and errors are placed in this way: `Lexer.scan_reads` says that the tokens of a text
start behind characters of it, and which rune the error of a text is about that cannot be scanned.
It comes from an invariant of the scanner, `ScanState.Read`, that every rune keeps.
-/

namespace Tagfold

namespace Source

variable {s : Source} {before : List Char} {rest : Text}

/-- The position behind some characters of a source leads to the offset behind them. -/
theorem offset_behind (h : s.content = Utf8.encodeAll before ++ rest) :
    s.offset (Place.behind before).pos = (Utf8.encodeAll before).length := by
  obtain ⟨complete, line, rfl, hline, hcomplete, hlength⟩ := exists_lastLine '\n' before
  have hcount : (complete ++ line).count '\n' = complete.count '\n' := by
    rw [List.count_append, List.count_eq_zero.mpr hline, Nat.add_zero]
  have hdecode : Utf8.decode s.content =
      complete.map .scalar ++ line.map .scalar ++ Utf8.decode rest := by
    rw [h, Utf8.decode_encodeAll_append, List.map_append]
  have hoffset := offset_spell hdecode
  simp only [← List.map_append, Utf8.spell_map_scalar, count_newline_encodeAll,
    List.length_map] at hoffset
  rw [Place.behind, ← hlength, hcount]
  exact hoffset (wholeLines_encodeAll hcomplete) (newline_not_mem_encodeAll hline)

/-- The position behind the first runes of a source leads to the offset behind them, as long as they
are characters. -/
theorem offset_of_decode {runes : List Rune}
    (h : Utf8.decode s.content = before.map .scalar ++ runes) :
    s.offset (Place.behind before).pos = (Utf8.encodeAll before).length := by
  have hbytes := Utf8.bytes_decode s.content
  rw [h, List.flatMap_append, List.flatMap_map] at hbytes
  exact offset_behind hbytes.symm

end Source

/-- Where a token starts. -/
def Token.place (t : Token) : Place := ⟨t.offset, t.pos⟩

/-- On the first line, columns count the characters before. -/
theorem Place.pos_behind_line {line : List Char} (h : '\n' ∉ line) :
    (Place.behind line).pos = ⟨1, line.length + 1⟩ := by
  have hwhole : line.reverse.takeWhile (· != '\n') = line.reverse := by
    refine List.takeWhile_eq_self_iff.mpr fun c hc ↦ ?_
    simpa using ne_of_mem_of_not_mem (List.mem_reverse.mp hc) h
  simp only [Place.behind, List.count_eq_zero.mpr h, hwhole, List.length_reverse]
  rfl

/-- The place is behind some of the characters. -/
def Place.Within (cs : List Char) (p : Place) : Prop :=
  ∃ before behind, cs = before ++ behind ∧ p = .behind before

/-- The character stands at its place among the characters. -/
def Placed.Within (cs : List Char) (c : Placed) : Prop :=
  ∃ before behind, cs = before ++ c.char :: behind ∧ c.place = .behind before

section Within

variable {cs : List Char}

/-- Places stay where they are when more characters come. -/
theorem Place.Within.append {p : Place} (h : p.Within cs) (more : List Char) :
    p.Within (cs ++ more) := by
  obtain ⟨before, behind, rfl, hp⟩ := h
  exact ⟨before, behind ++ more, List.append_assoc _ _ _, hp⟩

/-- Characters stay where they are when more characters come. -/
theorem Placed.Within.append {c : Placed} (h : c.Within cs) (more : List Char) :
    c.Within (cs ++ more) := by
  obtain ⟨before, behind, rfl, hp⟩ := h
  exact ⟨before, behind ++ more, by simp, hp⟩

/-- The place of a character is a place. -/
theorem Placed.Within.place {c : Placed} (h : c.Within cs) : c.place.Within cs := by
  obtain ⟨before, behind, rfl, hp⟩ := h
  exact ⟨before, c.char :: behind, rfl, hp⟩

/-- The next character stands behind all others. -/
theorem Placed.within_concat (cs : List Char) (c : Char) :
    Placed.Within (cs ++ [c]) ⟨c, .behind cs⟩ :=
  ⟨cs, [], rfl, rfl⟩

end Within

namespace Lexer

/-- The characters that words are made of: the word characters, and slashes and stars, which could
also belong to a comment. -/
def Collectable (l : Lexer) (c : Char) : Prop :=
  l.isWordChar c = true ∨ c = '/' ∨ c = '*'

/-- What a character outside literals and comments can lead to. -/
inductive PlainOutcome (l : Lexer) (source : Text) (pending : List Placed) (c : Placed) :
    Except LexicalError (ScanMode × List Token) → Prop where
  | collected : l.Collectable c.char →
      PlainOutcome l source pending c (.ok (.plain (c :: pending), []))
  | dropped : l.role c.char = .ignorable →
      PlainOutcome l source pending c (.ok (.plain pending, []))
  | cut : c.char = ' ' ∨ c.char = '\n' ∨ l.isSymbol c.char = true →
      PlainOutcome l source pending c (.ok (.plain [], l.flush source pending ++
        if l.isSymbol c.char then [tokenAt source .symbol (Utf8.encode c.char) c.place] else []))
  | opened : l.isDelimiter c.char = true →
      PlainOutcome l source pending c (.ok (.literal c [], l.flush source pending))
  | lineComment {slash : Placed} {before : List Placed} : l.lineComments = true →
      c.char = '/' → pending = slash :: before → slash.char = '/' →
      PlainOutcome l source pending c (.ok (.lineComment, l.flush source before))
  | blockComment {slash : Placed} {before : List Placed} : l.blockComments = true →
      c.char = '*' → pending = slash :: before → slash.char = '/' →
      PlainOutcome l source pending c
        (.ok (.blockComment slash.place false, l.flush source before))
  | wrong : l.role c.char = .bad →
      PlainOutcome l source pending c (.error (.wrongChar c.place.pos (.scalar c.char)))

/-- The slash that was collected last is the last character. -/
theorem eq_cons_of_openSlash? {pending before : List Placed} {slash : Placed}
    (h : openSlash? pending = some (slash, before)) :
    pending = slash :: before ∧ slash.char = '/' := by
  cases pending with
  | nil => cases h
  | cons c rest =>
      simp only [openSlash?] at h
      split at h
      · next hc =>
          cases h
          exact ⟨rfl, hc⟩
      · cases h

/-- Only tabs and carriage returns are ignorable. -/
theorem eq_tab_of_role {l : Lexer} {c : Char} (h : l.role c = .ignorable) : c = '\t' ∨ c = '\r' := by
  by_contra htab
  simp only [role, htab, if_false] at h
  split_ifs at h

/-- What words are made of is not ignorable. -/
theorem Collectable.role_ne_ignorable {l : Lexer} {c : Char} (h : l.Collectable c) :
    l.role c ≠ .ignorable := by
  intro hrole
  rcases h with hword | rfl | rfl
  · simp [role, hword] at hrole
  · simpa using eq_tab_of_role hrole
  · simpa using eq_tab_of_role hrole

/-- A character that neither belongs to a word nor opens a comment has an outcome. -/
theorem charStep_outcome (l : Lexer) (source : Text) (pending : List Placed) {c : Placed}
    (hword : ¬ l.isWordChar c.char = true) :
    l.PlainOutcome source pending c (l.charStep source pending c) := by
  unfold charStep
  dsimp only
  split
  · next hcut => exact .cut hcut
  · next hcut =>
      simp only [not_or] at hcut
      split
      · next hblank => exact .dropped (by simp [role, hword, hcut, hblank])
      · next hblank =>
          split
          · next hdelimiter => exact .opened hdelimiter
          · next hdelimiter =>
              split
              · next hstar => exact .collected (.inr (.inr hstar))
              · next hstar =>
                  simp only [not_or] at hblank
                  exact .wrong (by simp [role, hword, hcut, hblank, hdelimiter, hstar])

/-- Every character outside literals and comments has one of the outcomes. -/
theorem plainStep_outcome (l : Lexer) (source : Text) (pending : List Placed) (c : Placed) :
    l.PlainOutcome source pending c (l.plainStep source pending c) := by
  unfold plainStep
  dsimp only
  split
  · next hword => exact .collected (.inl hword)
  · next hword =>
      split
      · next hcomments =>
          have hslash : l.Collectable c.char := .inr (.inl hcomments.1)
          split
          · next slash before hopen =>
              split
              · next hline =>
                  obtain ⟨hpending, hchar⟩ := eq_cons_of_openSlash? hopen
                  exact .lineComment hline hcomments.1 hpending hchar
              · exact .collected hslash
          · exact .collected hslash
      · split
        · next hstar =>
            split
            · next slash before hopen =>
                obtain ⟨hpending, hchar⟩ := eq_cons_of_openSlash? hopen
                exact .blockComment hstar.2 hstar.1 hpending hchar
            · exact charStep_outcome l source pending hword
        · exact charStep_outcome l source pending hword

end Lexer

/-- What the scanner is inside of fits to the characters read so far. -/
def ScanMode.Fits (l : Lexer) (cs : List Char) : ScanMode → Prop
  | .plain pending => ∀ c ∈ pending, c.Within cs
  | .literal opening body => l.isDelimiter opening.char = true ∧
      ∃ before, cs = before ++ opening.char :: body.reverse ∧ opening.place = .behind before
  | .lineComment => True
  | .blockComment opening _ => l.blockComments = true ∧ Placed.Within cs ⟨'/', opening⟩

/-- The scanner has read the characters: it stands behind them, and so do its tokens. -/
structure ScanState.Read (l : Lexer) (cs : List Char) (state : ScanState) : Prop where
  place : state.place = .behind cs
  mode : state.mode.Fits l cs
  tokens : ∀ t ∈ state.tokens, t.place.Within cs

/-- What keeps a text from being scanned: behind some characters, a stray byte, a character without
a role, the delimiter of a literal that does not end, or the slash of a comment that does not end. -/
inductive LexicalError.At (l : Lexer) (before : List Char) :
    Rune → List Rune → LexicalError → Prop where
  | stray (b : UInt8) (behind : List Rune) :
      At l before (.stray b) behind (.wrongChar (Place.behind before).pos (.stray b))
  | bad {c : Char} (behind : List Rune) : l.role c = .bad →
      At l before (.scalar c) behind (.wrongChar (Place.behind before).pos (.scalar c))
  | literal {d : Char} (body : List Char) : l.isDelimiter d = true →
      At l before (.scalar d) (body.map .scalar)
        (.unterminatedString (Place.behind before).pos (Utf8.encodeAll (d :: body)))
  | comment (behind : List Rune) : l.blockComments = true →
      At l before (.scalar '/') behind (.unterminatedComment (Place.behind before).pos)

/-- An error is reported at the rune that it is about. -/
theorem LexicalError.At.report_pos {l : Lexer} {before : List Char} {r : Rune} {behind : List Rune}
    {e : LexicalError} (h : e.At l before r behind) (source : Text) :
    (e.report source).pos = (Place.behind before).pos := by
  cases h <;> rfl

namespace Lexer

variable {l : Lexer} {source : Text} {cs : List Char}

/-- The token of collected characters starts where one of them stands. -/
theorem within_of_mem_flush {pending : List Placed} (h : ∀ c ∈ pending, c.Within cs) {t : Token}
    (ht : t ∈ l.flush source pending) : t.place.Within cs := by
  unfold flush at ht
  split at ht
  · cases ht
  · next first hfirst =>
      rw [List.mem_singleton.mp ht]
      exact (h first (List.mem_of_getLast? hfirst)).place

/-- A character that is taken leaves a mode that fits, and tokens among the characters. -/
theorem modeStep_fits {mode next : ScanMode} {c : Char} {completed : List Token}
    (hmode : mode.Fits l cs) (h : l.modeStep source mode ⟨c, .behind cs⟩ = .ok (next, completed)) :
    next.Fits l (cs ++ [c]) ∧ ∀ t ∈ completed, t.place.Within (cs ++ [c]) := by
  have hnew := Placed.within_concat cs c
  cases mode with
  | plain pending =>
      have hold : ∀ a ∈ pending, a.Within (cs ++ [c]) := fun a ha ↦ (hmode a ha).append [c]
      have hout := l.plainStep_outcome source pending ⟨c, .behind cs⟩
      have hplain : l.plainStep source pending ⟨c, .behind cs⟩ = .ok (next, completed) := h
      rw [hplain] at hout
      cases hout with
      | collected => exact ⟨by simpa [ScanMode.Fits] using ⟨hnew, hold⟩, nofun⟩
      | dropped => exact ⟨hold, nofun⟩
      | cut =>
          refine ⟨nofun, ?_⟩
          intro t ht
          rcases List.mem_append.mp ht with ht | ht
          · exact within_of_mem_flush hold ht
          · split at ht
            · rw [List.mem_singleton.mp ht]
              exact hnew.place
            · cases ht
      | opened hdelimiter =>
          exact ⟨⟨hdelimiter, cs, rfl, rfl⟩, fun t ht ↦ within_of_mem_flush hold ht⟩
      | lineComment _ _ hpending _ =>
          subst hpending
          exact ⟨trivial, fun t ht ↦ within_of_mem_flush
            (fun a ha ↦ hold a (List.mem_cons_of_mem _ ha)) ht⟩
      | @blockComment slash before hblock _ hpending hslash =>
          subst hpending
          have hopening : Placed.Within (cs ++ [c]) ⟨'/', slash.place⟩ := by
            rw [← hslash]
            exact hold slash List.mem_cons_self
          exact ⟨⟨hblock, hopening⟩, fun t ht ↦ within_of_mem_flush
            (fun a ha ↦ hold a (List.mem_cons_of_mem _ ha)) ht⟩
  | literal opening body =>
      obtain ⟨hdelimiter, before, hcs, hplace⟩ := hmode
      simp only [modeStep] at h
      split at h
      · cases h
        refine ⟨nofun, ?_⟩
        intro t ht
        rw [List.mem_singleton.mp ht]
        exact ⟨before, opening.char :: body.reverse ++ [c], by simp [hcs], hplace⟩
      · cases h
        exact ⟨⟨hdelimiter, before, by simp [hcs], hplace⟩, nofun⟩
  | lineComment =>
      cases h
      refine ⟨?_, nofun⟩
      split
      · exact nofun
      · trivial
  | blockComment opening star =>
      simp only [modeStep] at h
      split at h
      · cases h
        exact ⟨nofun, nofun⟩
      · cases h
        exact ⟨⟨hmode.1, hmode.2.append [c]⟩, nofun⟩

/-- A character that is not taken has no role. -/
theorem modeStep_error {mode : ScanMode} {c : Placed} {e : LexicalError}
    (h : l.modeStep source mode c = .error e) :
    l.role c.char = .bad ∧ e = .wrongChar c.place.pos (.scalar c.char) := by
  cases mode with
  | plain pending =>
      have hout := l.plainStep_outcome source pending c
      have hplain : l.plainStep source pending c = .error e := h
      rw [hplain] at hout
      cases hout with
      | wrong hrole => exact ⟨hrole, rfl⟩
  | literal opening body =>
      simp only [modeStep] at h
      split at h <;> cases h
  | lineComment => cases h
  | blockComment opening star =>
      simp only [modeStep] at h
      split at h <;> cases h

/-- One rune is read, or is the one that an error is about. -/
theorem step_reads {state : ScanState} (hstate : state.Read l cs) (source : Text) (r : Rune) :
    (∃ c next, r = .scalar c ∧ l.step source state r = .ok next ∧ next.Read l (cs ++ [c])) ∨
      ∃ e, l.step source state r = .error e ∧ ∀ behind, e.At l cs r behind := by
  cases r with
  | stray b =>
      refine .inr ⟨_, rfl, fun behind ↦ ?_⟩
      rw [hstate.place]
      exact .stray b behind
  | scalar c =>
      cases hstep : l.modeStep source state.mode ⟨c, state.place⟩ with
      | error e =>
          obtain ⟨hrole, he⟩ := modeStep_error hstep
          refine .inr ⟨e, by simp [step, hstep, bind, Except.bind], fun behind ↦ ?_⟩
          rw [he, hstate.place]
          exact .bad behind hrole
      | ok out =>
          obtain ⟨mode, completed⟩ := out
          refine .inl ⟨c, ⟨state.place.advance c, mode, completed.reverse ++ state.tokens⟩, rfl,
            by simp [step, hstep, bind, Except.bind, pure, Except.pure], ?_⟩
          rw [hstate.place] at hstep
          obtain ⟨hmode, hcompleted⟩ := modeStep_fits hstate.mode hstep
          refine ⟨by rw [hstate.place, Place.behind_concat], hmode, ?_⟩
          intro t ht
          rcases List.mem_append.mp ht with ht | ht
          · exact hcompleted t (List.mem_reverse.mp ht)
          · exact (hstate.tokens t ht).append [c]

/-- The runes of a text are read one by one, up to the one that an error is about. -/
theorem run_reads {state : ScanState} (hstate : state.Read l cs) (source : Text)
    (runes : List Rune) :
    (∃ more last, runes = more.map .scalar ∧ l.run source state runes = .ok last ∧
        last.Read l (cs ++ more)) ∨
      ∃ more r behind e, runes = more.map .scalar ++ r :: behind ∧
        l.run source state runes = .error e ∧ e.At l (cs ++ more) r behind := by
  induction runes generalizing cs state with
  | nil => exact .inl ⟨[], state, rfl, rfl, by rwa [List.append_nil]⟩
  | cons r runes ih =>
      rw [run, List.foldlM_cons]
      obtain ⟨c, next, rfl, hstep, hnext⟩ | ⟨e, hstep, hat⟩ := step_reads hstate source r
      · rw [hstep]
        obtain ⟨more, last, rfl, hrun, hlast⟩ | ⟨more, r, behind, e, rfl, hrun, hat⟩ := ih hnext
        · exact .inl ⟨c :: more, last, rfl, hrun, by simpa using hlast⟩
        · exact .inr ⟨c :: more, r, behind, e, rfl, hrun, by simpa using hat⟩
      · exact .inr ⟨[], r, runes, e, rfl, by rw [hstep]; rfl, by simpa using hat runes⟩

/-- The state behind some characters has read them. -/
theorem read_of_run {last : ScanState} (h : l.run source initial (cs.map .scalar) = .ok last) :
    last.Read l cs := by
  have hinitial : initial.Read l [] := ⟨rfl, nofun, nofun⟩
  obtain ⟨more, last', hmore, hrun, hread⟩ | ⟨_, _, _, e, -, he, -⟩ :=
    run_reads hinitial source (cs.map .scalar)
  · cases h.symm.trans hrun
    obtain rfl : cs = more := List.map_injective_iff.mpr (fun _ _ ↦ Rune.scalar.inj) hmore
    exact hread
  · cases h.symm.trans he

/-- The end of a text completes a token among its characters, or is missed by a literal or a
comment. -/
theorem finish_reads {state : ScanState} (hstate : state.Read l cs) (source : Text) :
    (∃ ts, l.finish source state = .ok ts ∧ ∀ t ∈ ts, t.place.Within cs) ∨
      ∃ before r behind e, cs.map .scalar = before.map .scalar ++ r :: behind ∧
        l.finish source state = .error e ∧ e.At l before r behind := by
  obtain ⟨place, mode, tokens⟩ := state
  have htokens : ∀ t ∈ tokens.reverse, t.place.Within cs :=
    fun t ht ↦ hstate.tokens t (List.mem_reverse.mp ht)
  cases mode with
  | plain pending =>
      refine .inl ⟨_, rfl, ?_⟩
      intro t ht
      rcases List.mem_append.mp ht with ht | ht
      · exact htokens t ht
      · exact within_of_mem_flush hstate.mode ht
  | literal opening body =>
      obtain ⟨hdelimiter, before, rfl, hplace⟩ : _ ∧ _ := hstate.mode
      refine .inr ⟨before, .scalar opening.char, body.reverse.map .scalar, _, by simp, rfl, ?_⟩
      rw [hplace]
      exact .literal body.reverse hdelimiter
  | lineComment => exact .inl ⟨_, rfl, htokens⟩
  | blockComment opening star =>
      obtain ⟨hblock, before, behind, rfl, hplace⟩ : _ ∧ _ := hstate.mode
      refine .inr ⟨before, .scalar '/', behind.map .scalar, _, by simp, rfl, ?_⟩
      obtain rfl : opening = .behind before := hplace
      exact .comment _ hblock

/-- A scan gives tokens that start among the characters of the text, or an error about one of its
runes. -/
theorem scan_reads (l : Lexer) (s : Source) :
    (∃ cs ts, s.content = Utf8.encodeAll cs ∧ l.scan s = .ok ts ∧ ∀ t ∈ ts, t.place.Within cs) ∨
      ∃ before r behind e, Utf8.decode s.content = before.map .scalar ++ r :: behind ∧
        l.scan s = .error e ∧ e.At l before r behind := by
  have hinitial : initial.Read l [] := ⟨rfl, nofun, nofun⟩
  unfold scan
  obtain ⟨cs, last, hdecode, hrun, hlast⟩ | ⟨more, r, behind, e, hdecode, hrun, hat⟩ :=
    run_reads hinitial s.name (Utf8.decode s.content)
  · rw [hrun]
    obtain ⟨ts, hts, hplaces⟩ | ⟨before, r, behind, e, hcs, he, hat⟩ :=
      finish_reads hlast s.name
    · exact .inl ⟨cs, ts, Utf8.decode_eq_map_scalar_iff.mp hdecode, hts, hplaces⟩
    · exact .inr ⟨before, r, behind, e, hdecode.trans hcs, he, hat⟩
  · rw [hrun]
    exact .inr ⟨more, r, behind, e, hdecode, rfl, hat⟩

/-- The error of a text that cannot be scanned is about one of its runes. -/
theorem at_of_scan {s : Source} {e : LexicalError} (h : l.scan s = .error e) :
    ∃ before r behind, Utf8.decode s.content = before.map .scalar ++ r :: behind ∧
      e.At l before r behind := by
  obtain ⟨_, ts, -, hts, -⟩ | ⟨before, r, behind, e', hdecode, he, hat⟩ := l.scan_reads s
  · cases hts.symm.trans h
  · cases he.symm.trans h
    exact ⟨before, r, behind, hdecode, hat⟩

/-- The position of a token leads back to its offset. -/
theorem offset_of_scan {s : Source} {ts : List Token} (h : l.scan s = .ok ts) {t : Token}
    (ht : t ∈ ts) : (s.offset t.pos : Int) = t.offset := by
  obtain ⟨cs, ts', hcs, hts, hplaces⟩ | ⟨_, _, _, e, -, he, -⟩ := l.scan_reads s
  · cases hts.symm.trans h
    obtain ⟨before, behind, rfl, hplace⟩ := hplaces t ht
    have hcontent : s.content = Utf8.encodeAll before ++ Utf8.encodeAll behind := by
      rw [hcs, Utf8.encodeAll_append]
    have hpos : t.pos = (Place.behind before).pos := congrArg Place.pos hplace
    have hoffset : t.offset = (Place.behind before).offset := congrArg Place.offset hplace
    rw [hpos, hoffset, Source.offset_behind hcontent]
    rfl
  · cases he.symm.trans h

end Lexer

end Tagfold
