import Mathlib.Data.List.Infix
import Tagfold.Proofs.Token.Relocation

/-!
# Comments are blank

A comment completes the word before it, and the scanner leaves it as it leaves a separator.
`Lexicon.scan_comment_eq_separator` says that a block comment may stand for a space and a line
comment for nothing before the line break that ends it: apart from their places, the tokens are the
same, and so is the error if there is one.
-/

namespace Tagfold

namespace Lexer

/-- A character ends a block comment exactly if it is a slash behind a star. -/
theorem closing_infix_concat_iff {body : List Char} {c : Char} :
    ['*', '/'] <:+: body ++ [c] ↔ ['*', '/'] <:+: body ∨ (body.getLast? = some '*' ∧ c = '/') := by
  have hsuffix : ['*', '/'] <:+ body ++ [c] ↔ body.getLast? = some '*' ∧ c = '/' := by
    rw [List.suffix_concat_iff, List.getLast?_eq_some_iff]
    constructor
    · intro h
      obtain h | ⟨init, hinit, left, hleft⟩ := h
      · cases h
      · have hpair : ['*'] ++ ['/'] = init ++ [c] := hinit
        obtain ⟨hstar, hslash⟩ := List.append_inj' hpair rfl
        exact ⟨⟨left, by rw [← hleft, ← hstar]⟩, (List.head_eq_of_cons_eq hslash).symm⟩
    · intro h
      obtain ⟨⟨left, hleft⟩, hslash⟩ := h
      exact .inr ⟨['*'], by rw [hslash]; rfl, left, hleft.symm⟩
  rw [List.infix_concat_iff, hsuffix, or_comm]

section Inside

variable {l : Lexer} {source : Text} {cs : List Char}

/-- A character in a block comment that does not end it. -/
theorem modeStep_blockComment {seen : List Char} {c : Char}
    (h : ¬ ['*', '/'] <:+: seen ++ [c]) (opening place : Place) :
    l.modeStep source (.blockComment opening (seen.getLast? == some '*')) ⟨c, place⟩ =
      .ok (.blockComment opening ((seen ++ [c]).getLast? == some '*'), []) := by
  have hopen : ¬ ((seen.getLast? == some '*') = true ∧ c = '/') := by
    rw [beq_iff_eq]
    exact fun hclose ↦ h (closing_infix_concat_iff.mpr (.inr hclose))
  simp only [modeStep, if_neg hopen, List.getLast?_concat]
  rfl

/-- Characters in a block comment that do not end it are skipped. -/
theorem runToEnd_blockComment {seen : List Char} (h : ¬ ['*', '/'] <:+: seen ++ cs)
    (opening place : Place) (tokens : List Token) (runes : List Rune) :
    ∃ later, l.runToEnd source ⟨place, .blockComment opening (seen.getLast? == some '*'), tokens⟩
        (cs.map .scalar ++ runes) =
      l.runToEnd source
        ⟨later, .blockComment opening ((seen ++ cs).getLast? == some '*'), tokens⟩ runes := by
  -- What was seen in the comment grows with every character, and its last one is what the scanner
  -- remembers of it.
  induction cs generalizing seen place with
  | nil => exact ⟨place, by rw [List.append_nil]; rfl⟩
  | cons c cs ih =>
      have hsplit : seen ++ c :: cs = seen ++ [c] ++ cs := by simp
      rw [hsplit] at h
      have hc : ¬ ['*', '/'] <:+: seen ++ [c] :=
        fun hclosed ↦ h (hclosed.trans (List.prefix_append _ cs).isInfix)
      obtain ⟨later, hlater⟩ := ih h (place.advance c)
      refine ⟨later, ?_⟩
      rw [hsplit, List.map_cons, List.cons_append,
        runToEnd_cons (modeStep_blockComment hc opening place)]
      exact hlater

/-- A block comment is skipped up to the star and the slash that end it. -/
theorem runToEnd_blockComment_closed (h : ¬ ['*', '/'] <:+: cs) (opening place : Place)
    (tokens : List Token) (runes : List Rune) :
    ∃ later, l.runToEnd source ⟨place, .blockComment opening false, tokens⟩
        ((cs ++ ['*', '/']).map .scalar ++ runes) =
      l.runToEnd source ⟨later, .plain [], tokens⟩ runes := by
  have hstar : ¬ ['*', '/'] <:+: [] ++ (cs ++ ['*']) := by
    rw [List.nil_append, closing_infix_concat_iff]
    rintro (hclosed | ⟨-, hc⟩)
    · exact h hclosed
    · cases hc
  obtain ⟨later, hlater⟩ := runToEnd_blockComment hstar opening place tokens
    (.scalar '/' :: runes)
  have hsplit : (cs ++ ['*', '/']).map Rune.scalar ++ runes =
      (cs ++ ['*']).map .scalar ++ .scalar '/' :: runes := by simp
  have hlast : (([] ++ (cs ++ ['*'])).getLast? == some '*') = true := by simp
  have hclose : l.modeStep source (.blockComment opening true) ⟨'/', later⟩ = .ok (.plain [], []) :=
    rfl
  rw [hlast, runToEnd_cons hclose] at hlater
  exact ⟨later.advance '/', hsplit ▸ hlater⟩

/-- A line comment is skipped up to the line break that ends it. -/
theorem runToEnd_lineComment_closed (h : '\n' ∉ cs) (place : Place) (tokens : List Token)
    (runes : List Rune) :
    ∃ later, l.runToEnd source ⟨place, .lineComment, tokens⟩
        ((cs ++ ['\n']).map .scalar ++ runes) =
      l.runToEnd source ⟨later, .plain [], tokens⟩ runes := by
  induction cs generalizing place with
  | nil =>
      have hstep : l.modeStep source .lineComment ⟨'\n', place⟩ = .ok (.plain [], []) := rfl
      exact ⟨place.advance '\n', runToEnd_cons hstep runes⟩
  | cons c cs ih =>
      rw [List.mem_cons, not_or] at h
      obtain ⟨hc, hcs⟩ := h
      have hstep : l.modeStep source .lineComment ⟨c, place⟩ = .ok (.lineComment, []) := by
        simp only [modeStep, if_neg (Ne.symm hc)]
      obtain ⟨later, hlater⟩ := ih hcs (place.advance c)
      exact ⟨later, (runToEnd_cons hstep _).trans hlater⟩

end Inside

section Opening

variable {l : Lexer} {source : Text} {pending before : List Placed} {slash : Placed}
  {body : List Char}

/-- A slash that opens no comment is collected. -/
theorem modeStep_slash (hword : l.isWordChar '/' = false)
    (hcomments : l.lineComments = true ∨ l.blockComments = true)
    (hpending : l.lineComments = true → openSlash? pending = none) (place : Place) :
    l.modeStep source (.plain pending) ⟨'/', place⟩ =
      .ok (.plain (⟨'/', place⟩ :: pending), []) := by
  cases hopen : openSlash? pending with
  | none => simp [modeStep, plainStep, hword, hcomments, hopen]
  | some opened =>
      have hline : ¬ l.lineComments = true := by
        intro h
        rw [hpending h] at hopen
        cases hopen
      have hblock : l.blockComments = true := hcomments.resolve_left hline
      simp [modeStep, plainStep, hword, hline, hblock, hopen]

/-- A slash behind another one opens a line comment. -/
theorem modeStep_opens_lineComment (hword : l.isWordChar '/' = false)
    (hline : l.lineComments = true) (hpending : openSlash? pending = some (slash, before))
    (place : Place) :
    l.modeStep source (.plain pending) ⟨'/', place⟩ = .ok (.lineComment, l.flush source before) := by
  simp [modeStep, plainStep, hword, hline, hpending]

/-- A star behind a slash opens a block comment. -/
theorem modeStep_opens_blockComment (hword : l.isWordChar '*' = false)
    (hblock : l.blockComments = true) (hpending : openSlash? pending = some (slash, before))
    (place : Place) :
    l.modeStep source (.plain pending) ⟨'*', place⟩ =
      .ok (.blockComment slash.place false, l.flush source before) := by
  simp [modeStep, plainStep, hword, hblock, hpending]

/-- The characters complete the word before them and leave nothing else behind, as a separator
does. -/
def Separates (l : Lexer) (source : Text) (pending : List Placed) (cs : List Char) : Prop :=
  ∀ place tokens runes, ∃ later,
    l.runToEnd source ⟨place, .plain pending, tokens⟩ (cs.map .scalar ++ runes) =
      l.runToEnd source ⟨later, .plain [], (l.flush source pending).reverse ++ tokens⟩ runes

/-- A separator does. -/
theorem separates_separator {c : Char} (hc : c = ' ' ∨ c = '\n') (hword : l.isWordChar c = false)
    (hsymbol : l.isSymbol c = false) : l.Separates source pending [c] := by
  intro place tokens runes
  exact ⟨_, runToEnd_cons (modeStep_separator hc hword hsymbol pending place) runes⟩

/-- A block comment does. -/
theorem separates_blockComment (hslash : l.isWordChar '/' = false)
    (hstar : l.isWordChar '*' = false) (hblock : l.blockComments = true)
    (hpending : openSlash? pending = none) (hbody : ¬ ['*', '/'] <:+: body) :
    l.Separates source pending ('/' :: '*' :: (body ++ ['*', '/'])) := by
  intro place tokens runes
  have hlast : openSlash? (⟨'/', place⟩ :: pending) = some (⟨'/', place⟩, pending) := rfl
  have hopen : l.modeStep source _ _ = _ :=
    modeStep_opens_blockComment hstar hblock hlast (place.advance '/')
  rw [List.map_cons, List.map_cons, List.cons_append, List.cons_append,
    runToEnd_cons (modeStep_slash hslash (.inr hblock) (fun _ ↦ hpending) place),
    runToEnd_cons hopen]
  exact runToEnd_blockComment_closed hbody _ _ _ runes

/-- A line comment with the line break that ends it does. -/
theorem separates_lineComment (hslash : l.isWordChar '/' = false) (hline : l.lineComments = true)
    (hpending : openSlash? pending = none) (hbody : '\n' ∉ body) :
    l.Separates source pending ('/' :: '/' :: (body ++ ['\n'])) := by
  intro place tokens runes
  have hlast : openSlash? (⟨'/', place⟩ :: pending) = some (⟨'/', place⟩, pending) := rfl
  have hopen : l.modeStep source _ _ = _ :=
    modeStep_opens_lineComment hslash hline hlast (place.advance '/')
  rw [List.map_cons, List.map_cons, List.cons_append, List.cons_append,
    runToEnd_cons (modeStep_slash hslash (.inl hline) (fun _ ↦ hpending) place),
    runToEnd_cons hopen]
  exact runToEnd_lineComment_closed hbody _ _ runes

end Opening

/-- Two scans give tokens of the same kinds and texts, or fail with the same code and text. -/
def SameLexemes (source : Text) :
    Except LexicalError (List Token) → Except LexicalError (List Token) → Prop
  | .ok ts, .ok us =>
    ts.map (fun t ↦ (t.kind, t.text)) = us.map fun t ↦ (t.kind, t.text)
  | .error e, .error f =>
    (e.report source).code = (f.report source).code ∧
      (e.report source).text = (f.report source).text
  | _, _ => False

/-- From two places on, the same runes have the same lexemes. -/
theorem sameLexemes_runToEnd (l : Lexer) (source : Text) (p q : Place) (tokens : List Token)
    (runes : List Rune) :
    SameLexemes source (l.runToEnd source ⟨p, .plain [], tokens⟩ runes)
      (l.runToEnd source ⟨q, .plain [], tokens⟩ runes) := by
  have hkept : Place.Kept fun _ _ ↦ True := fun _ _ _ _ ↦ trivial
  have htokens : List.Forall₂ (Token.Alike fun _ _ ↦ True) tokens tokens :=
    List.forall₂_same.mpr fun t _ ↦ ⟨rfl, rfl, rfl, trivial⟩
  have hstart : ScanState.Alike (fun _ _ ↦ True) ⟨p, .plain [], tokens⟩ ⟨q, .plain [], tokens⟩ :=
    ⟨trivial, .plain .nil, htokens⟩
  have halike : Except.Alike _ _ (l.runToEnd source ⟨p, .plain [], tokens⟩ runes)
      (l.runToEnd source ⟨q, .plain [], tokens⟩ runes) := runToEnd_alike hkept hstart runes
  generalize l.runToEnd source ⟨p, .plain [], tokens⟩ runes = x at halike ⊢
  generalize l.runToEnd source ⟨q, .plain [], tokens⟩ runes = y at halike ⊢
  cases halike with
  | error herror => exact herror.report_eq source
  | ok hsame =>
      show _ = _
      induction hsame with
      | nil => rfl
      | cons ht _ ih => rw [List.map_cons, List.map_cons, ih, ht.kind, ht.text]

/-- What separates may stand for what separates. -/
theorem sameLexemes_of_separates {l : Lexer} {source before : Text} {place : Place}
    {pending : List Placed} {tokens : List Token}
    (hrun : l.run source initial (Utf8.decode before) = .ok ⟨place, .plain pending, tokens⟩)
    {cs ds : List Char} (hcs : l.Separates source pending cs) (hds : l.Separates source pending ds)
    (behind : Text) :
    SameLexemes source (l.scan ⟨source, before ++ (Utf8.encodeAll cs ++ behind)⟩)
      (l.scan ⟨source, before ++ (Utf8.encodeAll ds ++ behind)⟩) := by
  obtain ⟨p, hp⟩ := hcs place tokens (Utf8.decode behind)
  obtain ⟨q, hq⟩ := hds place tokens (Utf8.decode behind)
  rw [scan_append hrun, scan_append hrun, hp, hq]
  exact sameLexemes_runToEnd l source p q _ _

end Lexer

namespace Lexicon

/-- Behind a text that leaves the scanner outside of literals and comments and not behind a slash, a
block comment has the lexemes of a space, and a line comment those of the line break that ends it.
Its characters may be any that do not end it. -/
theorem scan_comment_eq_separator (l : Lexicon)
    (hwords : ∀ c ∈ ['/', '*', ' ', '\n'], l.lexer.isWordChar c = false)
    (hsymbols : ∀ c ∈ [' ', '\n'], l.lexer.isSymbol c = false) {name before : Text}
    {place : Place} {pending : List Placed} {tokens : List Token}
    (hrun : l.lexer.run name Lexer.initial (Utf8.decode before) =
      .ok ⟨place, .plain pending, tokens⟩)
    (hslash : ∀ c, pending.head? = some c → c.char ≠ '/') (body : List Char) (behind : Text) :
    (l.blockComments = true → ¬ ['*', '/'] <:+: body →
      Lexer.SameLexemes name
        (l.lexer.scan ⟨name, before ++ utf8 "/*" ++ Utf8.encodeAll body ++ utf8 "*/" ++ behind⟩)
        (l.lexer.scan ⟨name, before ++ utf8 " " ++ behind⟩)) ∧
    (l.lineComments = true → '\n' ∉ body →
      Lexer.SameLexemes name
        (l.lexer.scan ⟨name, before ++ utf8 "//" ++ Utf8.encodeAll body ++ utf8 "\n" ++ behind⟩)
        (l.lexer.scan ⟨name, before ++ utf8 "\n" ++ behind⟩)) := by
  simp only [List.forall_mem_cons, List.not_mem_nil, false_implies, implies_true, and_true]
    at hwords hsymbols
  obtain ⟨hword, hstar, hspace, hbreak⟩ := hwords
  have hpending : Lexer.openSlash? pending = none := by
    rcases pending with _ | ⟨c, rest⟩
    · rfl
    · exact if_neg (hslash c rfl)
  constructor
  · intro hblock hbody
    have hsame := Lexer.sameLexemes_of_separates hrun
      (Lexer.separates_blockComment hword hstar hblock hpending hbody)
      (Lexer.separates_separator (.inl rfl) hspace hsymbols.1) behind
    rw [Utf8.encodeAll_cons, Utf8.encodeAll_cons, Utf8.encodeAll_append] at hsame
    simp only [List.append_assoc] at hsame ⊢
    exact hsame
  · intro hline hbody
    have hsame := Lexer.sameLexemes_of_separates hrun
      (Lexer.separates_lineComment hword hline hpending hbody)
      (Lexer.separates_separator (.inr rfl) hbreak hsymbols.2) behind
    rw [Utf8.encodeAll_cons, Utf8.encodeAll_cons, Utf8.encodeAll_append] at hsame
    simp only [List.append_assoc] at hsame ⊢
    exact hsame

/-- A word with a slash in it is ended by a comment with a delimiter, a slash and stars in it, as by
a space. -/
theorem scan_comment_delimiter :
    Lexer.SameLexemes (utf8 "in")
      ((Lexicon.mk [] [] (utf8 "\"") true true (some Char.isAlpha)).lexer.scan
        ⟨utf8 "in", utf8 "a/b" ++ utf8 "/*" ++ Utf8.encodeAll ['"', '/', '*', '*'] ++ utf8 "*/" ++
          utf8 "c"⟩)
      ((Lexicon.mk [] [] (utf8 "\"") true true (some Char.isAlpha)).lexer.scan
        ⟨utf8 "in", utf8 "a/b" ++ utf8 " " ++ utf8 "c"⟩) := by
  have hlexer : (Lexicon.mk [] [] (utf8 "\"") true true (some Char.isAlpha)).lexer =
      ⟨[], [], ['"'], true, true, Char.isAlpha⟩ := lexer_encodeAll _ [] ['"'] _ _ _
  have hdecode : Utf8.decode (utf8 "a/b") = ['a', '/', 'b'].map .scalar :=
    Utf8.decode_encodeAll ['a', '/', 'b']
  have hrun : (Lexicon.mk [] [] (utf8 "\"") true true (some Char.isAlpha)).lexer.run (utf8 "in")
      Lexer.initial (Utf8.decode (utf8 "a/b")) =
        .ok ⟨⟨3, ⟨1, 4⟩⟩, .plain [⟨'b', ⟨2, ⟨1, 3⟩⟩⟩, ⟨'/', ⟨1, ⟨1, 2⟩⟩⟩, ⟨'a', ⟨0, ⟨1, 1⟩⟩⟩], []⟩ := by
    rw [hlexer, hdecode]
    rfl
  refine (scan_comment_eq_separator _ ?_ ?_ hrun ?_ ['"', '/', '*', '*'] (utf8 "c")).1 rfl
    (by decide)
  · simp only [List.forall_mem_cons]
    exact ⟨rfl, rfl, rfl, rfl, nofun⟩
  · rw [hlexer]
    exact fun _ _ ↦ rfl
  · intro c hc
    cases hc
    decide

end Lexicon

end Tagfold
