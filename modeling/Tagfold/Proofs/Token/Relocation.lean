import Mathlib.Data.List.Forall2
import Tagfold.Proofs.Token.Blanks
import Tagfold.Proofs.Token.Places

/-!
# The same characters at other places

A scanner looks at characters only and carries their places along. So two scans of the same runes
that start at two places stay in step, whatever relation of places characters keep:
`Lexer.runToEnd_alike`. One such relation is "so many bytes further on and so many lines further
down". It holds across a line break, and `Lexicon.scan_below` says that a text below another one has
the tokens that it has alone, moved down.
-/

namespace Tagfold

/-- Both computations succeed with related results, or both fail with related errors. -/
inductive Except.Alike {ε α β : Type} (E : ε → ε → Prop) (A : α → β → Prop) :
    Except ε α → Except ε β → Prop where
  | ok {a : α} {b : β} : A a b → Alike E A (.ok a) (.ok b)
  | error {e f : ε} : E e f → Alike E A (.error e) (.error f)

/-- Computations that go on alike after alike results are alike. -/
theorem Except.Alike.bind {ε α β γ δ : Type} {E : ε → ε → Prop} {A : α → β → Prop}
    {B : γ → δ → Prop} {x : Except ε α} {y : Except ε β} {f : α → Except ε γ} {g : β → Except ε δ}
    (h : Alike E A x y) (hnext : ∀ a b, A a b → Alike E B (f a) (g b)) :
    Alike E B (x >>= f) (y >>= g) := by
  cases h with
  | ok hab => exact hnext _ _ hab
  | error he => exact .error he

section Relations

variable (R : Place → Place → Prop)

/-- Related places stay related behind the same character. -/
def Place.Kept : Prop :=
  ∀ p q c, R p q → R (p.advance c) (q.advance c)

/-- The same character at related places. -/
structure Placed.Alike (a b : Placed) : Prop where
  char : a.char = b.char
  place : R a.place b.place

/-- The same token at related places. -/
structure Token.Alike (t u : Token) : Prop where
  kind : t.kind = u.kind
  text : t.text = u.text
  source : t.source = u.source
  place : R t.place u.place

/-- The scanner is inside of the same thing, at related places. -/
inductive ScanMode.Alike : ScanMode → ScanMode → Prop where
  | plain {pending pending' : List Placed} : List.Forall₂ (Placed.Alike R) pending pending' →
      Alike (.plain pending) (.plain pending')
  | literal {opening opening' : Placed} (body : List Char) : opening.Alike R opening' →
      Alike (.literal opening body) (.literal opening' body)
  | lineComment : Alike .lineComment .lineComment
  | blockComment {opening opening' : Place} (star : Bool) : R opening opening' →
      Alike (.blockComment opening star) (.blockComment opening' star)

/-- The scanner does the same at related places. -/
structure ScanState.Alike (s t : ScanState) : Prop where
  place : R s.place t.place
  mode : s.mode.Alike R t.mode
  tokens : List.Forall₂ (Token.Alike R) s.tokens t.tokens

/-- The same error at related places. -/
inductive LexicalError.Alike : LexicalError → LexicalError → Prop where
  | wrongChar {p q : Place} (r : Rune) : R p q → Alike (.wrongChar p.pos r) (.wrongChar q.pos r)
  | unterminatedString {p q : Place} (text : Text) : R p q →
      Alike (.unterminatedString p.pos text) (.unterminatedString q.pos text)
  | unterminatedComment {p q : Place} : R p q →
      Alike (.unterminatedComment p.pos) (.unterminatedComment q.pos)

end Relations

/-- The same error at two places has the same code and text. -/
theorem LexicalError.Alike.report_eq {R : Place → Place → Prop} {e f : LexicalError}
    (h : e.Alike R f) (source : Text) : (e.report source).code = (f.report source).code ∧
      (e.report source).text = (f.report source).text := by
  cases h <;> exact ⟨rfl, rfl⟩

/-- Errors are reported at related places. -/
theorem LexicalError.Alike.exists_place {R : Place → Place → Prop} {e f : LexicalError}
    (h : e.Alike R f) (source : Text) :
    ∃ p q, R p q ∧ (e.report source).pos = p.pos ∧ (f.report source).pos = q.pos := by
  cases h with
  | wrongChar _ hpq | unterminatedString _ hpq | unterminatedComment hpq =>
      exact ⟨_, _, hpq, rfl, rfl⟩

namespace Lexer

section Steps

variable {R : Place → Place → Prop} {l : Lexer} {source : Text} {pending pending' : List Placed}
  {c c' : Placed}

/-- What is collected alike has the same characters. -/
theorem map_char_of_alike (h : List.Forall₂ (Placed.Alike R) pending pending') :
    pending.map Placed.char = pending'.map Placed.char := by
  induction h with
  | nil => rfl
  | cons hc _ ih => rw [List.map_cons, List.map_cons, hc.char, ih]

/-- What is collected alike starts alike. -/
theorem getLast?_of_alike (h : List.Forall₂ (Placed.Alike R) pending pending') :
    (pending.getLast? = none ∧ pending'.getLast? = none) ∨
      ∃ a b, pending.getLast? = some a ∧ pending'.getLast? = some b ∧ a.Alike R b := by
  induction h with
  | nil => exact .inl ⟨rfl, rfl⟩
  | cons hc _ ih =>
      rw [List.getLast?_cons, List.getLast?_cons]
      obtain ⟨hp, hq⟩ | ⟨a, b, hp, hq, hab⟩ := ih
      · exact .inr ⟨_, _, rfl, rfl, by rwa [hp, hq]⟩
      · exact .inr ⟨_, _, rfl, rfl, by rwa [hp, hq]⟩

/-- What is collected alike completes alike. -/
theorem flush_alike (h : List.Forall₂ (Placed.Alike R) pending pending') :
    List.Forall₂ (Token.Alike R) (l.flush source pending) (l.flush source pending') := by
  unfold flush
  obtain ⟨hp, hq⟩ | ⟨a, b, hp, hq, hab⟩ := getLast?_of_alike h
  · rw [hp, hq]
    exact .nil
  · rw [hp, hq, List.map_reverse, List.map_reverse, map_char_of_alike h]
    exact .cons ⟨rfl, rfl, rfl, hab.place⟩ .nil

/-- A slash was collected last in both, or in neither. -/
theorem openSlash?_of_alike (h : List.Forall₂ (Placed.Alike R) pending pending') :
    (openSlash? pending = none ∧ openSlash? pending' = none) ∨
      ∃ slash slash' before before', openSlash? pending = some (slash, before) ∧
        openSlash? pending' = some (slash', before') ∧ R slash.place slash'.place ∧
        List.Forall₂ (Placed.Alike R) before before' := by
  cases h with
  | nil => exact .inl ⟨rfl, rfl⟩
  | @cons a b before before' hc hrest =>
      simp only [openSlash?, hc.char]
      by_cases hslash : b.char = '/'
      · rw [if_pos hslash, if_pos hslash]
        exact .inr ⟨a, b, before, before', rfl, rfl, hc.place, hrest⟩
      · rw [if_neg hslash, if_neg hslash]
        exact .inl ⟨rfl, rfl⟩

/-- The outcomes of a character: alike modes and tokens, or alike errors. -/
def StepAlike (R : Place → Place → Prop) :
    Except LexicalError (ScanMode × List Token) → Except LexicalError (ScanMode × List Token) →
      Prop :=
  Except.Alike (LexicalError.Alike R) fun x y ↦
    x.1.Alike R y.1 ∧ List.Forall₂ (Token.Alike R) x.2 y.2

/-- The same character that neither belongs to a word nor opens a comment has alike outcomes. -/
theorem charStep_alike (h : List.Forall₂ (Placed.Alike R) pending pending') (hc : c.Alike R c') :
    StepAlike R (l.charStep source pending c) (l.charStep source pending' c') := by
  have hflush : List.Forall₂ (Token.Alike R) (l.flush source pending) (l.flush source pending') :=
    flush_alike h
  simp only [charStep, hc.char]
  split
  · refine .ok ⟨.plain .nil, List.rel_append hflush ?_⟩
    split
    · exact .cons ⟨rfl, rfl, rfl, hc.place⟩ .nil
    · exact .nil
  · split
    · exact .ok ⟨.plain h, .nil⟩
    · split
      · exact .ok ⟨.literal [] hc, hflush⟩
      · split
        · exact .ok ⟨.plain (.cons hc h), .nil⟩
        · exact .error (.wrongChar _ hc.place)

/-- The same character outside literals and comments has alike outcomes. -/
theorem plainStep_alike (h : List.Forall₂ (Placed.Alike R) pending pending') (hc : c.Alike R c') :
    StepAlike R (l.plainStep source pending c) (l.plainStep source pending' c') := by
  have hcollected : StepAlike R (.ok (.plain (c :: pending), []))
      (.ok (.plain (c' :: pending'), [])) := .ok ⟨.plain (.cons hc h), .nil⟩
  simp only [plainStep, hc.char]
  split
  · exact hcollected
  · obtain ⟨hp, hq⟩ | ⟨slash, slash', before, before', hp, hq, hslash, hbefore⟩ :=
      openSlash?_of_alike h
    · simp only [hp, hq]
      split
      · exact hcollected
      · split
        · exact charStep_alike h hc
        · exact charStep_alike h hc
    · simp only [hp, hq]
      split
      · split
        · exact .ok ⟨.lineComment, flush_alike hbefore⟩
        · exact hcollected
      · split
        · exact .ok ⟨.blockComment false hslash, flush_alike hbefore⟩
        · exact charStep_alike h hc

/-- The same character has alike outcomes. -/
theorem modeStep_alike {mode mode' : ScanMode} (h : mode.Alike R mode') (hc : c.Alike R c') :
    StepAlike R (l.modeStep source mode c) (l.modeStep source mode' c') := by
  cases h with
  | plain h => exact plainStep_alike h hc
  | literal body hopening =>
      simp only [modeStep, hc.char, hopening.char]
      split
      · exact .ok ⟨.plain .nil, .cons ⟨rfl, rfl, rfl, hopening.place⟩ .nil⟩
      · exact .ok ⟨.literal _ hopening, .nil⟩
  | lineComment =>
      simp only [modeStep, hc.char]
      split
      · exact .ok ⟨.plain .nil, .nil⟩
      · exact .ok ⟨.lineComment, .nil⟩
  | blockComment star hopening =>
      simp only [modeStep, hc.char]
      split
      · exact .ok ⟨.plain .nil, .nil⟩
      · exact .ok ⟨.blockComment _ hopening, .nil⟩

variable {s t : ScanState}

/-- The same rune leads from alike states to alike ones. -/
theorem step_alike (hR : Place.Kept R) (h : s.Alike R t) (r : Rune) :
    Except.Alike (LexicalError.Alike R) (ScanState.Alike R) (l.step source s r)
      (l.step source t r) := by
  cases r with
  | stray b => exact .error (.wrongChar _ h.place)
  | scalar c =>
      have hc : Placed.Alike R ⟨c, s.place⟩ ⟨c, t.place⟩ := ⟨rfl, h.place⟩
      refine (modeStep_alike h.mode hc).bind fun x y hxy ↦ ?_
      refine .ok ⟨hR _ _ c h.place, hxy.1, List.rel_append ?_ h.tokens⟩
      exact List.forall₂_reverse_iff.mpr hxy.2

/-- The same runes lead from alike states to alike ones. -/
theorem run_alike (hR : Place.Kept R) (h : s.Alike R t) (runes : List Rune) :
    Except.Alike (LexicalError.Alike R) (ScanState.Alike R) (l.run source s runes)
      (l.run source t runes) := by
  induction runes generalizing s t with
  | nil => exact .ok h
  | cons r runes ih =>
      rw [run, run, List.foldlM_cons, List.foldlM_cons]
      exact (step_alike hR h r).bind fun s' t' h' ↦ ih h'

/-- Alike states end alike. -/
theorem finish_alike (h : s.Alike R t) :
    Except.Alike (LexicalError.Alike R) (List.Forall₂ (Token.Alike R)) (l.finish source s)
      (l.finish source t) := by
  obtain ⟨place, mode, tokens⟩ := s
  obtain ⟨place', mode', tokens'⟩ := t
  obtain ⟨-, hmode, htokens⟩ := h
  have htokens' := List.forall₂_reverse_iff.mpr htokens
  cases hmode with
  | plain hpending => exact .ok (List.rel_append htokens' (flush_alike hpending))
  | literal body hopening =>
      simp only [finish, hopening.char]
      exact .error (.unterminatedString _ hopening.place)
  | lineComment => exact .ok htokens'
  | blockComment star hopening => exact .error (.unterminatedComment hopening)

/-- The same runes have alike tokens from alike states on. -/
theorem runToEnd_alike (hR : Place.Kept R) (h : s.Alike R t) (runes : List Rune) :
    Except.Alike (LexicalError.Alike R) (List.Forall₂ (Token.Alike R)) (l.runToEnd source s runes)
      (l.runToEnd source t runes) :=
  (run_alike hR h runes).bind fun _ _ ↦ finish_alike

end Steps

section Lines

variable {l : Lexer} {source : Text} {state : ScanState} {ts : List Token}

/-- The tokens that are already there come before those of the runes to come. -/
theorem runToEnd_eq_map (place : Place) (mode : ScanMode) (tokens : List Token)
    (runes : List Rune) :
    l.runToEnd source ⟨place, mode, tokens⟩ runes =
      (l.runToEnd source ⟨place, mode, []⟩ runes).map (tokens.reverse ++ ·) := by
  induction runes generalizing place mode tokens with
  | nil => exact finish_eq place mode tokens
  | cons r runes ih =>
      cases r with
      | stray b =>
          rw [runToEnd_error rfl, runToEnd_error rfl]
          rfl
      | scalar c =>
          cases hstep : l.modeStep source mode ⟨c, place⟩ with
          | error e =>
              have hfail (tokens : List Token) :
                  l.step source ⟨place, mode, tokens⟩ (.scalar c) = .error e := by
                simp [step, hstep, bind, Except.bind]
              rw [runToEnd_error (hfail _), runToEnd_error (hfail _)]
              rfl
          | ok out =>
              rw [runToEnd_cons hstep, runToEnd_cons hstep, ih, ih _ _ (out.2.reverse ++ [])]
              cases l.runToEnd source ⟨place.advance c, out.1, []⟩ runes <;> simp [Except.map]

/-- A separator outside literals and comments completes the word before it. -/
theorem modeStep_separator {c : Char} (hc : c = ' ' ∨ c = '\n') (hword : l.isWordChar c = false)
    (hsymbol : l.isSymbol c = false) (pending : List Placed) (place : Place) :
    l.modeStep source (.plain pending) ⟨c, place⟩ = .ok (.plain [], l.flush source pending) := by
  have hslash : c ≠ '/' := by
    rintro rfl
    revert hc
    decide
  have hstar : c ≠ '*' := by
    rintro rfl
    revert hc
    decide
  simp [modeStep, plainStep, charStep, hword, hsymbol, hslash, hstar, hc]

/-- A line break completes what the end of the text would complete, and leaves nothing behind. -/
theorem runToEnd_newline (hword : l.isWordChar '\n' = false) (hsymbol : l.isSymbol '\n' = false)
    (h : l.finish source state = .ok ts) (runes : List Rune) :
    l.runToEnd source state (.scalar '\n' :: runes) =
      l.runToEnd source ⟨state.place.advance '\n', .plain [], ts.reverse⟩ runes := by
  obtain ⟨place, mode, tokens⟩ := state
  cases mode with
  | plain pending =>
      cases h
      rw [runToEnd_cons (modeStep_separator (.inr rfl) hword hsymbol pending place),
        List.reverse_append, List.reverse_reverse]
  | lineComment =>
      have hstep : l.modeStep source .lineComment ⟨'\n', place⟩ = .ok (.plain [], []) := rfl
      cases h
      rw [runToEnd_cons hstep, List.reverse_reverse]
      rfl
  | literal opening body => cases h
  | blockComment opening star => cases h

/-- A text behind one that is read is scanned from the state behind that one on. -/
theorem scan_append {before : Text} (h : l.run source initial (Utf8.decode before) = .ok state)
    (cs : List Char) (behind : Text) :
    l.scan ⟨source, before ++ (Utf8.encodeAll cs ++ behind)⟩ =
      l.runToEnd source state (cs.map .scalar ++ Utf8.decode behind) := by
  obtain ⟨read, rfl⟩ := Utf8.exists_encodeAll_of_no_stray (no_stray_of_run h)
  rw [Utf8.decode_encodeAll] at h
  rw [scan, Utf8.decode_encodeAll_append, Utf8.decode_encodeAll_append, run, List.foldlM_append,
    bind_assoc, ← run, h]
  rfl

end Lines

end Lexer

/-- The position on the lines below a source. -/
def Pos.below (s : Source) (p : Pos) : Pos :=
  ⟨p.line + s.numLines, p.col⟩

/-- The place on the lines below a source, which a line break ends. -/
def Place.below (s : Source) (p : Place) : Place :=
  ⟨p.offset + (s.size + 1), p.pos.below s⟩

/-- The token on the lines below a source. -/
def Token.below (s : Source) (t : Token) : Token :=
  { t with offset := t.offset + (s.size + 1), pos := t.pos.below s }

/-- Characters lead to places below as they do alone. -/
theorem Place.kept_below (s : Source) : Place.Kept fun p q ↦ q = p.below s := by
  intro p q c hq
  subst hq
  unfold below advance Pos.below
  by_cases hc : c = '\n'
  · simp only [if_pos hc, mk.injEq, Pos.mk.injEq, and_true]
    omega
  · simp only [if_neg hc, mk.injEq, and_true]
    omega

/-- The place behind a source and a line break is the first one below. -/
theorem Place.advance_behind {s : Source} {cs : List Char} (h : s.content = Utf8.encodeAll cs) :
    (Place.behind cs).advance '\n' = start.below s := by
  have hlines : s.numLines = cs.count '\n' + 1 := by
    rw [Source.numLines, Source.lineStarts_eq, h, List.length_cons, Source.length_startsFrom,
      count_newline_encodeAll]
  have hsize : s.size = (Utf8.encodeAll cs).length := congrArg List.length h
  have hbreak : (Utf8.encode '\n').length = 1 := rfl
  simp only [behind, advance, below, Pos.below, start, hlines, hsize, hbreak, if_true, mk.injEq,
    Pos.mk.injEq, and_true]
  omega

/-- The same token below is that token, moved down. -/
theorem Token.Alike.eq_below {s : Source} {t u : Token} (h : t.Alike (fun p q ↦ q = p.below s) u) :
    u = t.below s := by
  obtain ⟨kind, text, source, offset, pos⟩ := t
  obtain ⟨kind', text', source', offset', pos'⟩ := u
  obtain ⟨hkind, htext, hsource, hplace⟩ := h
  simp only [Token.place, Place.below, Place.mk.injEq] at hplace
  simp_all [Token.below]

/-- The same tokens below are those tokens, moved down. -/
theorem Token.eq_map_below {s : Source} {ts us : List Token}
    (h : List.Forall₂ (Token.Alike fun p q ↦ q = p.below s) ts us) :
    us = ts.map (Token.below s) := by
  induction h with
  | nil => rfl
  | cons ht _ ih => rw [List.map_cons, ih, ht.eq_below]

namespace Lexer

variable {l : Lexer} {s : Source} {ts : List Token}

/-- A text below a source is scanned as from the first place below on, behind the tokens of the
source. -/
theorem scan_append_newline (hword : l.isWordChar '\n' = false) (hsymbol : l.isSymbol '\n' = false)
    (h : l.scan s = .ok ts) (t : Text) :
    l.scan ⟨s.name, s.content ++ Text.newline :: t⟩ =
      (l.runToEnd s.name ⟨Place.start.below s, .plain [], []⟩ (Utf8.decode t)).map (ts ++ ·) := by
  obtain ⟨cs, hcs⟩ := exists_chars_of_scan h
  obtain ⟨last, hrun, hfinish⟩ := Except.bind_eq_ok_iff.mp h
  have hplace : last.place = .behind cs := by
    rw [hcs, Utf8.decode_encodeAll] at hrun
    exact (read_of_run hrun).place
  have hsplit : l.scan ⟨s.name, s.content ++ Text.newline :: t⟩ =
      l.runToEnd s.name last (.scalar '\n' :: Utf8.decode t) := scan_append hrun ['\n'] t
  rw [hsplit, runToEnd_newline hword hsymbol hfinish, hplace, Place.advance_behind hcs,
    runToEnd_eq_map, List.reverse_reverse]

end Lexer

namespace Lexicon

/-- A text behind a line break is scanned as it is alone, apart from its place: if the text before
the line break is scanned, and the line break is in no word and no symbol, then the tokens are those
of the one text and those of the other one moved down, or the error is that of the other text moved
down. -/
theorem scan_below (l : Lexicon) (hword : l.lexer.isWordChar '\n' = false)
    (hsymbol : l.lexer.isSymbol '\n' = false) {s : Source} {ts : List Token}
    (h : l.lexer.scan s = .ok ts) (t : Text) :
    (∀ us, l.lexer.scan ⟨s.name, t⟩ = .ok us →
      l.lexer.scan ⟨s.name, s.content ++ Text.newline :: t⟩ = .ok (ts ++ us.map (Token.below s))) ∧
    ∀ e, l.lexer.scan ⟨s.name, t⟩ = .error e →
      ∃ f, l.lexer.scan ⟨s.name, s.content ++ Text.newline :: t⟩ = .error f ∧
        (f.report s.name).code = (e.report s.name).code ∧
        (f.report s.name).text = (e.report s.name).text ∧
        (f.report s.name).pos = (e.report s.name).pos.below s := by
  have hstart : Lexer.initial.Alike (fun p q ↦ q = p.below s)
      ⟨Place.start.below s, .plain [], []⟩ := ⟨rfl, .plain .nil, .nil⟩
  have halike : Except.Alike _ _ (l.lexer.scan ⟨s.name, t⟩)
      (l.lexer.runToEnd s.name ⟨Place.start.below s, .plain [], []⟩ (Utf8.decode t)) :=
    Lexer.runToEnd_alike (Place.kept_below s) hstart (Utf8.decode t)
  rw [Lexer.scan_append_newline hword hsymbol h]
  constructor
  · intro us hus
    rw [hus] at halike
    generalize l.lexer.runToEnd s.name ⟨Place.start.below s, .plain [], []⟩ (Utf8.decode t) = out
      at halike ⊢
    cases halike with
    | ok htokens =>
        rw [Token.eq_map_below htokens]
        rfl
  · intro e he
    rw [he] at halike
    generalize l.lexer.runToEnd s.name ⟨Place.start.below s, .plain [], []⟩ (Utf8.decode t) = out
      at halike ⊢
    cases halike with
    | @error _ f herror =>
        obtain ⟨hcode, htext⟩ := herror.report_eq s.name
        obtain ⟨p, q, rfl, hp, hq⟩ := herror.exists_place s.name
        exact ⟨f, rfl, hcode.symm, htext.symm, by rw [hp, hq]; rfl⟩

/-- A line break ends a comment with a delimiter in it, and the word behind it is alone on the third
line. -/
theorem scan_below_comment :
    (Lexicon.mk [] [] (utf8 "\"") true true (some Char.isAlpha)).lexer.scan
        ⟨utf8 "in", utf8 "a\n//\"\nb"⟩ =
      .ok [⟨.word, utf8 "a", utf8 "in", 0, ⟨1, 1⟩⟩, ⟨.word, utf8 "b", utf8 "in", 6, ⟨3, 1⟩⟩] := by
  have hlexer : (Lexicon.mk [] [] (utf8 "\"") true true (some Char.isAlpha)).lexer =
      ⟨[], [], ['"'], true, true, Char.isAlpha⟩ := lexer_encodeAll _ [] ['"'] _ _ _
  have habove : (Lexicon.mk [] [] (utf8 "\"") true true (some Char.isAlpha)).lexer.scan
      ⟨utf8 "in", utf8 "a\n//\""⟩ = .ok [⟨.word, utf8 "a", utf8 "in", 0, ⟨1, 1⟩⟩] := by
    have hcs : utf8 "a\n//\"" = Utf8.encodeAll ['a', '\n', '/', '/', '"'] := rfl
    rw [hlexer, Lexer.scan_eq_tokensFrom _ hcs]
    rfl
  have hbelow : (Lexicon.mk [] [] (utf8 "\"") true true (some Char.isAlpha)).lexer.scan
      ⟨utf8 "in", utf8 "b"⟩ = .ok [⟨.word, utf8 "b", utf8 "in", 0, ⟨1, 1⟩⟩] := by
    have hcs : utf8 "b" = Utf8.encodeAll ['b'] := rfl
    rw [hlexer, Lexer.scan_eq_tokensFrom _ hcs]
    rfl
  exact (scan_below _ rfl (by rw [hlexer]; rfl) habove (utf8 "b")).1 _ hbelow

end Lexicon

end Tagfold
