import Tagfold.Proofs.Token.Tiling
import Tagfold.Token.Buffered

/-!
# One buffer is enough

A scanner that cuts and reuses one buffer gives the same tokens and errors as one that keeps every
character with its place, and no index into the buffer and no cut of it is ever out of range. The
proof is a simulation: `BufferedScanner.Represents` relates the states of both, and
`BufferedScanner.step_follows` says that a rune keeps them related. What the buffer holds in each
mode, `BufferedScanner.Sound`, is then read off the other scanner. `Lexicon.buffered_sound` puts
this together for all lexicons and texts.
-/

namespace Tagfold

namespace BufferedScanner

section Checks

variable {cs before tail suffix body : List Char}

/-- An index below the length is in range. -/
theorem charAt_append_cons (before behind : List Char) (c : Char) :
    charAt (before ++ c :: behind) before.length = .ok c := by
  simp [charAt]

/-- A cut between two indices in order is in range, if the second one is no more than the length. -/
theorem slice_eq {first behind : Nat} (horder : first ≤ behind) (hrange : behind ≤ cs.length) :
    slice cs first behind = .ok ((cs.take behind).drop first) := by
  have hcut : (0 : Int) ≤ first ∧ (first : Int) ≤ behind ∧ (behind : Int) ≤ cs.length := by omega
  rw [slice, if_pos hcut, Int.toNat_natCast, Int.toNat_natCast]

/-- A condition and a check that is in range. -/
@[simp]
theorem checkIf_ok (condition check : Bool) :
    checkIf condition (.ok check) = .ok (condition && check) := by
  cases condition <;> rfl

/-- As many characters as there are to compare are compared in range. -/
theorem agreeFrom_eq (hlength : tail.length = suffix.length) :
    agreeFrom (before ++ tail) before.length suffix = .ok (tail == suffix) := by
  induction suffix generalizing before tail with
  | nil =>
      obtain rfl := List.length_eq_zero_iff.mp hlength
      rfl
  | cons c suffix ih =>
      obtain ⟨a, tail, rfl⟩ := List.exists_cons_of_length_eq_add_one hlength
      have hrest := @ih (before ++ [a]) tail (by simpa using hlength)
      rw [List.append_assoc, List.singleton_append, List.length_append,
        List.length_singleton] at hrest
      rw [agreeFrom, charAt_append_cons]
      by_cases hc : a = c
      · simp [bind, Except.bind, hc, ← hrest]
      · simp [bind, Except.bind, pure, Except.pure, hc]

/-- The end of the buffer is compared in range. -/
theorem endsWith_eq (suffix : List Char) (s : BufferedScanner) :
    s.endsWith suffix = .ok (decide (suffix <:+ s.buffer)) := by
  unfold endsWith
  split
  · next hshort =>
      have hnot : ¬ suffix <:+ s.buffer := by
        intro h
        have hle := h.length_le
        omega
      simp [hnot]
  · next hlong =>
      have hstart : (s.buffer.length : Int) - suffix.length =
          (s.buffer.length - suffix.length : Nat) := by omega
      have htail := @agreeFrom_eq [] (s.buffer.drop (s.buffer.length - suffix.length)) suffix
        (by rw [List.length_drop]; omega)
      rw [hstart, slice_eq (by omega) le_rfl, List.take_length]
      simp only [bind, Except.bind]
      rw [List.nil_append, List.length_nil] at htail
      rw [htail, beq_eq_decide]
      congr 1
      rw [decide_eq_decide, List.suffix_iff_eq_drop, eq_comm]

/-- Backslashes are counted in range, and not in front of the body. -/
theorem slashesUpTo_eq (opening : Char) (body behind : List Char) :
    slashesUpTo (opening :: (body ++ behind)) body.length =
      .ok (body.reverse.takeWhile (· == '\\')).length := by
  -- By induction from the right, as the count goes down. What stands behind it only grows.
  induction body using List.reverseRecOn generalizing behind with
  | nil => rfl
  | append_singleton body c ih =>
      have hchar : charAt (opening :: (body ++ [c] ++ behind)) (body.length + 1) = .ok c := by
        have hat := charAt_append_cons (opening :: body) behind c
        simpa using hat
      have hbefore := ih (c :: behind)
      rw [List.append_cons] at hbefore
      rw [List.length_append, List.length_singleton, slashesUpTo, hchar]
      by_cases hc : c = '\\'
      · simp only [bind, Except.bind, pure, Except.pure, if_pos hc, hbefore]
        simp [hc]
      · simp only [bind, Except.bind, pure, Except.pure, if_neg hc]
        simp [hc]

/-- In a literal the scanner counts the backslashes between the delimiter and the last character. -/
theorem escaped_eq {s : BufferedScanner} {opening c : Char} {body : List Char}
    (h : s.buffer = opening :: (body.reverse ++ [c])) : s.escaped = .ok (Lexer.escaped body) := by
  have hlength : s.buffer.length - 2 = body.reverse.length := by simp [h]
  rw [escaped, hlength, h, slashesUpTo_eq, List.reverse_reverse]
  rfl

end Checks

/-- The buffer has the collected characters, and starts where the first one of them stands. -/
structure Holds (pending : List Placed) (buffer : List Char) (start : Place) : Prop where
  chars : buffer = pending.reverse.map Placed.char
  first : ∀ c ∈ pending.getLast?, start = c.place

/-- The buffered scanner is where the scanner is that keeps its characters with their places. -/
inductive Represents : BufferedScanner → ScanState → Prop where
  | plain {pending : List Placed} {buffer : List Char} {start : Place} {last : Pos} (comment : Pos)
      (place : Place) (tokens : List Token) :
      Holds pending buffer start → (∀ c ∈ pending.head?, last = c.place.pos) →
      Represents ⟨.plain, buffer, start, last, comment, place, tokens⟩
        ⟨place, .plain pending, tokens⟩
  | literal (opening : Placed) (body : List Char) (last comment : Pos) (place : Place)
      (tokens : List Token) :
      Represents
        ⟨.literal, opening.char :: body.reverse, opening.place, last, comment, place, tokens⟩
        ⟨place, .literal opening body, tokens⟩
  | lineComment (start : Place) (last comment : Pos) (place : Place) (tokens : List Token) :
      Represents ⟨.lineComment, [], start, last, comment, place, tokens⟩
        ⟨place, .lineComment, tokens⟩
  | blockComment {buffer : List Char} (start : Place) (last : Pos) (opening place : Place)
      (tokens : List Token) :
      buffer.length ≤ 1 →
      Represents ⟨.blockComment, buffer, start, last, opening.pos, place, tokens⟩
        ⟨place, .blockComment opening (buffer == ['*']), tokens⟩

/-- The outcome of the buffered scanner is that of the other one, and no fault of the buffer. -/
inductive Follows : Except ScanFault BufferedScanner → Except LexicalError ScanState → Prop where
  | ok {s : BufferedScanner} {t : ScanState} : s.Represents t → Follows (.ok s) (.ok t)
  | error (e : LexicalError) : Follows (.error (.lexical e)) (.error e)

section Words

variable {l : Lexer} {source : Text} {pending before dropped : List Placed} {mode : BufferMode}
  {buffer : List Char} {start : Place} {last comment : Pos} {place : Place} {tokens : List Token}

/-- Without collected characters, the buffer is empty. -/
theorem holds_nil (start : Place) : Holds [] [] start :=
  ⟨rfl, nofun⟩

/-- One more character is collected. -/
theorem Holds.push (h : Holds pending buffer start) (c : Placed) :
    Holds (c :: pending) (buffer ++ [c.char]) (if buffer.isEmpty then c.place else start) := by
  refine ⟨by simp [h.chars], fun first hfirst ↦ ?_⟩
  cases pending with
  | nil =>
      obtain rfl : c = first := Option.some.inj hfirst
      simp [h.chars]
  | cons a rest =>
      have hne : buffer ≠ [] := by simp [h.chars]
      rw [List.getLast?_cons_cons] at hfirst
      rw [List.isEmpty_eq_false_iff.mpr hne, if_neg (by simp)]
      exact h.first first hfirst

/-- The collected characters before some that are dropped. -/
theorem Holds.take (h : Holds (dropped ++ before) buffer start) :
    Holds before (buffer.take (buffer.length - dropped.length)) start := by
  constructor
  · rw [h.chars, List.reverse_append, List.map_append]
    simp
  · intro first hfirst
    refine h.first first ?_
    rw [List.getLast?_append, Option.mem_def.mp hfirst]
    rfl

/-- Flushing completes the word of the collected characters. -/
theorem flush_eq (h : Holds pending buffer start) :
    flush l source ⟨mode, buffer, start, last, comment, place, tokens⟩ =
      ⟨mode, [], start, last, comment, place, (l.flush source pending).reverse ++ tokens⟩ := by
  cases hfirst : pending.getLast? with
  | none =>
      obtain rfl := List.getLast?_eq_none_iff.mp hfirst
      obtain rfl : buffer = [] := h.chars
      rfl
  | some first =>
      obtain rfl : start = first.place := h.first first hfirst
      have hne : pending ≠ [] := by
        rintro rfl
        cases hfirst
      obtain rfl : buffer = pending.reverse.map Placed.char := h.chars
      simp [flush, Lexer.flush, hfirst, hne, emit]

/-- Characters that are dropped were in the buffer, and the word before them is completed. -/
theorem flushBefore_eq (dropped : List Placed) (h : Holds (dropped ++ before) buffer start) :
    flushBefore l source dropped.length ⟨mode, buffer, start, last, comment, place, tokens⟩ =
      .ok ⟨mode, [], start, last, comment, place, (l.flush source before).reverse ++ tokens⟩ := by
  have hlength : dropped.length ≤ buffer.length := by simp [h.chars]
  have hcut : (buffer.length : Int) - dropped.length = (buffer.length - dropped.length : Nat) := by
    omega
  have hslice : slice buffer 0 (buffer.length - dropped.length : Nat) =
      .ok (buffer.take (buffer.length - dropped.length)) :=
    slice_eq (Nat.zero_le _) (Nat.sub_le _ _)
  simp only [flushBefore, hcut, hslice, bind, Except.bind, pure, Except.pure]
  rw [flush_eq h.take]

/-- The buffer ends with a slash exactly if the last collected character is one. -/
theorem openSlash?_isSome (h : Holds pending buffer start) :
    (Lexer.openSlash? pending).isSome = decide (['/'] <:+ buffer) := by
  rw [h.chars]
  cases pending with
  | nil => rfl
  | cons c rest =>
      rw [List.reverse_cons, List.map_append, List.map_singleton, Lexer.openSlash?]
      by_cases hc : c.char = '/' <;>
        simp [hc, List.singleton_suffix_append_singleton_iff, Ne.symm]

end Words

section Steps

variable {l : Lexer} {source : Text} {pending : List Placed} {s : BufferedScanner} {t : ScanState}
  {buffer : List Char} {start : Place} {last comment : Pos} {place : Place} {tokens : List Token}

/-- The scanner behind a character, standing where it was: in the mode that the character leads to,
with the tokens that it completes. -/
def moved (t : ScanState) (out : ScanMode × List Token) : ScanState :=
  ⟨t.place, out.1, out.2.reverse ++ t.tokens⟩

/-- Outside of literals and comments, without collected characters. -/
theorem represents_outside (start : Place) (last comment : Pos) (place : Place)
    (tokens : List Token) :
    Represents ⟨.plain, [], start, last, comment, place, tokens⟩ ⟨place, .plain [], tokens⟩ :=
  .plain comment place tokens (holds_nil start) nofun

/-- What is pushed is at the end of the buffer. -/
@[simp]
theorem push_buffer (c : Char) (s : BufferedScanner) : (s.push c).buffer = s.buffer ++ [c] :=
  rfl

/-- A character that is collected. -/
theorem push_represents (h : Holds pending buffer start) (c : Char) :
    Represents (push c ⟨.plain, buffer, start, last, comment, place, tokens⟩)
      ⟨place, .plain (⟨c, place⟩ :: pending), tokens⟩ := by
  refine .plain comment place tokens (h.push ⟨c, place⟩) fun a ha ↦ ?_
  obtain rfl : (⟨c, place⟩ : Placed) = a := Option.some.inj ha
  rfl

/-- A character that neither belongs to a word nor opens a comment has the same outcome. -/
theorem charStep_follows (h : Holds pending buffer start)
    (hlast : ∀ c ∈ pending.head?, last = c.place.pos) (c : Char) :
    Follows (charStep l source c ⟨.plain, buffer, start, last, comment, place, tokens⟩)
      ((l.charStep source pending ⟨c, place⟩).map (moved ⟨place, .plain pending, tokens⟩)) := by
  unfold charStep Lexer.charStep
  simp only [flush_eq h]
  split
  · refine .ok ?_
    split
    · simpa [moved, emit] using represents_outside start last comment place _
    · simpa [moved] using represents_outside start last comment place _
  · split
    · exact .ok (.plain comment place tokens h hlast)
    · split
      · exact .ok (.literal ⟨c, place⟩ [] _ _ _ _)
      · split
        · exact .ok (push_represents h c)
        · exact .error _

/-- A slash has the same outcome where comments are on. -/
theorem slashStep_follows (h : Holds pending buffer start) (hword : l.isWordChar '/' = false)
    (hcomments : l.lineComments = true ∨ l.blockComments = true) :
    Follows (slashStep l source ⟨.plain, buffer, start, last, comment, place, tokens⟩)
      ((l.modeStep source (.plain pending) ⟨'/', place⟩).map
        (moved ⟨place, .plain pending, tokens⟩)) := by
  have hends : (['/', '/'] <:+ buffer ++ ['/']) ↔ ['/'] <:+ buffer :=
    @List.suffix_append_self_iff _ ['/'] buffer ['/']
  simp only [slashStep, endsWith_eq, checkIf_ok, push_buffer, hends, ← openSlash?_isSome h, bind,
    Except.bind]
  by_cases hopens : l.lineComments = true ∧ (Lexer.openSlash? pending).isSome = true
  · obtain ⟨hline, hopen⟩ := hopens
    obtain ⟨⟨slash, before⟩, hopen⟩ := Option.isSome_iff_exists.mp hopen
    obtain ⟨rfl, -⟩ := Lexer.eq_cons_of_openSlash? hopen
    have hcut : flushBefore l source 2
        (push '/' ⟨.plain, buffer, start, last, comment, place, tokens⟩) = _ :=
      flushBefore_eq [⟨'/', place⟩, slash] (h.push ⟨'/', place⟩)
    simp only [hline, hopen, hcut, Lexer.modeStep_opens_lineComment hword hline hopen]
    show Follows _ (.ok ⟨place, .lineComment, (l.flush source before).reverse ++ tokens⟩)
    exact .ok (.lineComment _ _ _ _ _)
  · have hpending : l.lineComments = true → Lexer.openSlash? pending = none := by
      simpa using hopens
    rw [← Bool.and_eq_true] at hopens
    rw [if_neg hopens, Lexer.modeStep_slash hword hcomments hpending]
    exact .ok (push_represents h '/')

/-- A star behind a slash has the same outcome where block comments are on. -/
theorem openBlockComment_follows (h : Holds pending buffer start)
    (hlast : ∀ c ∈ pending.head?, last = c.place.pos) (hword : l.isWordChar '*' = false)
    (hblock : l.blockComments = true) (hopen : (Lexer.openSlash? pending).isSome = true) :
    Follows (openBlockComment l source ⟨.plain, buffer, start, last, comment, place, tokens⟩)
      ((l.modeStep source (.plain pending) ⟨'*', place⟩).map
        (moved ⟨place, .plain pending, tokens⟩)) := by
  obtain ⟨⟨slash, before⟩, hopen⟩ := Option.isSome_iff_exists.mp hopen
  obtain ⟨rfl, -⟩ := Lexer.eq_cons_of_openSlash? hopen
  obtain rfl : last = slash.place.pos := hlast slash rfl
  have hcut : flushBefore l source 1
      ⟨.plain, buffer, start, slash.place.pos, comment, place, tokens⟩ = _ :=
    flushBefore_eq [slash] h
  rw [openBlockComment, hcut, Lexer.modeStep_opens_blockComment hword hblock hopen]
  show Follows _ (.ok ⟨place, .blockComment slash.place ([] == ['*']),
    (l.flush source before).reverse ++ tokens⟩)
  exact .ok (.blockComment _ _ slash.place place _ (Nat.zero_le 1))

/-- A character outside literals and comments has the same outcome. -/
theorem plainStep_follows (h : Holds pending buffer start)
    (hlast : ∀ c ∈ pending.head?, last = c.place.pos) (c : Char) :
    Follows (plainStep l source c ⟨.plain, buffer, start, last, comment, place, tokens⟩)
      ((l.modeStep source (.plain pending) ⟨c, place⟩).map
        (moved ⟨place, .plain pending, tokens⟩)) := by
  by_cases hword : l.isWordChar c = true
  · simp only [plainStep, Lexer.modeStep, Lexer.plainStep, if_pos hword]
    exact .ok (push_represents h c)
  by_cases hcomments : c = '/' ∧ (l.lineComments = true ∨ l.blockComments = true)
  · rw [plainStep, if_neg hword, if_pos hcomments]
    obtain ⟨rfl, hcomments⟩ := hcomments
    exact slashStep_follows h (Bool.eq_false_iff.mpr hword) hcomments
  rw [plainStep, if_neg hword, if_neg hcomments, endsWith_eq, checkIf_ok, ← openSlash?_isSome h]
  by_cases hopens : (c = '*' ∧ l.blockComments = true) ∧ (Lexer.openSlash? pending).isSome = true
  · obtain ⟨⟨rfl, hblock⟩, hopen⟩ := hopens
    simp only [hblock, hopen]
    exact openBlockComment_follows h hlast (Bool.eq_false_iff.mpr hword) hblock hopen
  · have hstep : l.modeStep source (.plain pending) ⟨c, place⟩ =
        l.charStep source pending ⟨c, place⟩ := by
      simp only [Lexer.modeStep, Lexer.plainStep, if_neg hword, if_neg hcomments]
      split
      · next hstar =>
          have hopen : Lexer.openSlash? pending = none := by simpa [hstar] using hopens
          rw [hopen]
      · rfl
    have hclosed : ¬ (c == '*' && l.blockComments && (Lexer.openSlash? pending).isSome) = true := by
      simpa [and_assoc] using hopens
    simp only [bind, Except.bind]
    rw [if_neg hclosed, hstep]
    exact charStep_follows h hlast c

/-- A character in a literal has the same outcome. -/
theorem literalStep_follows (opening : Placed) (body : List Char) (c : Char) :
    Follows (literalStep source c
        ⟨.literal, opening.char :: body.reverse, opening.place, last, comment, place, tokens⟩)
      ((l.modeStep source (.literal opening body) ⟨c, place⟩).map
        (moved ⟨place, .literal opening body, tokens⟩)) := by
  have hescaped : escaped (push c
      ⟨.literal, opening.char :: body.reverse, opening.place, last, comment, place, tokens⟩) =
        .ok (Lexer.escaped body) := escaped_eq rfl
  have hopening : charAt (opening.char :: body.reverse ++ [c]) 0 = .ok opening.char := rfl
  simp only [literalStep, push_buffer, hopening, hescaped, bind, Except.bind, pure, Except.pure,
    checkIf_ok, Lexer.modeStep]
  by_cases hclose : c = opening.char ∧ ¬ Lexer.escaped body = true
  · have hend : (c == opening.char && !Lexer.escaped body) = true := by simpa using hclose
    rw [if_pos hend, if_pos hclose]
    exact .ok (represents_outside _ _ _ _ _)
  · have hgoes : ¬ (c == opening.char && !Lexer.escaped body) = true := by simpa using hclose
    rw [if_neg hgoes, if_neg hclose]
    have hnext := Represents.literal opening (c :: body) place.pos comment place tokens
    rw [List.reverse_cons] at hnext
    exact .ok hnext

/-- A character in a block comment has the same outcome. -/
theorem blockCommentStep_follows (hshort : buffer.length ≤ 1) (opening : Place) (c : Char) :
    Follows (blockCommentStep c ⟨.blockComment, buffer, start, last, opening.pos, place, tokens⟩)
      ((l.modeStep source (.blockComment opening (buffer == ['*'])) ⟨c, place⟩).map
        (moved ⟨place, .blockComment opening (buffer == ['*']), tokens⟩)) := by
  have hstar : ([c] == ['*']) = (c == '*') := by simp [beq_eq_decide]
  have hkept : Represents ⟨.blockComment, [c], start, last, opening.pos, place, tokens⟩
      ⟨place, .blockComment opening (c == '*'), tokens⟩ := by
    rw [← hstar]
    exact .blockComment start last opening place tokens le_rfl
  obtain rfl | ⟨a, rfl⟩ : buffer = [] ∨ ∃ a, buffer = [a] := by
    rw [← List.length_eq_zero_iff, ← List.length_eq_one_iff]
    omega
  · show Follows (.ok ⟨.blockComment, [c], start, last, opening.pos, place, tokens⟩)
      (.ok ⟨place, .blockComment opening (c == '*'), tokens⟩)
    exact .ok hkept
  · by_cases hclose : a = '*' ∧ c = '/'
    · obtain ⟨rfl, rfl⟩ := hclose
      show Follows (.ok ⟨.plain, [], start, last, opening.pos, place, tokens⟩)
        (.ok ⟨place, .plain [], tokens⟩)
      exact .ok (represents_outside start last opening.pos place tokens)
    · have hends : ¬ ['*', '/'] <:+ [a] ++ [c] := by
        rw [List.suffix_iff_eq_drop]
        simpa [eq_comm] using hclose
      have hgoes : ¬ (([a] == ['*']) = true ∧ c = '/') := by simpa using hclose
      simp only [blockCommentStep, endsWith_eq, hends, Lexer.modeStep, if_neg hgoes]
      exact .ok hkept

/-- A character has the same outcome. -/
theorem modeStep_follows (l : Lexer) (source : Text) (h : s.Represents t) (c : Char) :
    Follows (s.modeStep l source c) ((l.modeStep source t.mode ⟨c, t.place⟩).map (moved t)) := by
  cases h with
  | plain _ _ _ hholds hlast => exact plainStep_follows hholds hlast c
  | literal opening body => exact literalStep_follows opening body c
  | lineComment =>
      simp only [modeStep, Lexer.modeStep]
      split
      · exact .ok (represents_outside _ _ _ _ _)
      · exact .ok (.lineComment _ _ _ _ _)
  | blockComment _ _ opening _ _ hshort => exact blockCommentStep_follows hshort opening c

/-- The scanners stand together behind a character. -/
theorem Represents.advance (h : s.Represents t) (p : Place) :
    Represents { s with place := p } ⟨p, t.mode, t.tokens⟩ := by
  cases h with
  | plain comment _ tokens hholds hlast => exact .plain comment p tokens hholds hlast
  | literal => exact .literal _ _ _ _ _ _
  | lineComment => exact .lineComment _ _ _ _ _
  | blockComment _ _ _ _ _ hshort => exact .blockComment _ _ _ _ _ hshort

/-- The scanners stand at the same place. -/
theorem Represents.place_eq (h : s.Represents t) : s.place = t.place := by
  cases h <;> rfl

/-- A rune has the same outcome. -/
theorem step_follows (l : Lexer) (source : Text) (h : s.Represents t) (r : Rune) :
    Follows (s.step l source r) (l.step source t r) := by
  cases r with
  | stray b =>
      rw [step, h.place_eq]
      exact .error _
  | scalar c =>
      have hmode := modeStep_follows l source h c
      simp only [step, Lexer.step, bind, Except.bind, pure, Except.pure]
      cases hout : l.modeStep source t.mode ⟨c, t.place⟩ with
      | error e =>
          rw [hout] at hmode
          generalize s.modeStep l source c = taken at hmode
          cases hmode
          exact .error e
      | ok out =>
          rw [hout] at hmode
          generalize s.modeStep l source c = taken at hmode
          cases hmode with
          | ok hnext =>
              have hplace : _ = t.place := hnext.place_eq
              simp only [hplace]
              exact .ok (hnext.advance (t.place.advance c))

/-- Any runes have the same outcome. -/
theorem run_follows (l : Lexer) (source : Text) (h : s.Represents t) (runes : List Rune) :
    Follows (run l source s runes) (l.run source t runes) := by
  induction runes generalizing s t with
  | nil => exact .ok h
  | cons r runes ih =>
      have hstep := step_follows l source h r
      rw [run, Lexer.run, List.foldlM_cons, List.foldlM_cons]
      generalize s.step l source r = next, l.step source t r = next' at hstep
      cases hstep with
      | ok hnext => exact ih hnext
      | error e => exact .error e

/-- The end of a text has the same outcome. -/
theorem finish_eq (h : s.Represents t) :
    s.finish l source = (l.finish source t).mapError .lexical := by
  cases h with
  | plain comment place tokens hholds =>
      simp [finish, flush_eq hholds, Lexer.finish, Except.mapError]
  | literal => rfl
  | lineComment => rfl
  | blockComment => rfl

/-- One buffer is enough. -/
theorem scan_eq (l : Lexer) (s : Source) : scan l s = (l.scan s).mapError .lexical := by
  have hinitial : initial.Represents Lexer.initial := represents_outside _ _ _ _ _
  have hrun := run_follows l s.name hinitial (Utf8.decode s.content)
  rw [scan, Lexer.scan]
  generalize run l s.name initial (Utf8.decode s.content) = last,
    l.run s.name Lexer.initial (Utf8.decode s.content) = last' at hrun
  cases hrun with
  | ok hlast => exact finish_eq hlast
  | error e => rfl

end Steps

/-- The buffer of a word: what was read from its first character on, without what is ignorable. It
is remembered where its first and its last character stand. -/
structure HoldsWord (l : Lexer) (cs : List Char) (s : BufferedScanner) : Prop where
  first : ∃ before c rest, cs = before ++ c :: rest ∧
    s.buffer = c :: rest.filter (l.role · ≠ .ignorable) ∧ s.start = .behind before
  last : ∃ before c gap, cs = before ++ c :: gap ∧ (∀ a ∈ gap, l.role a = .ignorable) ∧
    s.buffer.getLast? = some c ∧ s.last = (Place.behind before).pos

/-- What the buffer holds behind the characters. In a literal it is what was read from the
delimiter on. -/
def Sound (l : Lexer) (cs : List Char) (s : BufferedScanner) : Prop :=
  match s.mode with
  | .plain => s.buffer ≠ [] → s.HoldsWord l cs
  | .literal => ∃ before d body, cs = before ++ d :: body ∧ s.buffer = d :: body ∧
      l.isDelimiter d = true ∧ s.start = .behind before
  | .lineComment => s.buffer = []
  | .blockComment => s.buffer.length ≤ 1

section Soundness

variable {l : Lexer} {source : Text} {cs : List Char} {s : BufferedScanner} {t : ScanState}

/-- A scanner without faults has a state behind the same characters. -/
theorem exists_represents (h : run l source initial (cs.map .scalar) = .ok s) :
    ∃ t, s.Represents t ∧ l.Reads source cs t.mode t.tokens := by
  have hinitial : initial.Represents Lexer.initial := represents_outside _ _ _ _ _
  have hrun := run_follows l source hinitial (cs.map .scalar)
  rw [h] at hrun
  generalize hlast : l.run source Lexer.initial (cs.map .scalar) = last at hrun
  cases hrun with
  | ok hs => exact ⟨_, hs, Lexer.reads_of_run hlast⟩

/-- The buffer of the characters of a word so far. -/
theorem Holds.holdsWord {pending : List Placed} {tokens : List Token}
    (h : Holds pending s.buffer s.start) (hlast : ∀ c ∈ pending.head?, s.last = c.place.pos)
    (hreads : l.Reads source cs (.plain pending) tokens) (hne : s.buffer ≠ []) :
    s.HoldsWord l cs := by
  have hpending : pending ≠ [] := by
    rintro rfl
    exact hne h.chars
  constructor
  · obtain ⟨before, raw, rfl, -, hcollects⟩ := Lexer.laid_of_reads hreads
    obtain ⟨c, rest, rfl, hc, hfirst⟩ := hcollects.exists_first hpending
    refine ⟨before, c, rest, rfl, ?_, h.first _ hfirst⟩
    rw [h.chars, hcollects.map_char, List.filter_cons_of_pos]
    simpa using hc.role_ne_ignorable
  · obtain ⟨z, rest, rfl⟩ := List.exists_cons_of_ne_nil hpending
    cases Lexer.reached_of_reads hreads with
    | plain hcollected =>
        obtain ⟨before, gap, rfl, hgap, hplace, -⟩ := hcollected z rest rfl
        refine ⟨before, z.char, gap, rfl, hgap, ?_, ?_⟩
        · rw [h.chars]
          simp
        · rw [hlast z rfl, hplace]

/-- The buffer is sound behind any characters. -/
theorem sound_of_run (h : run l source initial (cs.map .scalar) = .ok s) : s.Sound l cs := by
  obtain ⟨t, hs, hreads⟩ := exists_represents h
  cases hs with
  | plain _ _ _ hholds hlast => exact fun hne ↦ Holds.holdsWord hholds hlast hreads hne
  | literal opening body =>
      obtain ⟨hdelimiter, before, hcs, hplace⟩ : _ ∧ _ := (Lexer.read_of_run hreads).mode
      exact ⟨before, opening.char, body.reverse, hcs, rfl, hdelimiter, hplace⟩
  | lineComment => rfl
  | blockComment _ _ _ _ _ hshort => exact hshort

/-- What another scanner also comes to is no fault of the buffer. -/
theorem Follows.ne_outOfRange {r : Except ScanFault BufferedScanner}
    {r' : Except LexicalError ScanState} (h : Follows r r') : r ≠ .error .outOfRange := by
  cases h <;> exact nofun

/-- An error of a text is no fault of the buffer. -/
theorem mapError_lexical_ne_outOfRange {α : Type} (r : Except LexicalError α) :
    r.mapError ScanFault.lexical ≠ .error .outOfRange := by
  cases r <;> exact nofun

end Soundness

end BufferedScanner

namespace Lexicon

/-- Behind any characters the buffer holds what fits to the mode of the scanner, and no rune that
may come next reaches out of its range. So no text does: scanning it with one buffer gives the
tokens or the error that scanning it gives. -/
theorem buffered_sound (l : Lexicon) (source : Text) :
    (∀ cs s, BufferedScanner.run l.lexer source .initial (cs.map .scalar) = .ok s →
      s.Sound l.lexer cs ∧ ∀ r, s.step l.lexer source r ≠ .error .outOfRange) ∧
    ∀ content, BufferedScanner.scan l.lexer ⟨source, content⟩ ≠ .error .outOfRange ∧
      BufferedScanner.scan l.lexer ⟨source, content⟩ =
        (l.lexer.scan ⟨source, content⟩).mapError .lexical := by
  constructor
  · intro cs s hrun
    obtain ⟨t, hs, -⟩ := BufferedScanner.exists_represents hrun
    exact ⟨BufferedScanner.sound_of_run hrun,
      fun r ↦ (BufferedScanner.step_follows _ _ hs r).ne_outOfRange⟩
  · intro content
    rw [BufferedScanner.scan_eq]
    exact ⟨BufferedScanner.mapError_lexical_ne_outOfRange _, rfl⟩

/-- A slash that is a symbol, a delimiter and the start of a comment is kept in the buffer behind a
word character, a tab between them is not, and the word starts behind a literal. A star comes next.
-/
theorem buffered_sound_slash :
    BufferedScanner.run (Lexicon.mk [] (utf8 "/") (utf8 "/\"") true true (some (· == 'é'))).lexer
        (utf8 "in") .initial (['"', '"', 'é', '\t', '/', '\r'].map .scalar) =
      .ok ⟨.plain, ['é', '/'], ⟨2, ⟨1, 3⟩⟩, ⟨1, 5⟩, ⟨0, 0⟩, ⟨7, ⟨1, 7⟩⟩,
        [⟨.string, utf8 "\"\"", utf8 "in", 0, ⟨1, 1⟩⟩]⟩ ∧
    BufferedScanner.HoldsWord
      (Lexicon.mk [] (utf8 "/") (utf8 "/\"") true true (some (· == 'é'))).lexer
      ['"', '"', 'é', '\t', '/', '\r'] ⟨.plain, ['é', '/'], ⟨2, ⟨1, 3⟩⟩, ⟨1, 5⟩, ⟨0, 0⟩,
        ⟨7, ⟨1, 7⟩⟩, [⟨.string, utf8 "\"\"", utf8 "in", 0, ⟨1, 1⟩⟩]⟩ ∧
    BufferedScanner.step (Lexicon.mk [] (utf8 "/") (utf8 "/\"") true true (some (· == 'é'))).lexer
        (utf8 "in") ⟨.plain, ['é', '/'], ⟨2, ⟨1, 3⟩⟩, ⟨1, 5⟩, ⟨0, 0⟩, ⟨7, ⟨1, 7⟩⟩,
          [⟨.string, utf8 "\"\"", utf8 "in", 0, ⟨1, 1⟩⟩]⟩ (.scalar '*') ≠ .error .outOfRange := by
  have hrun : BufferedScanner.run
      (Lexicon.mk [] (utf8 "/") (utf8 "/\"") true true (some (· == 'é'))).lexer (utf8 "in")
      .initial (['"', '"', 'é', '\t', '/', '\r'].map .scalar) =
        .ok ⟨.plain, ['é', '/'], ⟨2, ⟨1, 3⟩⟩, ⟨1, 5⟩, ⟨0, 0⟩, ⟨7, ⟨1, 7⟩⟩,
          [⟨.string, utf8 "\"\"", utf8 "in", 0, ⟨1, 1⟩⟩]⟩ := by
    have hlexer : (Lexicon.mk [] (utf8 "/") (utf8 "/\"") true true (some (· == 'é'))).lexer =
        ⟨[], ['/'], ['/', '"'], true, true, (· == 'é')⟩ :=
      lexer_encodeAll _ ['/'] ['/', '"'] _ _ _
    rw [hlexer]
    rfl
  obtain ⟨hsound, hstep⟩ := (buffered_sound _ _).1 _ _ hrun
  exact ⟨hrun, hsound (by simp), hstep (.scalar '*')⟩

end Lexicon

end Tagfold
