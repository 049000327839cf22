import Tagfold.Proofs.Token.Comments
import Tagfold.Proofs.Token.Places

/-!
# Where literals and comments were opened

The scanner remembers little: in a comment only that it is in one, and outside of literals and
comments only the word so far. `Lexer.reached_of_reads` recovers from the characters read how it got
where it is. A literal or comment was entered behind characters that left the scanner outside of
both, and nothing since could end it; the last character of a word so far was collected behind
characters that left the scanner with the rest of the word.
-/

namespace Tagfold

namespace Lexer

/-- The scanner has read the characters and stands behind them, in a mode and with tokens newest
first. -/
def Reads (l : Lexer) (source : Text) (cs : List Char) (mode : ScanMode) (tokens : List Token) :
    Prop :=
  l.run source initial (cs.map .scalar) = .ok ⟨.behind cs, mode, tokens⟩

/-- Characters that lead the scanner from outside of literals and comments into one, which completes
the word that was pending before them. -/
structure Enters (l : Lexer) (source : Text) (before opener : List Char) (pending : List Placed)
    (mode : ScanMode) (earlier : List Token) : Prop where
  outside : l.Reads source before (.plain pending) earlier
  inside : l.Reads source (before ++ opener) mode ((l.flush source pending).reverse ++ earlier)

/-- How the scanner got where it is, having read the characters. -/
inductive Reached (l : Lexer) (source : Text) : List Char → ScanMode → List Token → Prop where
  | plain {cs : List Char} {pending : List Placed} {tokens : List Token} :
      (∀ last rest, pending = last :: rest → ∃ before gap, cs = before ++ last.char :: gap ∧
        (∀ c ∈ gap, l.role c = .ignorable) ∧ last.place = .behind before ∧
        l.Reads source before (.plain rest) tokens) →
      Reached l source cs (.plain pending) tokens
  | literal {before body : List Char} {d : Char} {pending : List Placed} {earlier : List Token} :
      l.Enters source before [d] pending (.literal ⟨d, .behind before⟩ []) earlier →
      l.isDelimiter d = true → Unclosed d body →
      Reached l source (before ++ d :: body) (.literal ⟨d, .behind before⟩ body.reverse)
        ((l.flush source pending).reverse ++ earlier)
  | lineComment {before gap body : List Char} {pending : List Placed} {earlier : List Token} :
      l.Enters source before ('/' :: (gap ++ ['/'])) pending .lineComment earlier →
      l.lineComments = true → (∀ c ∈ gap, l.role c = .ignorable) → '\n' ∉ body →
      Reached l source (before ++ '/' :: (gap ++ '/' :: body)) .lineComment
        ((l.flush source pending).reverse ++ earlier)
  | blockComment {before gap body : List Char} {pending : List Placed} {earlier : List Token} :
      l.Enters source before ('/' :: (gap ++ ['*'])) pending (.blockComment (.behind before) false)
        earlier →
      l.blockComments = true → (∀ c ∈ gap, l.role c = .ignorable) → ¬ ['*', '/'] <:+: body →
      Reached l source (before ++ '/' :: (gap ++ '*' :: body))
        (.blockComment (.behind before) (body.getLast? == some '*'))
        ((l.flush source pending).reverse ++ earlier)

variable {l : Lexer} {source : Text} {cs : List Char} {mode next : ScanMode} {c : Char}
  {tokens completed : List Token}

/-- Without a word so far there is nothing to tell. -/
theorem reached_outside (l : Lexer) (source : Text) (cs : List Char) (tokens : List Token) :
    l.Reached source cs (.plain []) tokens :=
  .plain nofun

/-- One more character is read. -/
theorem Reads.concat (h : l.Reads source cs mode tokens)
    (hstep : l.modeStep source mode ⟨c, .behind cs⟩ = .ok (next, completed)) :
    l.Reads source (cs ++ [c]) next (completed.reverse ++ tokens) := by
  rw [Reads, List.map_append, run, List.foldlM_append, ← run, h, Place.behind_concat]
  simp [step, hstep, bind, Except.bind, pure, Except.pure]

/-- A run that gets behind the characters reads them. -/
theorem reads_of_run {last : ScanState} (h : l.run source initial (cs.map .scalar) = .ok last) :
    l.Reads source cs last.mode last.tokens := by
  rw [Reads, ← (read_of_run h).place]
  exact h

/-- The last character was read behind the others. -/
theorem reads_concat_cases (h : l.Reads source (cs ++ [c]) next tokens) :
    ∃ mode earlier completed, l.Reads source cs mode earlier ∧
      l.modeStep source mode ⟨c, .behind cs⟩ = .ok (next, completed) ∧
      tokens = completed.reverse ++ earlier := by
  rw [Reads, List.map_append, run, List.foldlM_append, ← run] at h
  obtain ⟨state, hstate, hlast⟩ := Except.bind_eq_ok_iff.mp h
  obtain ⟨last, hstep, hnil⟩ := Except.bind_eq_ok_iff.mp hlast
  obtain ⟨⟨mode, completed⟩, hmode, hnext⟩ := Except.bind_eq_ok_iff.mp hstep
  obtain ⟨-, rfl, rfl⟩ := ScanState.mk.inj (Except.ok.inj (hnext.trans hnil))
  rw [(read_of_run hstate).place] at hmode
  exact ⟨state.mode, state.tokens, completed, reads_of_run hstate, hmode, rfl⟩

/-- No character is no delimiter. -/
theorem unclosed_nil (d : Char) : Unclosed d [] :=
  closes_nil.2

/-- How the scanner gets on from outside of literals and comments. -/
theorem Reached.concat_of_plain {pending : List Placed}
    (hreached : l.Reached source cs (.plain pending) tokens)
    (hreads : l.Reads source cs (.plain pending) tokens)
    (hstep : l.modeStep source (.plain pending) ⟨c, .behind cs⟩ = .ok (next, completed)) :
    l.Reached source (cs ++ [c]) next (completed.reverse ++ tokens) := by
  have hnext := hreads.concat hstep
  have hout : l.PlainOutcome source pending ⟨c, .behind cs⟩ (.ok (next, completed)) :=
    hstep ▸ l.plainStep_outcome source pending ⟨c, .behind cs⟩
  obtain ⟨hlast⟩ := hreached
  cases hout with
  | collected =>
      refine .plain fun last rest hpending ↦ ?_
      cases hpending
      exact ⟨cs, [], rfl, nofun, rfl, hreads⟩
  | dropped hrole =>
      refine .plain fun last rest hpending ↦ ?_
      obtain ⟨before, gap, rfl, hgap, hplace, hbefore⟩ := hlast last rest hpending
      refine ⟨before, gap ++ [c], by simp, ?_, hplace, hbefore⟩
      simpa [or_imp, forall_and] using ⟨hgap, hrole⟩
  | cut => exact reached_outside l source _ _
  | opened hdelimiter => exact .literal ⟨hreads, hnext⟩ hdelimiter (unclosed_nil c)
  | @lineComment slash _ hline hc hpending hslash =>
      obtain ⟨before, gap, rfl, hgap, -, hbefore⟩ := hlast _ _ hpending
      obtain rfl : c = '/' := hc
      have hcs : before ++ slash.char :: gap ++ ['/'] = before ++ '/' :: (gap ++ ['/']) := by
        rw [hslash]
        simp
      rw [hcs] at hnext ⊢
      exact .lineComment ⟨hbefore, hnext⟩ hline hgap List.not_mem_nil
  | @blockComment slash _ hblock hc hpending hslash =>
      obtain ⟨before, gap, rfl, hgap, hplace, hbefore⟩ := hlast _ _ hpending
      obtain rfl : c = '*' := hc
      have hcs : before ++ slash.char :: gap ++ ['*'] = before ++ '/' :: (gap ++ ['*']) := by
        rw [hslash]
        simp
      rw [hcs, hplace] at hnext
      rw [hcs, hplace]
      exact .blockComment ⟨hbefore, hnext⟩ hblock hgap (by simp)

/-- How the scanner gets on, by one character. -/
theorem Reached.concat (hreached : l.Reached source cs mode tokens)
    (hreads : l.Reads source cs mode tokens)
    (hstep : l.modeStep source mode ⟨c, .behind cs⟩ = .ok (next, completed)) :
    l.Reached source (cs ++ [c]) next (completed.reverse ++ tokens) := by
  cases hreached with
  | plain hlast => exact Reached.concat_of_plain (.plain hlast) hreads hstep
  | @literal before body d _ _ henters hdelimiter hbody =>
      simp only [modeStep] at hstep
      split at hstep
      · cases hstep
        exact reached_outside l source _ _
      · next hclose =>
          cases hstep
          have hopen : Unclosed d (body ++ [c]) := by
            refine hbody.concat fun hc ↦ ?_
            by_contra heven
            refine hclose ⟨hc, fun hescaped ↦ heven ?_⟩
            simpa using escaped_iff.mp hescaped
          have hreached : l.Reached source _ _ _ := .literal henters hdelimiter hopen
          simpa using hreached
  | @lineComment before gap body _ _ henters hline hgap hbody =>
      simp only [modeStep] at hstep
      cases hstep
      split
      · exact reached_outside l source _ _
      · next hc =>
          have hopen : '\n' ∉ body ++ [c] := by
            simpa [hbody] using Ne.symm hc
          have hreached : l.Reached source _ _ _ := .lineComment henters hline hgap hopen
          simpa using hreached
  | @blockComment before gap body _ _ henters hblock hgap hbody =>
      simp only [modeStep] at hstep
      split at hstep
      · cases hstep
        exact reached_outside l source _ _
      · next hclose =>
          cases hstep
          have hopen : ¬ ['*', '/'] <:+: body ++ [c] := by
            rw [closing_infix_concat_iff, not_or]
            refine ⟨hbody, ?_⟩
            rwa [beq_iff_eq] at hclose
          have hreached : l.Reached source _ _ _ := .blockComment henters hblock hgap hopen
          simpa using hreached

/-- How the scanner got where it is. -/
theorem reached_of_reads (h : l.Reads source cs mode tokens) : l.Reached source cs mode tokens := by
  induction cs using List.reverseRecOn generalizing mode tokens with
  | nil =>
      cases h
      exact reached_outside l source _ _
  | append_singleton cs c ih =>
      obtain ⟨mode, earlier, completed, hreads, hstep, rfl⟩ := reads_concat_cases h
      exact (ih hreads).concat hreads hstep

end Lexer

end Tagfold
