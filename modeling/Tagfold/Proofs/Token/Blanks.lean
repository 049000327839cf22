import Tagfold.Proofs.Token.Splitting

/-!
# Blank characters

Separators and ignorable characters are in no token. `Lexer.scan_eq_nil_iff` says that, without
comments, a text has no tokens exactly if all its characters are such. A separator ends the word
before it and an ignorable character does not, so that it matters which of the two stands behind a
word if the word goes on: `Lexer.runToEnd_flush` says that otherwise it does not.
-/

namespace Tagfold

/-- The character is in no token: it only separates them or is left out. -/
def Role.Blank (r : Role) : Prop := r = .separator ∨ r = .ignorable

namespace Lexer

variable {l : Lexer} {source : Text} {pieces : List Piece}

/-- Only four characters can be blank. -/
theorem mem_of_role_blank {c : Char} (h : (l.role c).Blank) : c ∈ [' ', '\n', '\t', '\r'] := by
  by_contra hother
  simp only [List.mem_cons, List.not_mem_nil, or_false, not_or] at hother
  simp only [Role.Blank, role, hother, or_self, if_false] at h
  split_ifs at h <;> simp at h

/-- A run without a token starts with a piece that is none. -/
theorem blank_of_runTokens {first : Piece} {rest : List Piece} (hbad : l.pieceRole first ≠ .bad)
    (h : l.runTokens source (first :: rest) = []) : (l.pieceRole first).Blank := by
  cases hrole : l.pieceRole first with
  | separator => exact .inl rfl
  | ignorable => exact .inr rfl
  | bad => exact absurd hrole hbad
  | word => simp [runTokens, hrole] at h
  | symbol => simp [runTokens, hrole] at h
  | delimiter => simp [runTokens, hrole] at h

/-- There are no tokens exactly if no piece is in a token. -/
theorem tokensOf_eq_nil_iff (hbad : ∀ p ∈ pieces, l.pieceRole p ≠ .bad) :
    l.tokensOf source pieces = [] ↔ ∀ p ∈ pieces, (l.pieceRole p).Blank := by
  constructor
  · intro hnil p hp
    by_cases hignorable : l.pieceRole p = .ignorable
    · exact .inr hignorable
    have hflat : p ∈ ((pieces.filter fun p ↦ l.pieceRole p != .ignorable).splitBy
        l.sameWord).flatten := by
      rw [List.flatten_splitBy]
      exact List.mem_filter.mpr ⟨hp, by simpa using hignorable⟩
    obtain ⟨run, hrun, hmem⟩ := List.mem_flatten.mp hflat
    have hrunNil : l.runTokens source run = [] := List.flatMap_eq_nil_iff.mp hnil run hrun
    have hchain := List.isChain_of_mem_splitBy hrun
    rcases run with _ | ⟨first, _ | ⟨second, rest⟩⟩
    · cases hmem
    · obtain rfl := List.mem_singleton.mp hmem
      exact blank_of_runTokens (hbad p hp) hrunNil
    · -- A run of two or more pieces is a word, which is a token.
      have hword : l.pieceRole first = .word := by
        have hsame := (List.isChain_cons_cons.mp hchain).1
        simp only [sameWord, Bool.and_eq_true, beq_iff_eq] at hsame
        exact hsame.1
      simp [runTokens, hword] at hrunNil
  · intro hblank
    rw [List.eq_nil_iff_forall_not_mem]
    intro t ht
    obtain ⟨first, rest, hfirst, ht⟩ := exists_run_of_mem ht
    rcases hblank first hfirst with hrole | hrole
    · simp [runTokens, hrole] at ht
    · simp [runTokens, hrole] at ht

/-- The characters of a text are blank if its pieces are. -/
theorem Splits.blank {before cs : List Char} (h : l.Splits before cs pieces)
    (hblank : ∀ p ∈ pieces, (l.pieceRole p).Blank) : ∀ c ∈ cs, (l.role c).Blank := by
  induction h with
  | nil => exact nofun
  | single _ _ _ ih =>
      obtain ⟨hc, hrest⟩ := List.forall_mem_cons.mp hblank
      exact List.forall_mem_cons.mpr ⟨hc, ih hrest⟩
  | literal _ _ _ _ =>
      rcases hblank _ List.mem_cons_self with h | h <;> cases h

/-- Blank characters are pieces of their own. -/
theorem exists_splits_of_blank {cs : List Char} (h : ∀ c ∈ cs, (l.role c).Blank)
    (before : List Char) :
    ∃ pieces, l.Splits before cs pieces ∧ ∀ p ∈ pieces, (l.pieceRole p).Blank := by
  induction cs generalizing before with
  | nil => exact ⟨[], .nil before, nofun⟩
  | cons c cs ih =>
      obtain ⟨hc, hcs⟩ := List.forall_mem_cons.mp h
      obtain ⟨pieces, hpieces, hblank⟩ := ih hcs (before ++ [c])
      refine ⟨_, .single ?_ ?_ hpieces, List.forall_mem_cons.mpr ⟨hc, hblank⟩⟩
      · rcases hc with hc | hc <;> simp [hc]
      · rcases hc with hc | hc <;> simp [hc]

/-- A text with a character that has no role does not split. -/
theorem Splits.not_bad {before cs : List Char} (h : l.Splits before cs pieces) :
    ∀ p ∈ pieces, l.pieceRole p ≠ .bad := by
  induction h with
  | nil => exact nofun
  | single _ hbad _ ih => exact List.forall_mem_cons.mpr ⟨hbad, ih⟩
  | literal _ _ _ ih => exact List.forall_mem_cons.mpr ⟨nofun, ih⟩

/-- A text has no tokens exactly if it is valid and its characters are in none. -/
theorem scan_eq_nil_iff (hline : l.lineComments = false) (hblock : l.blockComments = false)
    (s : Source) :
    l.scan s = .ok [] ↔
      ∃ cs, s.content = Utf8.encodeAll cs ∧ ∀ c ∈ cs, (l.role c).Blank := by
  rw [scan_iff_splits hline hblock]
  constructor
  · intro h
    obtain ⟨cs, pieces, hcs, hsplits, hnil⟩ := h
    exact ⟨cs, hcs, hsplits.blank ((tokensOf_eq_nil_iff hsplits.not_bad).mp hnil.symm)⟩
  · intro h
    obtain ⟨cs, hcs, hblank⟩ := h
    obtain ⟨pieces, hsplits, hpieces⟩ := exists_splits_of_blank hblank []
    exact ⟨cs, pieces, hcs, hsplits, ((tokensOf_eq_nil_iff hsplits.not_bad).mpr hpieces).symm⟩

section Words

variable {state : ScanState} {place : Place} {mode next : ScanMode} {tokens completed : List Token}

/-- The tokens of a text from a state on: those of the state, and those of the runes to come. -/
def runToEnd (l : Lexer) (source : Text) (state : ScanState) (runes : List Rune) :
    Except LexicalError (List Token) :=
  l.run source state runes >>= l.finish source

/-- A rune that cannot be taken ends the scan. -/
theorem runToEnd_error {r : Rune} {e : LexicalError} (h : l.step source state r = .error e)
    (runes : List Rune) : l.runToEnd source state (r :: runes) = .error e := by
  rw [runToEnd, run, List.foldlM_cons, h]
  rfl

/-- A character that is taken leads to the next state. -/
theorem runToEnd_cons {c : Char}
    (h : l.modeStep source mode ⟨c, place⟩ = .ok (next, completed)) (runes : List Rune) :
    l.runToEnd source ⟨place, mode, tokens⟩ (.scalar c :: runes) =
      l.runToEnd source ⟨place.advance c, next, completed.reverse ++ tokens⟩ runes := by
  have hstep : l.step source ⟨place, mode, tokens⟩ (.scalar c) =
      .ok ⟨place.advance c, next, completed.reverse ++ tokens⟩ := by
    simp [step, h, bind, Except.bind, pure, Except.pure]
  rw [runToEnd, run, List.foldlM_cons, hstep]
  rfl

/-- Two texts with the same first rune have the same tokens if they have them behind it. -/
theorem runToEnd_congr {runes runes' : List Rune} (r : Rune)
    (h : ∀ c next completed, r = .scalar c →
      l.modeStep source mode ⟨c, place⟩ = .ok (next, completed) →
      l.runToEnd source ⟨place.advance c, next, completed.reverse ++ tokens⟩ runes =
        l.runToEnd source ⟨place.advance c, next, completed.reverse ++ tokens⟩ runes') :
    l.runToEnd source ⟨place, mode, tokens⟩ (r :: runes) =
      l.runToEnd source ⟨place, mode, tokens⟩ (r :: runes') := by
  cases r with
  | stray b => rw [runToEnd_error rfl, runToEnd_error rfl]
  | scalar c =>
      cases hstep : l.modeStep source mode ⟨c, place⟩ with
      | error e =>
          have hfail : l.step source ⟨place, mode, tokens⟩ (.scalar c) = .error e := by
            simp [step, hstep, bind, Except.bind]
          rw [runToEnd_error hfail, runToEnd_error hfail]
      | ok out =>
          obtain ⟨next, completed⟩ := out
          rw [runToEnd_cons hstep, runToEnd_cons hstep]
          exact h c next completed rfl hstep

/-- A character of words comes next, maybe behind ignorable ones. -/
def wordGoesOn (l : Lexer) : List Rune → Bool
  | [] => false
  | .stray _ :: _ => false
  | .scalar c :: rest =>
    match l.role c with
    | .word => true
    | .ignorable => wordGoesOn l rest
    | _ => false

/-- Without comments, a word that does not go on may as well be ended at once. -/
theorem runToEnd_flush (hline : l.lineComments = false) (hblock : l.blockComments = false)
    {runes : List Rune} (h : l.wordGoesOn runes = false) (place : Place) (pending : List Placed)
    (tokens : List Token) :
    l.runToEnd source ⟨place, .plain pending, tokens⟩ runes =
      l.runToEnd source ⟨place, .plain [], (l.flush source pending).reverse ++ tokens⟩ runes := by
  induction runes generalizing place with
  | nil =>
      show Except.ok (tokens.reverse ++ l.flush source pending) =
        .ok (((l.flush source pending).reverse ++ tokens).reverse ++ l.flush source [])
      simp [flush]
  | cons r runes ih =>
      cases r with
      | stray b => rw [runToEnd_error rfl, runToEnd_error rfl]
      | scalar c =>
          have hlong : l.modeStep source (.plain pending) ⟨c, place⟩ = _ :=
            plainStep_eq hline hblock pending ⟨c, place⟩
          have hshort : l.modeStep source (.plain []) ⟨c, place⟩ = _ :=
            plainStep_eq hline hblock [] ⟨c, place⟩
          cases hrole : l.role c with
          | word => simp [wordGoesOn, hrole] at h
          | ignorable =>
              rw [hrole] at hlong hshort
              rw [runToEnd_cons hlong, runToEnd_cons hshort]
              exact ih (by simpa [wordGoesOn, hrole] using h) (place.advance c)
          | bad =>
              rw [hrole] at hlong hshort
              have hfail : ∀ mode tokens, l.modeStep source mode ⟨c, place⟩ =
                  .error (.wrongChar place.pos (.scalar c)) →
                  l.step source ⟨place, mode, tokens⟩ (.scalar c) =
                    .error (.wrongChar place.pos (.scalar c)) := by
                intro mode tokens h
                simp [step, h, bind, Except.bind]
              rw [runToEnd_error (hfail _ _ hlong), runToEnd_error (hfail _ _ hshort)]
          | symbol | separator | delimiter =>
              rw [hrole] at hlong hshort
              rw [runToEnd_cons hlong, runToEnd_cons hshort]
              simp [flush]

end Words

end Lexer

end Tagfold
