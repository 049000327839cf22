import Mathlib.Algebra.Group.Nat.Defs
import Tagfold.Settings.Scalars

/-!
# Spelled scalars are read back

Every scalar can be written between double quotes, with the visible ASCII characters as they are and
all others by their number. A scalar without quotes is spelled as it is, and it has to be a word.
`scalar?_spelling` says that a spelling is read back, up to its end.
-/

namespace Tagfold.Settings

/-- The character is an ASCII character with a visible form. -/
def isVisible (c : Char) : Bool :=
  0x21 ≤ c.toNat && c.toNat ≤ 0x7E

/-- The number in the given number of hexadecimal digits. -/
def hexDigits : (width : Nat) → Nat → List Char
  | 0, _ => []
  | width + 1, n => hexDigits width (n / 16) ++ [Nat.digitChar (n % 16)]

/-- The spelling of a character between double quotes. -/
def spellChar (c : Char) : List Char :=
  if isVisible c && c != '"' && c != '\\' then [c] else '\\' :: 'U' :: hexDigits 8 c.toNat

/-- The character may occur in a scalar that is spelled without quotes. -/
def isWordChar (c : Char) : Bool :=
  c.isAlphanum || c == '_'

namespace Scalar

/-- The spelling of a scalar. -/
def spelling (s : Scalar) : List Char :=
  if s.quoted then '"' :: (s.chars.flatMap spellChar ++ ['"']) else s.chars

/-- A scalar without quotes is a word. -/
def Spelled (s : Scalar) : Prop :=
  s.quoted = false → s.chars ≠ [] ∧ ∀ c ∈ s.chars, isWordChar c = true

end Scalar

variable {c : Char} {cs rest text : List Char} {col fuel : Nat}

section Characters

/-- A visible character is no blank, line break or order mark, and it may occur in a document. -/
theorem isVisible_spec (h : isVisible c = true) :
    isGap c = false ∧ isBreak c = false ∧ isAllowed c = true ∧ isOrderMark c = false := by
  simp only [isVisible, Bool.and_eq_true, decide_eq_true_eq] at h
  have hne (d : Char) (hd : d.toNat < 0x21) : c ≠ d := by
    rintro rfl
    omega
  have hbreak : isBreak c = false := by
    simp [isBreak, hne '\n' (by decide)]
    omega
  refine ⟨?_, hbreak, ?_, ?_⟩
  · simp [isGap, isBlank, hbreak, hne ' ' (by decide), hne '\t' (by decide)]
  · simp only [isAllowed, Bool.or_eq_true, Bool.and_eq_true, decide_eq_true_eq]
    omega
  · simp only [isOrderMark, beq_eq_false_iff_ne]
    omega

/-- A quote is visible. -/
theorem isVisible_quote : ∀ c ∈ ['"'], isVisible c = true :=
  List.forall_mem_singleton.mpr rfl

/-- The digits of a number are visible. -/
theorem isVisible_hexDigits (width n : Nat) : ∀ c ∈ hexDigits width n, isVisible c = true := by
  have hdigit : ∀ d < 16, isVisible (Nat.digitChar d) = true := by decide
  induction width generalizing n with
  | zero => exact nofun
  | succ width ih =>
      have hlast := hdigit (n % 16) (Nat.mod_lt n (Nat.succ_pos 15))
      exact List.forall_mem_append.mpr ⟨ih (n / 16), List.forall_mem_singleton.mpr hlast⟩

/-- Spellings of characters are visible. -/
theorem isVisible_spellChar : ∀ d ∈ spellChar c, isVisible d = true := by
  unfold spellChar
  split
  · next h =>
      simp only [Bool.and_eq_true] at h
      exact List.forall_mem_singleton.mpr h.1.1
  · exact List.forall_mem_cons.mpr
      ⟨rfl, List.forall_mem_cons.mpr ⟨rfl, isVisible_hexDigits 8 c.toNat⟩⟩

/-- Characters of words are visible and have no meaning of their own. -/
theorem isWordChar_spec (h : isWordChar c = true) :
    isVisible c = true ∧ c ∉ indicators ∧ c ∉ flowIndicators := by
  have hindicators := List.any_eq_false.mp (rfl : indicators.any isWordChar = false)
  have hflow := List.any_eq_false.mp (rfl : flowIndicators.any isWordChar = false)
  refine ⟨?_, ?_, ?_⟩
  · have h : (decide (c.val ≥ 'A'.val ∧ c.val ≤ 'Z'.val) || (c.val ≥ 'a'.val && c.val ≤ 'z'.val) ||
        (c.val ≥ '0'.val && c.val ≤ '9'.val) || c == '_') = true := h
    simp only [Bool.or_eq_true, Bool.and_eq_true, decide_eq_true_eq, beq_iff_eq, ge_iff_le,
      UInt32.le_iff_toNat_le] at h
    simp only [isVisible, Bool.and_eq_true, decide_eq_true_eq, Char.toNat]
    rcases h with ((h | h) | h) | rfl
    · exact ⟨Nat.le_trans (by decide) h.1, Nat.le_trans h.2 (by decide)⟩
    · exact ⟨Nat.le_trans (by decide) h.1, Nat.le_trans h.2 (by decide)⟩
    · exact ⟨Nat.le_trans (by decide) h.1, Nat.le_trans h.2 (by decide)⟩
    · decide
  · exact fun hc ↦ hindicators c hc h
  · exact fun hc ↦ hflow c hc h

end Characters

section Digits

/-- A number has as many digits as it is given. -/
theorem length_hexDigits (width n : Nat) : (hexDigits width n).length = width := by
  induction width generalizing n with
  | zero => rfl
  | succ width ih => simp [hexDigits, ih]

/-- The digits of a number are read back. -/
theorem mapM_hexDigits (width n : Nat) : ∃ digits, digits.length = width ∧
    (hexDigits width n).mapM Utf8.hexDigit? = some digits ∧
      digits.foldl (fun n d ↦ 16 * n + d) 0 = n % 16 ^ width := by
  induction width generalizing n with
  | zero => exact ⟨[], rfl, rfl, (Nat.mod_one n).symm⟩
  | succ width ih =>
      obtain ⟨digits, hlength, hread, hvalue⟩ := ih (n / 16)
      have hdigit : ∀ d < 16, Utf8.hexDigit? (Nat.digitChar d) = some d := by decide
      refine ⟨digits ++ [n % 16], by simp [hlength], ?_, ?_⟩
      · simp [hexDigits, hread, hdigit (n % 16) (Nat.mod_lt n (by decide))]
      · rw [List.foldl_append, hvalue, Nat.pow_succ', Nat.mod_mul, List.foldl_cons, List.foldl_nil]
        omega

/-- The digits of a character stand for it. -/
theorem hexChar?_hexDigits (c : Char) (rest : List Char) :
    hexChar? 8 (hexDigits 8 c.toNat ++ rest) = some c := by
  obtain ⟨digits, hlength, hread, hvalue⟩ := mapM_hexDigits 8 c.toNat
  have htake : (hexDigits 8 c.toNat ++ rest).take 8 = hexDigits 8 c.toNat :=
    List.take_left' (length_hexDigits 8 c.toNat)
  have hvalid : c.toNat.isValidChar := c.valid
  have hsmall : c.toNat % 16 ^ 8 = c.toNat := by
    rcases hvalid with h | ⟨-, h⟩ <;> exact Nat.mod_eq_of_lt (by omega)
  rw [hsmall] at hvalue
  simp [hexChar?, htake, hread, hvalue, hlength, hvalid]

end Digits

/-- The cursor moves over visible characters. -/
theorem Cursor.drop_append (h : ∀ c ∈ cs, isVisible c = true) (rest : List Char) (col : Nat) :
    (Cursor.mk (cs ++ rest) col).drop cs.length = ⟨rest, col + cs.length⟩ := by
  have hline : cs.any isBreak = false := by
    rw [List.any_eq_false]
    exact fun c hc ↦ by simp [(isVisible_spec (h c hc)).2.1]
  simp [Cursor.drop, hline]

/-- No document ends in the middle of a line. -/
theorem Cursor.atMarker_of_pos (hcol : 0 < col) : (Cursor.mk rest col).atMarker = false := by
  simp [atMarker, Nat.ne_of_gt hcol]

section DoubleQuotes

/-- A character between double quotes is read back. -/
theorem doubleQuoted_spellChar (text : List Char) (hcol : 0 < col) :
    doubleQuoted (fuel + 1) text ⟨spellChar c ++ rest, col⟩ =
      doubleQuoted fuel (text ++ [c]) ⟨rest, col + (spellChar c).length⟩ := by
  have hdrop := Cursor.drop_append (isVisible_spellChar (c := c)) rest col
  rw [doubleQuoted, Cursor.atMarker_of_pos hcol, if_neg Bool.false_ne_true]
  by_cases h : (isVisible c && c != '"' && c != '\\') = true
  · rw [spellChar, if_pos h] at hdrop ⊢
    simp only [Bool.and_eq_true, bne_iff_ne, ne_eq] at h
    obtain ⟨⟨hvisible, hquote⟩, hescape⟩ := h
    have hgap := (isVisible_spec hvisible).1
    rw [← hdrop]
    simp [hgap]
  · rw [spellChar, if_neg h] at hdrop ⊢
    have hbreak : (('U' :: (hexDigits 8 c.toNat ++ rest)).head?.any isBreak) = false :=
      (isVisible_spec (c := 'U') (by decide)).2.1
    have hchar : escapeChar? ('U' :: (hexDigits 8 c.toNat ++ rest)) = some (c, 9) := by
      show (hexChar? 8 (hexDigits 8 c.toNat ++ rest)).map (·, 8 + 1) = _
      rw [hexChar?_hexDigits]
      rfl
    rw [← hdrop]
    simp only [List.cons_append, hbreak, hchar, Bool.false_eq_true, if_false, List.length_cons,
      length_hexDigits]

/-- A text between double quotes is read back. -/
theorem doubleQuoted_spelling (hfuel : cs.length < fuel) (text : List Char) (hcol : 0 < col) :
    doubleQuoted fuel text ⟨cs.flatMap spellChar ++ '"' :: rest, col⟩ =
      some (text ++ cs, ⟨rest, col + (cs.flatMap spellChar).length + 1⟩) := by
  induction cs generalizing fuel text col with
  | nil =>
      obtain ⟨fuel, rfl⟩ := Nat.exists_eq_succ_of_ne_zero (Nat.ne_of_gt hfuel)
      have hdrop := Cursor.drop_append isVisible_quote rest col
      rw [doubleQuoted, Cursor.atMarker_of_pos hcol]
      simpa using hdrop
  | cons c cs ih =>
      obtain ⟨fuel, rfl⟩ := Nat.exists_eq_succ_of_ne_zero (Nat.ne_of_gt (Nat.zero_lt_of_lt hfuel))
      rw [List.flatMap_cons, List.append_assoc, doubleQuoted_spellChar text hcol,
        ih (Nat.lt_of_succ_lt_succ hfuel) (text ++ [c]) (Nat.add_pos_left hcol _),
        List.length_append, List.append_assoc, Nat.add_assoc col]
      rfl

end DoubleQuotes

/-- There is a character for every character that is spelled. -/
theorem length_le_length_spelling (cs : List Char) : cs.length ≤ (cs.flatMap spellChar).length := by
  induction cs with
  | nil => exact Nat.le_refl 0
  | cons c cs ih =>
      have hpos : 0 < (spellChar c).length := by
        unfold spellChar
        split <;> exact Nat.succ_pos _
      simp only [List.flatMap_cons, List.length_cons, List.length_append]
      omega

section Gaps

/-- No gap is ahead: nothing is left, or a visible character that starts no comment. -/
def Settled (rest : List Char) : Prop :=
  ∀ c ∈ rest.head?, isVisible c = true ∧ c ≠ '#'

/-- The cursor does not move where no gap is ahead. -/
theorem Cursor.skipGap_of_settled (h : Settled rest) (inBrackets fresh : Bool) (fuel col : Nat) :
    skipGap inBrackets fuel fresh ⟨rest, col⟩ = (fresh, ⟨rest, col⟩) := by
  cases fuel with
  | zero => rfl
  | succ fuel =>
      cases rest with
      | nil => rfl
      | cons c rest =>
          obtain ⟨hvisible, hcomment⟩ := h c rfl
          obtain ⟨hgap, hbreak, -, hmark⟩ := isVisible_spec hvisible
          simp only [isGap, isBlank, hbreak, Bool.or_false, Bool.or_eq_false_iff] at hgap
          simp [skipGap, hcomment, hbreak, hgap, hmark]

/-- The cursor moves over a space. -/
theorem Cursor.toToken_space (h : Settled rest) (fresh : Bool) (col : Nat) :
    toToken fresh ⟨' ' :: rest, col⟩ = (fresh, ⟨rest, col + 1⟩) := by
  show skipGap false rest.length fresh ⟨rest, col + 1⟩ = _
  exact skipGap_of_settled h false fresh _ _

/-- The cursor moves over the end of a line, and a new entry can start behind it. -/
theorem Cursor.toToken_newline (h : Settled rest) (fresh : Bool) (col : Nat) :
    toToken fresh ⟨'\n' :: rest, col⟩ = (true, ⟨rest, 0⟩) := by
  show skipGap false rest.length (fresh || true) ⟨rest, 0⟩ = _
  rw [Bool.or_true]
  exact skipGap_of_settled h false true _ _

end Gaps

section Words

/-- A word is read with what follows it. -/
theorem wordLength_append {inBrackets : Bool} (h : ∀ c ∈ cs, isWordChar c = true) :
    wordLength inBrackets (cs ++ rest) = cs.length + wordLength inBrackets rest := by
  induction cs with
  | nil => exact (Nat.zero_add _).symm
  | cons c cs ih =>
      obtain ⟨hvisible, hindicator, hflow⟩ := isWordChar_spec (h c List.mem_cons_self)
      have hgap := (isVisible_spec hvisible).1
      have hcolon : c ≠ ':' := by
        rintro rfl
        exact hindicator (by decide)
      have hquestion : c ≠ '?' := by
        rintro rfl
        exact hindicator (by decide)
      rw [List.cons_append, wordLength, ih fun d hd ↦ h d (List.mem_cons_of_mem _ hd)]
      simp [hgap, hcolon, hquestion, hflow]
      omega

/-- A word begins a scalar without quotes. -/
theorem startsPlain_of_isWordChar (h : isWordChar c = true) (inBrackets : Bool) :
    startsPlain inBrackets (c :: rest) = true := by
  obtain ⟨hvisible, hindicator, -⟩ := isWordChar_spec h
  simp [startsPlain, (isVisible_spec hvisible).1, hindicator]

/-- A scalar without quotes is read as its first word and what follows it. -/
theorem plain?_word {inBrackets : Bool} {indent : Nat} (hne : cs ≠ [])
    (h : ∀ c ∈ cs, isWordChar c = true) (hstop : wordLength inBrackets rest = 0) :
    plain? inBrackets indent ⟨cs ++ rest, col⟩ =
      (plainTail inBrackets indent ((cs ++ rest).length + 1) cs ⟨rest, col + cs.length⟩).map
        fun (text, fresh, c) ↦ (⟨text, false⟩, fresh, c) := by
  have hvisible : ∀ c ∈ cs, isVisible c = true := fun c hc ↦ (isWordChar_spec (h c hc)).1
  have hlength : max 1 (wordLength inBrackets (cs ++ rest)) = cs.length := by
    rw [wordLength_append h, hstop, Nat.add_zero]
    exact Nat.max_eq_right (List.length_pos_iff.mpr hne)
  have hstarts : startsPlain inBrackets (cs ++ rest) = true := by
    obtain ⟨c, cs, rfl⟩ := List.exists_cons_of_ne_nil hne
    exact startsPlain_of_isWordChar (h c List.mem_cons_self) inBrackets
  simp only [plain?, hstarts, if_true, hlength, Cursor.drop_append hvisible, List.take_left']

/-- A scalar without quotes ends where no gap follows. -/
theorem plainTail_of_settled {inBrackets : Bool} {indent : Nat}
    (hsettled : ∀ c ∈ rest.head?, isGap c = false) :
    plainTail inBrackets indent (fuel + 1) text ⟨rest, col⟩ = some (text, false, ⟨rest, col⟩) := by
  have hrun : rest.takeWhile isGap = [] := by
    cases rest with
    | nil => rfl
    | cons c rest => simp [hsettled c rfl]
  simp [plainTail, hrun, Cursor.drop, hasEarlyTab]

/-- A scalar without quotes ends with the line if the next one begins in the first column. -/
theorem plainTail_newline {indent : Nat} (hindent : 0 < indent) (hsettled : Settled rest) :
    plainTail false indent (fuel + 1) text ⟨'\n' :: rest, col⟩ = some (text, true, ⟨rest, 0⟩) := by
  have hrun : ('\n' :: rest).takeWhile isGap = ['\n'] := by
    cases rest with
    | nil => rfl
    | cons c rest =>
        have hgap := (isVisible_spec (hsettled c rfl).1).1
        rw [List.takeWhile_cons_of_pos rfl, List.takeWhile_cons_of_neg (by simp [hgap])]
  have hdrop : (Cursor.mk ('\n' :: rest) col).drop 1 = ⟨rest, 0⟩ := rfl
  have htab : hasEarlyTab indent false col ['\n'] = false := rfl
  have hbreak : isBreak '\n' = true := rfl
  simp [plainTail, hrun, hdrop, htab, hindent, hbreak]

end Words

variable {s : Scalar} {inBrackets : Bool} {indent : Nat}

/-- A scalar between double quotes is read back. -/
theorem scalar?_quoted (h : s.quoted = true) :
    scalar? inBrackets indent ⟨s.spelling ++ rest, col⟩ =
      some (s, false, ⟨rest, col + s.spelling.length⟩) := by
  obtain ⟨cs, quoted⟩ := s
  cases h
  have hspelled : (Scalar.mk cs true).spelling ++ rest =
      '"' :: (cs.flatMap spellChar ++ '"' :: rest) := by
    simp [Scalar.spelling]
  have hdrop : (Cursor.mk ('"' :: (cs.flatMap spellChar ++ '"' :: rest)) col).drop 1 =
      ⟨cs.flatMap spellChar ++ '"' :: rest, col + 1⟩ :=
    Cursor.drop_append isVisible_quote _ col
  have hlength := length_le_length_spelling cs
  rw [hspelled]
  simp only [scalar?, hdrop]
  rw [doubleQuoted_spelling (by simp only [List.length_cons, List.length_append]; omega) []
    (Nat.succ_pos col)]
  simp [Scalar.spelling]
  omega

/-- A word is a scalar without quotes. -/
theorem scalar?_word (hne : cs ≠ []) (h : ∀ c ∈ cs, isWordChar c = true) :
    scalar? inBrackets indent ⟨cs ++ rest, col⟩ = plain? inBrackets indent ⟨cs ++ rest, col⟩ := by
  obtain ⟨c, cs, rfl⟩ := List.exists_cons_of_ne_nil hne
  have hindicator := (isWordChar_spec (h c List.mem_cons_self)).2.1
  have hother (d : Char) (hd : d ∈ indicators) : c ≠ d := by
    rintro rfl
    exact hindicator hd
  simp [scalar?, hother '\'' (by decide), hother '"' (by decide), hother '|' (by decide),
    hother '>' (by decide)]

/-- A spelled scalar is read back up to a character that ends it. -/
theorem scalar?_spelling (h : s.Spelled) (hstop : wordLength inBrackets rest = 0)
    (hgap : ∀ c ∈ rest.head?, isGap c = false) (indent col : Nat) :
    scalar? inBrackets indent ⟨s.spelling ++ rest, col⟩ =
      some (s, false, ⟨rest, col + s.spelling.length⟩) := by
  obtain ⟨cs, quoted⟩ := s
  cases quoted with
  | true => exact scalar?_quoted rfl
  | false =>
      obtain ⟨hne, hword⟩ := h rfl
      show scalar? inBrackets indent ⟨cs ++ rest, col⟩ = _
      rw [scalar?_word hne hword, plain?_word hne hword hstop, plainTail_of_settled hgap]
      rfl

/-- A spelled scalar is read back at the end of a line. -/
theorem scalar?_line (h : s.Spelled) (hindent : 0 < indent) (hsettled : Settled rest) (col : Nat) :
    ∃ fresh c, scalar? false indent ⟨s.spelling ++ '\n' :: rest, col⟩ = some (s, fresh, c) ∧
      c.toToken fresh = (true, ⟨rest, 0⟩) := by
  obtain ⟨cs, quoted⟩ := s
  cases quoted with
  | true => exact ⟨_, _, scalar?_quoted rfl, Cursor.toToken_newline hsettled _ _⟩
  | false =>
      obtain ⟨hne, hword⟩ := h rfl
      have hstop : wordLength false ('\n' :: rest) = 0 := rfl
      refine ⟨true, ⟨rest, 0⟩, ?_, Cursor.skipGap_of_settled hsettled false true _ _⟩
      show scalar? false indent ⟨cs ++ '\n' :: rest, col⟩ = _
      rw [scalar?_word hne hword, plain?_word hne hword hstop, plainTail_newline hindent hsettled]
      rfl

end Tagfold.Settings
