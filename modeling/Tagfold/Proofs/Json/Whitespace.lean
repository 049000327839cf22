import Tagfold.Proofs.Json.Lexemes
import Tagfold.Proofs.Text.Runes
import Tagfold.Proofs.Token.Blanks

/-!
# Tabs and carriage returns in JSON texts

Outside of literals, tabs and carriage returns are dropped, and a space ends the word before it. So
the one may stand for the other unless a word goes on behind it. `spaced` puts spaces for all tabs
and carriage returns of a text but those in literals and those inside of words, and `parse_spaced`
says that this makes no difference. Inside of a word it does: `parse_tab_ne_space`.
-/

namespace Tagfold.Json

/-- The byte is a tab or a carriage return. -/
def isTab (b : UInt8) : Bool := b == 9 || b == 13

/-- The byte belongs to words: a lower-case letter, a digit or a star. -/
def isWordByte (b : UInt8) : Bool :=
  (97 ≤ b && b ≤ 122) || (48 ≤ b && b ≤ 57) || b == 42

/-- Behind tabs and carriage returns, the next byte belongs to a word. -/
def wordFollows : Text → Bool
  | [] => false
  | b :: rest => if isTab b then wordFollows rest else isWordByte b

/-- What a byte of a text stands in: outside of words and literals, in a word, or in a literal, where
the byte may be escaped. Behind a word, tabs and carriage returns still count as in it. -/
inductive Zone where
  | between
  | word
  | literal (escaped : Bool)
  deriving DecidableEq

namespace Zone

/-- The zone behind a byte. -/
def next : Zone → UInt8 → Zone
  | literal escaped, b =>
    if b = 34 ∧ ¬ escaped then between else literal (b == 92 && !escaped)
  | zone, b =>
    if isTab b then zone
    else if isWordByte b then word
    else if b = 34 then literal false
    else between

/-- A tab or a carriage return before the rest of a text is in a literal or inside of a word. -/
def encloses : Zone → Text → Bool
  | literal _, _ => true
  | word, rest => wordFollows rest
  | between, _ => false

end Zone

/-- Put spaces for the tabs and carriage returns of a text that are neither in a literal nor inside
of a word. -/
def spaced : Zone → Text → Text
  | _, [] => []
  | zone, b :: rest =>
    (if isTab b && !zone.encloses rest then 32 else b) :: spaced (zone.next b) rest

section Bytes

variable {b : UInt8}

/-- The roles of single bytes. -/
theorem role_ofNat (hb : b.toNat < 128) :
    (lexicon.lexer.role (Char.ofNat b.toNat) = .word ↔ isWordByte b = true) ∧
      (lexicon.lexer.role (Char.ofNat b.toNat) = .ignorable ↔ isTab b = true) ∧
      (lexicon.lexer.role (Char.ofNat b.toNat) = .delimiter ↔ b = 34) := by
  have hall : ∀ n < 128, (lexicon.lexer.role (Char.ofNat n) = .word ↔
        isWordByte (UInt8.ofNat n) = true) ∧
      (lexicon.lexer.role (Char.ofNat n) = .ignorable ↔ isTab (UInt8.ofNat n) = true) ∧
      (lexicon.lexer.role (Char.ofNat n) = .delimiter ↔ UInt8.ofNat n = 34) := by
    rw [lexer_lexicon]
    decide +kernel
  have hbyte := hall b.toNat hb
  rwa [UInt8.ofNat_toNat] at hbyte

/-- A character of several bytes is none of one byte. -/
theorem ne_of_high {c d : Char} (hc : 128 ≤ c.val.toNat) (hd : d.val.toNat < 128) : c ≠ d := by
  intro h
  rw [h] at hc
  omega

/-- A character of several bytes has no role. -/
theorem role_of_high {c : Char} (hc : 128 ≤ c.val.toNat) : lexicon.lexer.role c = .bad := by
  have hle : ∀ d : Char, d.val.toNat < 128 → ¬ c ≤ d := by
    intro d hd h
    have hval : c.val.toNat ≤ d.val.toNat := h
    omega
  have hword : isWordChar c = false := by
    simp [isWordChar, hle 'z' (by decide), hle '9' (by decide)]
  have hlow : ∀ d ∈ ['\x7b', '\x7d', '[', ']', ':', ',', '.', ' ', '\n', '\t', '\r', '"', '*'],
      d.val.toNat < 128 := by simp
  have hother := fun d hd ↦ ne_of_high hc (hlow d hd)
  rw [lexer_lexicon]
  simp only [List.forall_mem_cons] at hother
  simp [Lexer.role, Lexer.isSymbol, Lexer.isDelimiter, hword, hother]

/-- A byte below 128 is read as a character of its own. -/
theorem decode_cons_low (hb : b.toNat < 128) (rest : Text) :
    Utf8.decode (b :: rest) = .scalar (Char.ofNat b.toNat) :: Utf8.decode rest := by
  have h := Utf8.decode_encode_append (Char.ofNat b.toNat) rest
  rwa [Utf8.encode_ofNat_toNat hb] at h

/-- A byte of at least 128 is no tab and no part of a word. -/
theorem isTab_of_high (hb : 128 ≤ b.toNat) : isTab b = false ∧ isWordByte b = false := by
  have hall : ∀ n < 256, 128 ≤ n →
      isTab (UInt8.ofNat n) = false ∧ isWordByte (UInt8.ofNat n) = false := by
    decide +kernel
  have hbyte := hall b.toNat b.toNat_lt hb
  rwa [UInt8.ofNat_toNat] at hbyte

/-- A text that starts with a byte of at least 128 starts with a stray byte, or with a character all
of whose bytes are such. -/
theorem head_cases_of_high (hb : 128 ≤ b.toNat) (rest : Text) :
    (∀ c, ¬ Utf8.encode c <+: b :: rest) ∨ ∃ c behind, b :: rest = Utf8.encode c ++ behind ∧
      128 ≤ c.val.toNat ∧ ∀ x ∈ Utf8.encode c, 128 ≤ x.toNat := by
  by_cases hstray : ∀ c, ¬ Utf8.encode c <+: b :: rest
  · exact .inl hstray
  · simp only [not_forall, not_not] at hstray
    obtain ⟨c, behind, hsplit⟩ := hstray
    obtain ⟨x, tail, hbytes⟩ := List.exists_cons_of_ne_nil (Utf8.encode_ne_nil c)
    obtain rfl : x = b := by
      rw [hbytes] at hsplit
      exact (List.cons.inj hsplit).1
    refine .inr ⟨c, behind, hsplit.symm, ?_⟩
    rcases Utf8.encode_cases c with ⟨hlow, hone⟩ | hhigh
    · rw [hbytes] at hone
      rw [(List.cons.inj hone).1, Utf8.toNat_ofNat_byte (by omega)] at hb
      omega
    · refine ⟨?_, hhigh⟩
      by_contra hlow
      have hval : (UInt8.ofNat c.val.toNat).toNat = c.val.toNat :=
        Utf8.toNat_ofNat_byte (by omega)
      have hone := Utf8.encode_ofNat_toNat (b := UInt8.ofNat c.val.toNat) (by omega)
      rw [hval, Utf8.ofNat_val_toNat] at hone
      have hmem := hhigh (UInt8.ofNat c.val.toNat) (by simp [hone])
      omega

end Bytes

/-- A word goes on behind a text exactly if a byte of one follows. -/
theorem wordGoesOn_decode (t : Text) :
    lexicon.lexer.wordGoesOn (Utf8.decode t) = wordFollows t := by
  induction t with
  | nil =>
      rw [Utf8.decode_nil]
      rfl
  | cons b rest ih =>
      by_cases hb : b.toNat < 128
      · obtain ⟨hword, htab, -⟩ := role_ofNat hb
        rw [decode_cons_low hb, Lexer.wordGoesOn, wordFollows]
        cases hrole : lexicon.lexer.role (Char.ofNat b.toNat) with
        | ignorable =>
            rw [if_pos (htab.mp hrole)]
            exact ih
        | _ =>
            rw [hrole] at hword htab
            simp_all
      · obtain ⟨htab, hword⟩ := isTab_of_high (Nat.not_lt.mp hb)
        have hfollows : wordFollows (b :: rest) = false := by simp [wordFollows, htab, hword]
        rw [hfollows]
        obtain hstray | ⟨c, behind, hsplit, hc, -⟩ := head_cases_of_high (Nat.not_lt.mp hb) rest
        · rw [Utf8.decode_cons_stray hstray]
          rfl
        · rw [hsplit, Utf8.decode_encode_append, Lexer.wordGoesOn, role_of_high hc]

section Spacing

/-- The zone behind bytes of at least 128. -/
def Zone.past : Zone → Zone
  | literal _ => literal false
  | _ => between

/-- A byte of at least 128 stays as it is. -/
theorem spaced_cons_high {b : UInt8} (hb : 128 ≤ b.toNat) (zone : Zone) (rest : Text) :
    spaced zone (b :: rest) = b :: spaced zone.past rest := by
  obtain ⟨htab, hword⟩ := isTab_of_high hb
  have hquote : b ≠ 34 := by
    rintro rfl
    exact absurd hb (by decide)
  have hslash : b ≠ 92 := by
    rintro rfl
    exact absurd hb (by decide)
  have hnext : zone.next b = zone.past := by
    cases zone <;> simp [Zone.next, Zone.past, htab, hword, hquote, hslash]
  simp [spaced, htab, hnext]

/-- Bytes of at least 128 stay as they are. -/
theorem spaced_append_high {u : Text} (hu : ∀ x ∈ u, 128 ≤ x.toNat) (hne : u ≠ []) (zone : Zone)
    (rest : Text) : spaced zone (u ++ rest) = u ++ spaced zone.past rest := by
  induction u generalizing zone with
  | nil => exact absurd rfl hne
  | cons b u ih =>
      obtain ⟨hb, hu⟩ := List.forall_mem_cons.mp hu
      rw [List.cons_append, spaced_cons_high hb]
      by_cases hlast : u = []
      · rw [hlast]
        rfl
      · have hpast : zone.past.past = zone.past := by cases zone <;> rfl
        rw [ih hu hlast, hpast, List.cons_append]

/-- Bytes of at least 128 at the head of the spaced text were there before. -/
theorem prefix_of_prefix_spaced {u t : Text} (hu : ∀ x ∈ u, 128 ≤ x.toNat) {zone : Zone}
    (h : u <+: spaced zone t) : u <+: t := by
  induction u generalizing t zone with
  | nil => exact List.nil_prefix
  | cons x u ih =>
      obtain ⟨hx, htail⟩ := List.forall_mem_cons.mp hu
      cases t with
      | nil => cases zone <;> simp [spaced] at h
      | cons b rest =>
          rw [spaced, List.cons_prefix_cons] at h
          obtain ⟨rfl, hrest⟩ := h
          split at hx
          · exact absurd hx (by decide)
          · next hkept =>
              rw [if_neg hkept]
              exact List.cons_prefix_cons.mpr ⟨rfl, ih htail hrest⟩

end Spacing

section Scanning

/-- The zone is what the scanner is inside of. -/
def Zone.Fits : Zone → ScanMode → Prop
  | between, .plain pending => pending = []
  | word, .plain _ => True
  | literal escaped, .literal opening body => opening.char = '"' ∧ Lexer.escaped body = escaped
  | _, _ => False

/-- A character behind a literal so far is escaped if it follows a backslash that is not. -/
theorem escaped_cons (c : Char) (body : List Char) :
    Lexer.escaped (c :: body) = (c == '\\' && !Lexer.escaped body) := by
  by_cases hc : c = '\\'
  · subst hc
    simp only [Lexer.escaped, List.takeWhile_cons, beq_self_eq_true, if_true, List.length_cons,
      Bool.true_and]
    rcases Nat.mod_two_eq_zero_or_one (body.takeWhile (· == '\\')).length with h | h
    · rw [h, show ((body.takeWhile (· == '\\')).length + 1) % 2 = 1 by omega]
      rfl
    · rw [h, show ((body.takeWhile (· == '\\')).length + 1) % 2 = 0 by omega]
      rfl
  · simp [Lexer.escaped, hc]

variable {source : Text} {zone : Zone} {mode next : ScanMode} {completed : List Token}
  {place : Place} {pending : List Placed} {b : UInt8}

/-- Outside of literals, the zone behind a byte that is no tab depends on the byte alone. -/
theorem Zone.next_of_plain (h : zone.Fits (.plain pending)) (htab : isTab b = false) :
    zone.next b = if isWordByte b then word else if b = 34 then literal false else between := by
  cases zone with
  | literal escaped => cases h
  | _ => simp [Zone.next, htab]

/-- Only the byte of a character below 128 is read as that character. -/
theorem ofNat_toNat_eq_iff {x : UInt8} (hb : b.toNat < 128) (hx : x.toNat < 128) :
    Char.ofNat b.toNat = Char.ofNat x.toNat ↔ b = x := by
  constructor
  · intro h
    have hbytes := congrArg Utf8.encode h
    rw [Utf8.encode_ofNat_toNat hb, Utf8.encode_ofNat_toNat hx] at hbytes
    exact List.head_eq_of_cons_eq hbytes
  · intro h
    rw [h]

/-- A byte that stays leads the zone to where it leads the scanner, outside of literals. -/
theorem Zone.next_fits_of_plain (hb : b.toNat < 128) (hzone : zone.Fits (.plain pending))
    (htab : isTab b = false)
    (h : lexicon.lexer.modeStep source (.plain pending) ⟨Char.ofNat b.toNat, place⟩ =
      .ok (next, completed)) : (zone.next b).Fits next := by
  have hstep : lexicon.lexer.modeStep source (.plain pending) ⟨Char.ofNat b.toNat, place⟩ = _ :=
    Lexer.plainStep_eq rfl rfl pending ⟨Char.ofNat b.toNat, place⟩
  obtain ⟨hword, hignorable, hdelimiter⟩ := role_ofNat hb
  rw [Zone.next_of_plain hzone htab]
  cases hrole : lexicon.lexer.role (Char.ofNat b.toNat) with
  | word =>
      rw [hrole] at hstep hword
      cases hstep.symm.trans h
      rw [if_pos (hword.mp rfl)]
      trivial
  | ignorable =>
      rw [hrole] at hignorable
      rw [hignorable.mp rfl] at htab
      cases htab
  | delimiter =>
      rw [hrole] at hstep hword hdelimiter
      cases hstep.symm.trans h
      obtain rfl := hdelimiter.mp rfl
      exact ⟨rfl, rfl⟩
  | bad =>
      rw [hrole] at hstep
      cases hstep.symm.trans h
  | symbol | separator =>
      rw [hrole] at hstep hword hdelimiter
      cases hstep.symm.trans h
      rw [if_neg (fun h ↦ nomatch hword.mpr h), if_neg (fun h ↦ nomatch hdelimiter.mpr h)]
      rfl

/-- A byte leads the zone to where it leads the scanner, in a literal. -/
theorem Zone.next_fits_of_literal {opening : Placed} {body : List Char} (hb : b.toNat < 128)
    (hzone : zone.Fits (.literal opening body))
    (h : lexicon.lexer.modeStep source (.literal opening body) ⟨Char.ofNat b.toNat, place⟩ =
      .ok (next, completed)) : (zone.next b).Fits next := by
  cases zone with
  | between => cases hzone
  | word => cases hzone
  | literal escaped =>
      obtain ⟨hquote, rfl⟩ := hzone
      have hclose : Char.ofNat b.toNat = opening.char ↔ b = 34 := by
        rw [hquote]
        exact ofNat_toNat_eq_iff (x := 34) hb (by decide)
      have hslash : (Char.ofNat b.toNat == '\\') = (b == 92) := by
        rw [Bool.eq_iff_iff, beq_iff_eq, beq_iff_eq]
        exact ofNat_toNat_eq_iff (x := 92) hb (by decide)
      simp only [Lexer.modeStep, hclose] at h
      simp only [Zone.next]
      split at h
      · next hends =>
          cases h
          rw [if_pos hends]
          rfl
      · next hends =>
          cases h
          rw [if_neg hends]
          exact ⟨hquote, by rw [escaped_cons, hslash]⟩

/-- Outside of literals, a tab or a carriage return is dropped. -/
theorem runToEnd_tab (hb : isTab b = true) (pending : List Placed) (tokens : List Token)
    (rest : Text) :
    lexicon.lexer.runToEnd source ⟨place, .plain pending, tokens⟩ (Utf8.decode (b :: rest)) =
      lexicon.lexer.runToEnd source ⟨place.advance ' ', .plain pending, tokens⟩
        (Utf8.decode rest) := by
  have hlow : b.toNat < 128 := by
    by_contra hhigh
    rw [(isTab_of_high (Nat.not_lt.mp hhigh)).1] at hb
    cases hb
  have hstep : lexicon.lexer.modeStep source (.plain pending) ⟨Char.ofNat b.toNat, place⟩ = _ :=
    Lexer.plainStep_eq rfl rfl pending ⟨Char.ofNat b.toNat, place⟩
  rw [(role_ofNat hlow).2.1.mpr hb] at hstep
  have hplace : place.advance (Char.ofNat b.toNat) = place.advance ' ' := by
    simp only [isTab, Bool.or_eq_true, beq_iff_eq] at hb
    rcases hb with rfl | rfl <;> rfl
  rw [decode_cons_low hlow, Lexer.runToEnd_cons hstep, hplace]
  rfl

/-- Outside of literals, a space ends the word before it. -/
theorem runToEnd_space (pending : List Placed) (tokens : List Token) (rest : Text) :
    lexicon.lexer.runToEnd source ⟨place, .plain pending, tokens⟩ (Utf8.decode (32 :: rest)) =
      lexicon.lexer.runToEnd source
        ⟨place.advance ' ', .plain [], (lexicon.lexer.flush source pending).reverse ++ tokens⟩
        (Utf8.decode rest) := by
  have hrole : lexicon.lexer.role ' ' = .separator := by
    rw [lexer_lexicon]
    decide
  have hstep : lexicon.lexer.modeStep source (.plain pending) ⟨' ', place⟩ =
      .ok (.plain [], lexicon.lexer.flush source pending) := by
    show lexicon.lexer.plainStep source pending ⟨' ', place⟩ = _
    rw [Lexer.plainStep_eq rfl rfl, hrole]
  have hdecode : Utf8.decode (32 :: rest) = .scalar ' ' :: Utf8.decode rest :=
    decode_cons_low (by decide) rest
  rw [hdecode, Lexer.runToEnd_cons hstep]

/-- Spacing the text to come makes no difference to the tokens, in whatever zone it starts. -/
def SpacesAlike (source t : Text) : Prop :=
  ∀ (zone : Zone) (mode : ScanMode) (place : Place) (tokens : List Token), zone.Fits mode →
    lexicon.lexer.runToEnd source ⟨place, mode, tokens⟩ (Utf8.decode (spaced zone t)) =
      lexicon.lexer.runToEnd source ⟨place, mode, tokens⟩ (Utf8.decode t)

variable {rest behind : Text}

/-- Outside of literals, a tab or a carriage return and what is put for it lead to the same tokens. -/
theorem SpacesAlike.tab (hb : isTab b = true) (ih : SpacesAlike source rest)
    (hzone : zone.Fits (.plain pending)) (place : Place) (tokens : List Token) :
    lexicon.lexer.runToEnd source ⟨place, .plain pending, tokens⟩
        (Utf8.decode (spaced zone (b :: rest))) =
      lexicon.lexer.runToEnd source ⟨place, .plain pending, tokens⟩ (Utf8.decode (b :: rest)) := by
  have hnext : zone.next b = zone := by
    cases zone with
    | literal escaped => cases hzone
    | between | word => simp [Zone.next, hb]
  rw [runToEnd_tab hb, spaced, hb, Bool.true_and, hnext]
  cases hencloses : zone.encloses rest with
  | true =>
      rw [if_neg (by decide), runToEnd_tab hb]
      exact ih zone (.plain pending) _ _ hzone
  | false =>
      rw [if_pos (by decide), runToEnd_space]
      cases zone with
      | literal escaped => cases hzone
      | between =>
          obtain rfl : pending = [] := hzone
          exact ih .between (.plain []) _ _ rfl
      | word =>
          -- The word does not go on, so that ending it here makes no difference.
          have hends : lexicon.lexer.wordGoesOn (Utf8.decode rest) = false := by
            rw [wordGoesOn_decode]
            exact hencloses
          rw [Lexer.runToEnd_flush rfl rfl hends]
          exact ih .word (.plain []) _ _ trivial

/-- Spacing makes no difference from a byte below 128 on if it makes none behind it. -/
theorem SpacesAlike.cons_low (hb : b.toNat < 128) (ih : SpacesAlike source rest) :
    SpacesAlike source (b :: rest) := by
  intro zone mode place tokens hzone
  have hkept : spaced zone (b :: rest) = b :: spaced (zone.next b) rest →
      (∀ next completed, lexicon.lexer.modeStep source mode ⟨Char.ofNat b.toNat, place⟩ =
        .ok (next, completed) → (zone.next b).Fits next) →
      lexicon.lexer.runToEnd source ⟨place, mode, tokens⟩ (Utf8.decode (spaced zone (b :: rest))) =
        lexicon.lexer.runToEnd source ⟨place, mode, tokens⟩ (Utf8.decode (b :: rest)) := by
    intro hspaced hfits
    rw [hspaced, decode_cons_low hb, decode_cons_low hb]
    refine Lexer.runToEnd_congr _ fun c next completed hc hstep ↦ ?_
    cases hc
    exact ih _ next _ _ (hfits next completed hstep)
  cases mode with
  | plain pending =>
      cases htab : isTab b with
      | true => exact ih.tab htab hzone place tokens
      | false =>
          refine hkept (by simp [spaced, htab]) fun next completed ↦ ?_
          exact Zone.next_fits_of_plain hb hzone htab
  | literal opening body =>
      refine hkept ?_ fun next completed ↦ Zone.next_fits_of_literal hb hzone
      cases zone with
      | literal escaped => simp [spaced, Zone.encloses]
      | between | word => cases hzone
  | lineComment | blockComment => cases zone <;> cases hzone

/-- A stray byte ends the scan, so that spacing makes no difference from it on. -/
theorem SpacesAlike.cons_stray (hb : 128 ≤ b.toNat) (h : ∀ c, ¬ Utf8.encode c <+: b :: rest) :
    SpacesAlike source (b :: rest) := by
  intro zone mode place tokens _
  have hspaced := spaced_cons_high hb zone rest
  have hstray : ∀ c, ¬ Utf8.encode c <+: b :: spaced zone.past rest := by
    intro c hstart
    rcases Utf8.encode_cases c with ⟨hlow, hone⟩ | hhigh
    · -- A character of one byte would be the byte itself, which is too large.
      rw [hone, List.cons_prefix_cons] at hstart
      have hbyte := Utf8.toNat_ofNat_byte (n := c.val.toNat) (by omega)
      rw [hstart.1] at hbyte
      omega
    · rw [← hspaced] at hstart
      exact h c (prefix_of_prefix_spaced hhigh hstart)
  rw [hspaced, Utf8.decode_cons_stray h, Utf8.decode_cons_stray hstray, Lexer.runToEnd_error rfl,
    Lexer.runToEnd_error rfl]

/-- Spacing makes no difference from a character of several bytes on if it makes none behind it. -/
theorem SpacesAlike.encode_append {c : Char} (hc : 128 ≤ c.val.toNat)
    (hbytes : ∀ x ∈ Utf8.encode c, 128 ≤ x.toNat) (ih : SpacesAlike source behind) :
    SpacesAlike source (Utf8.encode c ++ behind) := by
  intro zone mode place tokens hzone
  rw [spaced_append_high hbytes (Utf8.encode_ne_nil c), Utf8.decode_encode_append,
    Utf8.decode_encode_append]
  refine Lexer.runToEnd_congr _ fun d next completed hd hstep ↦ ?_
  cases hd
  cases mode with
  | plain pending =>
      -- Outside of literals such a character is an error.
      have hbad : lexicon.lexer.modeStep source (.plain pending) ⟨c, place⟩ = _ :=
        Lexer.plainStep_eq rfl rfl pending ⟨c, place⟩
      rw [role_of_high hc] at hbad
      cases hbad.symm.trans hstep
  | literal opening body =>
      cases zone with
      | between | word => cases hzone
      | literal escaped =>
          have hquote : c ≠ '"' := ne_of_high hc (by decide)
          have hslash : c ≠ '\\' := ne_of_high hc (by decide)
          have hstay : ¬ (c = opening.char ∧ ¬ Lexer.escaped body = true) := by
            rw [hzone.1]
            exact fun h ↦ hquote h.1
          simp only [Lexer.modeStep, if_neg hstay] at hstep
          cases hstep
          refine ih _ _ _ _ ⟨hzone.1, ?_⟩
          simp [escaped_cons, hslash]
  | lineComment | blockComment => cases zone <;> cases hzone

/-- Spacing a text makes no difference to its tokens. -/
theorem spacesAlike (source t : Text) : SpacesAlike source t := by
  -- The induction is on the length, since a character may take several bytes.
  induction hn : t.length using Nat.strong_induction_on generalizing t with
  | _ n ih =>
      subst hn
      cases t with
      | nil =>
          intro zone mode place tokens _
          cases zone <;> rfl
      | cons b rest =>
          by_cases hb : b.toNat < 128
          · exact .cons_low hb (ih rest.length (by simp) rest rfl)
          · rw [Nat.not_lt] at hb
            obtain hstray | ⟨c, behind, hsplit, hc, hbytes⟩ := head_cases_of_high hb rest
            · exact .cons_stray hb hstray
            · have hlength := List.length_pos_of_ne_nil (Utf8.encode_ne_nil c)
              rw [hsplit]
              exact .encode_append hc hbytes
                (ih behind.length (by rw [hsplit, List.length_append]; omega) behind rfl)

/-- Spacing a text makes no difference to its scan. -/
theorem scan_spaced (name t : Text) :
    lexicon.lexer.scan ⟨name, spaced .between t⟩ = lexicon.lexer.scan ⟨name, t⟩ :=
  spacesAlike name t .between (.plain []) Place.start [] rfl

end Scanning

/-- Spaces may be put for all tabs and carriage returns of a text that are neither in a literal nor
inside of a word: the text has the same tree, or the same error. -/
theorem parse_spaced {report : Bool} {l : Language} (hl : Language.build report = .ok l)
    (name t : Text) : l.parse ⟨name, spaced .between t⟩ = l.parse ⟨name, t⟩ := by
  have hscan : l.grammar.lexer.scan ⟨name, spaced .between t⟩ = l.grammar.lexer.scan ⟨name, t⟩ := by
    rw [(Language.built_of_build hl).lexer]
    exact scan_spaced name t
  simp only [Language.parse, Grammar.parse, hscan]

/-- The tabs in the string and in the number stay, and spaces are put for the others. -/
theorem parse_spaced_array :
    ∃ l, Language.build false = .ok l ∧
      l.parse ⟨utf8 "in", utf8 "[\"a\tb\", 1\t2 ,true ] "⟩ =
        l.parse ⟨utf8 "in", utf8 "[\"a\tb\",\t1\t2\t,true\r]\r"⟩ := by
  obtain ⟨l, hl⟩ := Language.exists_build false
  exact ⟨l, hl, parse_spaced hl (utf8 "in") (utf8 "[\"a\tb\",\t1\t2\t,true\r]\r")⟩

/-- A value of two tokens starts with a bracket. -/
theorem Derives.symbol_of_pair {t u : Token} {v : Tree} (h : Derives [t, u] (.value v)) :
    t.kind = .symbol := by
  generalize hts : [t, u] = ts at h
  cases h with
  | string | integer | constant | decimal => cases hts
  | emptyObject ho | emptyArray ho | object ho | array ho =>
      rw [(List.cons.inj hts).1]
      exact ho.1

/-- Inside of a word it matters which of the two stands there: a tab between two digits joins them
to one number. -/
theorem parse_tab_ne_space :
    ∃ l, Language.build false = .ok l ∧
      l.parse ⟨utf8 "in", utf8 "1\t2"⟩ ≠ l.parse ⟨utf8 "in", utf8 "1 2"⟩ := by
  obtain ⟨l, hl⟩ := Language.exists_build false
  have hbuilt := Language.built_of_build hl
  let twelve : Numeral := ⟨utf8 "12", rfl, by decide +kernel⟩
  have htab : lexicon.lexer.scan ⟨utf8 "in", utf8 "1\t2"⟩ =
      .ok [⟨.word, utf8 "12", utf8 "in", 0, ⟨1, 1⟩⟩] := by
    have hcs : utf8 "1\t2" = Utf8.encodeAll ['1', '\t', '2'] := rfl
    rw [Lexer.scan_eq_tokensFrom _ hcs, lexer_lexicon]
    rfl
  have hspace : lexicon.lexer.scan ⟨utf8 "in", utf8 "1 2"⟩ =
      .ok [⟨.word, utf8 "1", utf8 "in", 0, ⟨1, 1⟩⟩, ⟨.word, utf8 "2", utf8 "in", 2, ⟨1, 3⟩⟩] := by
    have hcs : utf8 "1 2" = Utf8.encodeAll ['1', ' ', '2'] := rfl
    rw [Lexer.scan_eq_tokensFrom _ hcs, lexer_lexicon]
    rfl
  have hjoined := (parse_eq_ok_iff hbuilt).mpr
    ⟨_, htab, parse_of_derives hbuilt (.integer (n := twelve) ⟨rfl, rfl⟩)⟩
  refine ⟨l, hl, fun hsame ↦ ?_⟩
  obtain ⟨ts, hscan, hparse⟩ := (parse_eq_ok_iff hbuilt).mp (hsame.symm.trans hjoined)
  obtain ⟨v, hderives, -⟩ := derives_of_parse hbuilt (lexeme_of_parse hbuilt hscan hparse) hparse
    (Tree.isValue_expr _ _)
  cases hscan.symm.trans hspace
  cases hderives.symbol_of_pair

end Tagfold.Json
