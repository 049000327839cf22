import Tagfold.Proofs.Json.Lexemes
import Tagfold.Proofs.Json.String
import Tagfold.Proofs.Token.Escapes

/-!
# Where a string ends

The lexer finds the end of a string by counting backslashes backwards, the decoder by reading
escapes. `readEscaped_body` says that the decoder goes through a body as it reads from left to right
and ends at the quote behind it, or finds an escape that it does not know, `BadEscape`. So it agrees
with the lexer, and `Language.string_token_ends` says what that means for the strings of a scanned
text.
-/

namespace Tagfold.Json

/-- The body of a string, in bytes. -/
abbrev Body : Text → Prop := LiteralBody 92 34

/-- An escape that the decoder knows stands behind a backslash. -/
def startsEscape : Text → Bool
  | [] => false
  | b :: rest => if b = 117 then (fourHex? rest).isSome else (simpleEscape? b).isSome

/-- A backslash of a body, not escaped itself, begins no escape that the decoder knows. -/
def BadEscape (body : Text) : Prop :=
  ∃ before after, body = before ++ 92 :: after ∧ Body before ∧ startsEscape after = false

section Bodies

variable {b : UInt8} {rest : Text}

/-- A bad escape behind a plain byte is one of the rest. -/
theorem badEscape_plain (hquote : b ≠ 34) (hslash : b ≠ 92) :
    BadEscape (b :: rest) ↔ BadEscape rest := by
  constructor
  · rintro ⟨before, after, heq, hbefore, hafter⟩
    cases hbefore with
    | nil => exact absurd (List.cons.inj heq).1 hslash
    | plain _ _ hbefore =>
        obtain ⟨rfl, rfl⟩ := List.cons.inj heq
        exact ⟨_, after, rfl, hbefore, hafter⟩
    | escape _ hbefore => exact absurd (List.cons.inj heq).1 hslash
  · rintro ⟨before, after, rfl, hbefore, hafter⟩
    exact ⟨b :: before, after, rfl, .plain hquote hslash hbefore, hafter⟩

/-- A bad escape of a body that begins with an escape is this one or one of the rest. -/
theorem badEscape_escape :
    BadEscape (92 :: b :: rest) ↔ startsEscape (b :: rest) = false ∨ BadEscape rest := by
  constructor
  · rintro ⟨before, after, heq, hbefore, hafter⟩
    cases hbefore with
    | nil =>
        obtain rfl : b :: rest = after := (List.cons.inj heq).2
        exact .inl hafter
    | plain _ hslash _ => exact absurd (List.cons.inj heq).1.symm hslash
    | escape c hbefore =>
        obtain ⟨-, heq⟩ := List.cons.inj heq
        obtain ⟨-, rfl⟩ := List.cons.inj heq
        exact .inr ⟨_, after, rfl, hbefore, hafter⟩
  · rintro (hafter | ⟨before, after, rfl, hbefore, hafter⟩)
    · exact ⟨[], b :: rest, rfl, .nil, hafter⟩
    · exact ⟨92 :: b :: before, after, rfl, .escape b hbefore, hafter⟩

/-- A plain byte at the head of a body with its quote is one of the body. -/
theorem exists_tail_of_plain {body more : Text} (h : Body body)
    (heq : body ++ 34 :: more = b :: rest) (hquote : b ≠ 34) (hslash : b ≠ 92) :
    ∃ tail, body = b :: tail ∧ rest = tail ++ 34 :: more ∧ Body tail ∧
      (BadEscape body ↔ BadEscape tail) := by
  rcases body with _ | ⟨c, tail⟩
  · exact absurd (List.cons.inj heq).1.symm hquote
  · obtain ⟨rfl, rfl⟩ := List.cons.inj heq
    exact ⟨tail, rfl, rfl, (h.of_plain_cons hslash).2, badEscape_plain hquote hslash⟩

/-- Four digits are four bytes, neither quotes nor backslashes, and are read whatever follows. -/
theorem exists_digits_of_fourHex? {t rest : Text} {n : Nat} (h : fourHex? t = some (n, rest)) :
    ∃ a b c d, t = a :: b :: c :: d :: rest ∧ (∀ x ∈ [a, b, c, d], x ≠ 34 ∧ x ≠ 92) ∧
      ∀ behind, fourHex? (a :: b :: c :: d :: behind) = some (n, behind) := by
  have hdigit : ∀ {x : UInt8} {k : Nat}, Text.hexValue? x = some k → x ≠ 34 ∧ x ≠ 92 := by
    intro x k hx
    refine ⟨?_, ?_⟩
    · rintro rfl
      cases hx
    · rintro rfl
      cases hx
  unfold fourHex? at h
  split at h
  · next a b c d rest' =>
      simp only [Option.bind_eq_bind, Option.bind_eq_some_iff, Option.pure_def, Option.some.injEq,
        Prod.mk.injEq] at h
      obtain ⟨_, ha, _, hb, _, hc, _, hd, rfl, rfl⟩ := h
      refine ⟨a, b, c, d, rfl, by simpa using ⟨hdigit ha, hdigit hb, hdigit hc, hdigit hd⟩, ?_⟩
      intro behind
      simp [fourHex?, ha, hb, hc, hd]
  · cases h

/-- Four digits are read alike from a body and from the body with its quote. -/
theorem fourHex?_append {body : Text} (h : Body body) (more : Text) :
    (fourHex? (body ++ 34 :: more) = none ∧ fourHex? body = none) ∨
      ∃ n tail, fourHex? (body ++ 34 :: more) = some (n, tail ++ 34 :: more) ∧
        fourHex? body = some (n, tail) ∧ Body tail ∧ (BadEscape body ↔ BadEscape tail) := by
  cases hread : fourHex? (body ++ 34 :: more) with
  | none =>
      refine .inl ⟨rfl, ?_⟩
      by_contra hsome
      obtain ⟨⟨n, tail⟩, hn⟩ := Option.ne_none_iff_exists'.mp hsome
      obtain ⟨a, b, c, d, rfl, -, hany⟩ := exists_digits_of_fourHex? hn
      cases hread.symm.trans (hany _)
  | some read =>
      obtain ⟨n, rest⟩ := read
      obtain ⟨a, b, c, d, heq, hplain, hany⟩ := exists_digits_of_fourHex? hread
      simp only [List.mem_cons, List.not_mem_nil, or_false, forall_eq_or_imp, forall_eq] at hplain
      obtain ⟨⟨ha, ha'⟩, ⟨hb, hb'⟩, ⟨hc, hc'⟩, hd, hd'⟩ := hplain
      -- No digit is the quote behind the body, so that all four are of the body.
      obtain ⟨t₁, rfl, heq, h₁, hbad₁⟩ := exists_tail_of_plain h heq ha ha'
      obtain ⟨t₂, rfl, heq, h₂, hbad₂⟩ := exists_tail_of_plain h₁ heq.symm hb hb'
      obtain ⟨t₃, rfl, heq, h₃, hbad₃⟩ := exists_tail_of_plain h₂ heq.symm hc hc'
      obtain ⟨t₄, rfl, rfl, h₄, hbad₄⟩ := exists_tail_of_plain h₃ heq.symm hd hd'
      exact .inr ⟨n, t₄, rfl, hany t₄, h₄, hbad₁.trans (hbad₂.trans (hbad₃.trans hbad₄))⟩

/-- An escape by number is known by its digits. -/
theorem badEscape_unicode {body : Text} :
    BadEscape (92 :: 117 :: body) ↔ fourHex? body = none ∨ BadEscape body := by
  rw [badEscape_escape, startsEscape, if_pos rfl, ← Option.not_isSome_iff_eq_none,
    Bool.not_eq_true]

/-- A body that begins with a backslash begins with an escape. -/
theorem exists_escape {body more : Text} (h : Body body)
    (heq : body ++ 34 :: more = 92 :: b :: rest) (hquote : b ≠ 34) :
    ∃ tail, body = 92 :: b :: tail ∧ rest = tail ++ 34 :: more ∧ Body tail := by
  cases h with
  | nil => exact absurd (List.cons.inj heq).1 (by decide)
  | plain _ hslash _ => exact absurd (List.cons.inj heq).1 hslash
  | escape c htail =>
      obtain ⟨-, heq⟩ := List.cons.inj heq
      obtain ⟨rfl, rfl⟩ := List.cons.inj heq
      exact ⟨_, rfl, rfl, htail⟩

/-- Behind the mark of an escape by number, the decoder goes on with a body, or finds an escape that
it does not know: this one, or the one that it looks for behind a surrogate. -/
theorem unicodeEscape?_append {body : Text} (h : Body body) (more : Text) :
    (unicodeEscape? (body ++ 34 :: more) = none ∧ BadEscape (92 :: 117 :: body)) ∨
      ∃ bytes tail, unicodeEscape? (body ++ 34 :: more) = some (bytes, tail ++ 34 :: more) ∧
        Body tail ∧ (BadEscape (92 :: 117 :: body) ↔ BadEscape tail) := by
  obtain ⟨hnone, hbody⟩ | ⟨high, tail, hsome, hbody, htail, hbad⟩ := fourHex?_append h more
  · exact .inl ⟨by simp [unicodeEscape?, hnone], badEscape_unicode.mpr (.inl hbody)⟩
  · have hfirst : BadEscape (92 :: 117 :: body) ↔ BadEscape tail := by
      rw [badEscape_unicode, hbody, hbad]
      simp
    simp only [unicodeEscape?, hsome, Option.bind_eq_bind, Option.bind_some]
    split
    · -- A high surrogate looks for another escape behind it, which is one of the body too.
      split
      · next behind heq =>
          obtain ⟨last, rfl, rfl, hlast⟩ := exists_escape htail heq (by decide)
          rw [hfirst, badEscape_unicode]
          obtain ⟨hnone, hlow⟩ | ⟨low, last', hsome, hlow, hlast', hbad'⟩ :=
            fourHex?_append hlast more
          · exact .inl ⟨by simp [hnone], .inl hlow⟩
          · refine .inr ⟨pairBytes high low, last', by simp [hsome], hlast', ?_⟩
            rw [hlow, hbad']
            simp
      · exact .inr ⟨_, tail, rfl, htail, hfirst⟩
    · exact .inr ⟨_, tail, rfl, htail, hfirst⟩

/-- Behind a backslash the decoder goes on with a body, or finds an escape that it does not know. -/
theorem escape?_append {body : Text} (h : Body body) (more : Text) :
    (escape? (b :: (body ++ 34 :: more)) = none ∧ BadEscape (92 :: b :: body)) ∨
      ∃ bytes tail, escape? (b :: (body ++ 34 :: more)) = some (bytes, tail ++ 34 :: more) ∧
        Body tail ∧ (BadEscape (92 :: b :: body) ↔ BadEscape tail) := by
  by_cases hb : b = 117
  · subst hb
    rw [escape?, if_pos rfl]
    exact unicodeEscape?_append h more
  · rw [escape?, if_neg hb, badEscape_escape, startsEscape, if_neg hb]
    cases simpleEscape? b with
    | none => exact .inl ⟨rfl, .inl rfl⟩
    | some x => exact .inr ⟨[x], body, rfl, h, by simp⟩

/-- The decoder reads a body as it is from left to right: it ends at the quote behind it, whatever
follows there, unless it finds an escape that it does not know. -/
theorem readEscaped_body {body : Text} (h : Body body) (read more : Text) :
    (readEscaped read (body ++ 34 :: more) = none ∧ BadEscape body) ∨
      (∃ value, readEscaped read (body ++ 34 :: more) = some (value, more)) ∧ ¬ BadEscape body := by
  -- By the length of the body, because an escape may take several bytes.
  induction hlength : body.length using Nat.strong_induction_on generalizing body read with
  | _ length ih =>
      subst hlength
      cases h with
      | nil =>
          refine .inr ⟨⟨read.reverse, ?_⟩, ?_⟩
          · rw [List.nil_append, readEscaped, if_pos rfl]
          · rintro ⟨before, after, heq, -⟩
            simp at heq
      | @plain c rest hquote hslash hrest =>
          rw [List.cons_append, readEscaped, if_neg hquote, if_neg hslash,
            badEscape_plain hquote hslash]
          exact ih rest.length (by simp) hrest (c :: read) rfl
      | @escape c rest hrest =>
          rw [List.cons_append, List.cons_append]
          obtain ⟨hnone, hbad⟩ | ⟨bytes, tail, hsome, htail, hbad⟩ := escape?_append hrest more
          · refine .inl ⟨?_, hbad⟩
            rw [readEscaped, if_neg (by decide), if_pos rfl]
            split
            · rfl
            · next hsome => cases hnone.symm.trans hsome
          · have hshort := length_of_escape? hsome
            simp only [List.length_cons, List.length_append] at hshort
            rw [readEscaped_escape hsome, hbad]
            exact ih tail.length (by simp only [List.length_cons]; omega) htail _ rfl

/-- A body starts clean if no control byte stands before its first backslash. -/
theorem startsClean_eq_false_iff {body : Text} (h : Body body) (more : Text) :
    startsClean (body ++ 34 :: more) = false ↔ ∃ b ∈ body.takeWhile (· ≠ 92), b < 32 := by
  induction h with
  | nil => simp [startsClean]
  | @plain c rest hquote hslash _ ih =>
      have hclean : startsClean (c :: (rest ++ 34 :: more)) =
          (decide (32 ≤ c) && startsClean (rest ++ 34 :: more)) := by
        simp [startsClean, hquote, hslash]
      have hprefix : (c :: rest).takeWhile (· ≠ 92) = c :: rest.takeWhile (· ≠ 92) := by
        simp [hslash]
      rw [List.cons_append, hclean, hprefix, Bool.and_eq_false_iff, decide_eq_false_iff_not, ih,
        UInt8.not_le]
      simp
  | escape c _ _ => simp [startsClean]

/-- The literal of a body has the value that the decoder reads up to its quote, and no value if a
control byte stands before the first backslash. -/
theorem decodeString?_body {body : Text} (h : Body body) :
    decodeString? (34 :: (body ++ [34])) =
      if startsClean (body ++ [34]) then (readEscaped [] (body ++ [34])).map Prod.fst
      else none := by
  have hraw : (34 :: (body ++ [34])).dropWhile isBlank = 34 :: (body ++ [34]) := rfl
  simp only [decodeString?, hraw]
  obtain ⟨hnone, -⟩ | ⟨⟨value, hsome⟩, -⟩ := readEscaped_body h [] []
  · simp [hnone]
  · simp [hsome, endsClean]

/-- The literal of a body has no value exactly if a control byte stands before the first backslash
or an escape is not known. -/
theorem decodeString?_eq_none_iff {body : Text} (h : Body body) :
    decodeString? (34 :: (body ++ [34])) = none ↔
      (∃ b ∈ body.takeWhile (· ≠ 92), b < 32) ∨ BadEscape body := by
  rw [decodeString?_body h, ← startsClean_eq_false_iff h []]
  obtain ⟨hnone, hbad⟩ | ⟨⟨value, hsome⟩, hbad⟩ := readEscaped_body h [] []
  · simp [hnone, hbad]
  · cases hclean : startsClean (body ++ [34]) <;> simp [hsome, hbad]

end Bodies

/-- A literal that has a value gives it as a text. -/
theorem unquote_eq_ok_iff {raw : Text} {v : Value} :
    unquote raw = .ok v ↔ ∃ value, decodeString? raw = some value ∧ v = .text value := by
  unfold unquote
  cases decodeString? raw with
  | none => simp
  | some value => simp [eq_comm]

/-- A literal that has no value is refused. -/
theorem exists_unquote_eq_error_iff {raw : Text} :
    (∃ i, unquote raw = .error i) ↔ decodeString? raw = none := by
  unfold unquote
  cases decodeString? raw with
  | none => simp
  | some value => simp

/-- A string of a scanned text is a body between quotes, and the body is valid. -/
theorem exists_body_of_scan {s : Source} {ts : List Token} (h : lexicon.lexer.scan s = .ok ts)
    {t : Token} (ht : t ∈ ts) (hkind : t.kind = .string) :
    ∃ body, t.text = 34 :: (body ++ [34]) ∧ Body body ∧ Utf8.Valid body := by
  obtain ⟨cs, pieces, -, hsplits, rfl⟩ := (Lexer.scan_iff_splits rfl rfl s ts).mp h
  obtain ⟨d, chars, hd, htext, hcloses⟩ := hsplits.exists_closes_of_string ht hkind
  obtain rfl := eq_quote_of_role hd
  have hquote : Utf8.encode '"' = [34] := rfl
  refine ⟨Utf8.encodeAll chars, ?_, ?_, chars, rfl⟩
  · rw [htext, Utf8.encodeAll_cons, Utf8.encodeAll_append, Utf8.encodeAll_cons, hquote]
    rfl
  · exact LiteralBody.encodeAll hquote (by decide)
      ((Lexer.closes_iff_literalBody (by decide)).mp hcloses)

namespace Language

/-- Lexer and decoder agree on where a string ends. In a text that is scanned, a string is cut at
its last byte and not before, whether escapes are read bluntly or decoded, and whatever would
follow. So the decoder never misses the closing quote and never finds anything behind it: it fails
only on a control byte before the first backslash and on an escape that it does not know. The value
that it gives is valid. -/
theorem string_token_ends {report : Bool} {l : Language} (h : build report = .ok l) {s : Source}
    {ts : List Token} (hscan : l.grammar.lexer.scan s = .ok ts) {t : Token} (ht : t ∈ ts)
    (hkind : t.kind = .string) :
    ∃ body, t.text = 34 :: (body ++ [34]) ∧
      cutLiteral 92 34 false (body ++ [34]) = some (body, []) ∧
      (∀ more value behind, readEscaped [] (body ++ 34 :: more) = some (value, behind) →
        behind = more) ∧
      (∀ v, l.grammar.parser.stringValue t.text = .ok v → ∃ value, v = .text value ∧
        readEscaped [] (body ++ [34]) = some (value, []) ∧ Utf8.Valid value) ∧
      ((∃ i, l.grammar.parser.stringValue t.text = .error i) ↔
        (∃ b ∈ body.takeWhile (· ≠ 92), b < 32) ∨ BadEscape body) := by
  have hbuilt := built_of_build h
  rw [hbuilt.lexer] at hscan
  obtain ⟨body, htext, hbody, hvalid⟩ := exists_body_of_scan hscan ht hkind
  rw [hbuilt.stringValue, htext]
  refine ⟨body, rfl, (cutLiteral_eq_some_iff (by decide)).mpr ⟨rfl, hbody⟩, ?_, ?_, ?_⟩
  · intro more value behind hread
    obtain ⟨hnone, -⟩ | ⟨⟨value', hsome⟩, -⟩ := readEscaped_body hbody [] more
    · cases hnone.symm.trans hread
    · cases hsome.symm.trans hread
      rfl
  · intro v hv
    obtain ⟨value, hvalue, rfl⟩ := unquote_eq_ok_iff.mp hv
    have hquoted : Utf8.Valid (body ++ [34]) := hvalid.append (.singleton (by decide))
    refine ⟨value, rfl, ?_, valid_of_decodeString? hvalue hquoted⟩
    rw [decodeString?_body hbody] at hvalue
    obtain ⟨hnone, -⟩ | ⟨⟨value', hsome⟩, -⟩ := readEscaped_body hbody [] []
    · simp [hnone] at hvalue
    · simp only [hsome, Option.map_some] at hvalue
      split at hvalue
      · cases hvalue
        exact hsome
      · cases hvalue
  · rw [exists_unquote_eq_error_iff, decodeString?_eq_none_iff hbody]

/-- The string of a lone surrogate and an escaped quote ends at the third quote of its text, and the
value that is read is valid. -/
theorem string_token_ends_surrogate :
    ∃ l, build true = .ok l ∧
      ∃ ts, l.grammar.lexer.scan ⟨utf8 "in", utf8 "\"\\ud800\\\"\""⟩ = .ok ts ∧
        ∃ t ∈ ts, t.kind = .string ∧ ∃ body, t.text = 34 :: (body ++ [34]) ∧
          cutLiteral 92 34 false (body ++ [34]) = some (body, []) ∧
          (∀ more value behind, readEscaped [] (body ++ 34 :: more) = some (value, behind) →
            behind = more) ∧
          (∀ v, l.grammar.parser.stringValue t.text = .ok v → ∃ value, v = .text value ∧
            readEscaped [] (body ++ [34]) = some (value, []) ∧ Utf8.Valid value) ∧
          ((∃ i, l.grammar.parser.stringValue t.text = .error i) ↔
            (∃ b ∈ body.takeWhile (· ≠ 92), b < 32) ∨ BadEscape body) := by
  obtain ⟨l, hl⟩ := exists_build true
  have hbuilt := built_of_build hl
  have hscan : l.grammar.lexer.scan ⟨utf8 "in", utf8 "\"\\ud800\\\"\""⟩ =
      .ok [⟨.string, utf8 "\"\\ud800\\\"\"", utf8 "in", 0, ⟨1, 1⟩⟩] := by
    rw [hbuilt.lexer]
    let body : List Char := ['\\', 'u', 'd', '8', '0', '0', '\\', '"']
    have hdigits : LiteralBody '\\' '"' ['d', '8', '0', '0'] := .of_plain (by simp)
    have hbody : LiteralBody '\\' '"' body := .escape 'u' (hdigits.append (.escape '"' .nil))
    have hcloses := (Lexer.closes_iff_literalBody (by decide)).mpr hbody
    refine (Lexer.scan_iff_splits rfl rfl _ _).mpr
      ⟨'"' :: (body ++ ['"']), [.literal ⟨'"', ⟨0, ⟨1, 1⟩⟩⟩ body], rfl, ?_, ?_⟩
    · rw [lexer_lexicon]
      exact .literal (by decide) hcloses (.nil _)
    · rw [lexer_lexicon]
      decide
  exact ⟨l, hl, _, hscan, _, List.mem_singleton_self _, rfl,
    string_token_ends hl hscan (List.mem_singleton_self _) rfl⟩

end Language

end Tagfold.Json
