import Mathlib.Tactic.IntervalCases
import Tagfold.Json.String
import Tagfold.Proofs.Token.Splitting

/-!
# Reading and writing JSON strings

The literal of a text denotes that text: `decodeString?_encodeString`. What a valid literal denotes
is valid again, `valid_of_decodeString?`, because escapes are cut out around bytes below 128.
-/

namespace Tagfold.Json

open Utf8

/-- Hexadecimal digits are bytes below 128. -/
theorem toNat_lt_of_hexValue? {b : UInt8} {n : Nat} (h : Text.hexValue? b = some n) :
    b.toNat < 128 := by
  by_contra hb
  have hbig : ∀ x : UInt8, x.toNat < 128 → ¬ b ≤ x := by
    intro x hx hle
    have := UInt8.le_iff_toNat_le.mp hle
    omega
  have hnone : Text.hexValue? b = none := by
    simp [Text.hexValue?, hbig 57 (by decide), hbig 102 (by decide), hbig 70 (by decide)]
  rw [hnone] at h
  cases h

/-- Behind a byte below 128, the rest of a valid text is valid. -/
theorem valid_tail {b : UInt8} {t : Text} (h : Valid (b :: t)) (hb : b.toNat < 128) : Valid t :=
  (Valid.split (s := []) h hb).2

/-- Four hexadecimal digits of a valid text leave a valid one. -/
theorem valid_of_fourHex? {t rest : Text} {n : Nat} (h : fourHex? t = some (n, rest))
    (ht : Valid t) : Valid rest := by
  unfold fourHex? at h
  split at h
  · simp only [Option.bind_eq_bind, Option.bind_eq_some_iff, Option.pure_def, Option.some.injEq,
      Prod.mk.injEq] at h
    obtain ⟨_, ha, _, hb, _, hc, _, hd, -, rfl⟩ := h
    have h₁ := valid_tail ht (toNat_lt_of_hexValue? ha)
    have h₂ := valid_tail h₁ (toNat_lt_of_hexValue? hb)
    have h₃ := valid_tail h₂ (toNat_lt_of_hexValue? hc)
    exact valid_tail h₃ (toNat_lt_of_hexValue? hd)
  · cases h

/-- The bytes of a surrogate and the code unit behind it are valid. -/
theorem valid_pairBytes (high low : Nat) : Valid (pairBytes high low) := by
  unfold pairBytes
  split
  · exact .encode _
  · exact (Valid.encode _).append (.encode _)

/-- An escape by number in a valid text denotes a valid text and leaves one. -/
theorem valid_of_unicodeEscape? {t bytes rest : Text} (h : unicodeEscape? t = some (bytes, rest))
    (ht : Valid t) : Valid bytes ∧ Valid rest := by
  simp only [unicodeEscape?, Option.bind_eq_bind, Option.bind_eq_some_iff, Prod.exists] at h
  obtain ⟨high, mid, hhigh, h⟩ := h
  have hmid := valid_of_fourHex? hhigh ht
  split at h
  · split at h
    · next behind =>
        simp only [Option.bind_eq_some_iff, Prod.exists, Option.pure_def, Option.some.injEq,
          Prod.mk.injEq] at h
        obtain ⟨low, last, hlow, rfl, rfl⟩ := h
        have hbehind := valid_tail (valid_tail hmid (by decide)) (by decide)
        exact ⟨valid_pairBytes high low, valid_of_fourHex? hlow hbehind⟩
    · cases h
      exact ⟨.encode _, hmid⟩
  · cases h
    exact ⟨.encode _, hmid⟩

/-- One-letter escapes are bytes below 128, and stand for such bytes. -/
theorem toNat_lt_of_simpleEscape? {b x : UInt8} (h : simpleEscape? b = some x) :
    b.toNat < 128 ∧ x.toNat < 128 := by
  have hall : [((34 : UInt8), (34 : UInt8)), (92, 92), (47, 47), (98, 8), (102, 12), (110, 10),
      (114, 13), (116, 9)].all (fun p ↦ p.1.toNat < 128 && p.2.toNat < 128) = true := rfl
  obtain ⟨before, behind, hlist, -⟩ := List.lookup_eq_some_iff.mp h
  simpa using List.all_eq_true.mp hall (b, x) (by simp [hlist])

/-- An escape in a valid text denotes a valid text and leaves one. -/
theorem valid_of_escape? {t bytes rest : Text} (h : escape? t = some (bytes, rest))
    (ht : Valid t) : Valid bytes ∧ Valid rest := by
  unfold escape? at h
  split at h
  · cases h
  · next b tail =>
      split at h
      · next hb =>
          subst hb
          exact valid_of_unicodeEscape? h (valid_tail ht (by decide))
      · simp only [Option.map_eq_some_iff, Prod.mk.injEq] at h
        obtain ⟨x, hx, rfl, rfl⟩ := h
        obtain ⟨hb, hx⟩ := toNat_lt_of_simpleEscape? hx
        exact ⟨.singleton hx, valid_tail ht hb⟩

/-- Bytes that are read from a valid text up to the closing quote are valid behind valid ones. -/
theorem valid_of_readEscaped {read t value rest : Text}
    (h : readEscaped read t = some (value, rest))
    (ht : Valid (read.reverse ++ t)) : Valid value := by
  fun_induction readEscaped read t with
  | case1 read => cases h
  | case2 read rest' =>
      cases h
      exact (ht.split (by decide)).1
  | case3 read rest' hescape => cases h
  | case4 read rest' bytes behind hescape hne ih =>
      -- The bytes so far and those behind the backslash are valid each for itself.
      obtain ⟨hread, hrest⟩ := ht.split (by decide)
      obtain ⟨hbytes, hbehind⟩ := valid_of_escape? hescape hrest
      refine ih h ?_
      rw [List.reverse_append, List.reverse_reverse]
      exact (hread.append hbytes).append hbehind
  | case5 read b rest' hquote hslash ih =>
      refine ih h ?_
      rwa [List.reverse_cons, List.append_assoc, List.singleton_append]

/-- What a valid literal denotes is valid. -/
theorem valid_of_decodeString? {body value : Text} (h : decodeString? (34 :: body) = some value)
    (hbody : Valid body) : Valid value := by
  have hraw : (34 :: body).dropWhile isBlank = 34 :: body := rfl
  simp only [decodeString?, hraw] at h
  split at h
  · split at h
    · next read rest hread =>
        split at h
        · cases h
          exact valid_of_readEscaped hread hbody
        · cases h
    · cases h
  · cases h

/-- An escape is read as its bytes. -/
theorem readEscaped_escape {t bytes rest : Text} (h : escape? t = some (bytes, rest))
    (read : Text) :
    readEscaped read (92 :: t) = readEscaped (bytes.reverse ++ read) rest := by
  rw [readEscaped, if_neg (by decide), if_pos rfl]
  split
  · next hnone => rw [h] at hnone; cases hnone
  · next hsome =>
      rw [h] at hsome
      cases hsome
      rfl

/-- The spelling is an escape of the byte: a backslash, a byte, and more bytes that are neither
quotes nor backslashes. -/
def IsEscape (b : UInt8) (spelling : Text) : Prop :=
  ∃ x tail, spelling = 92 :: x :: tail ∧ x.toNat < 128 ∧
    (∀ y ∈ tail, y.toNat < 128 ∧ y ≠ 34 ∧ y ≠ 92) ∧
    ∀ behind, escape? (x :: tail ++ behind) = some ([b], behind)

/-- The escape of a control byte by its number. -/
theorem isEscape_control {n : Nat} (h : n < 32) :
    IsEscape (UInt8.ofNat n) (utf8 "\\u" ++ Text.hex 4 n) := by
  have hread : ∀ behind,
      escape? (117 :: Text.hex 4 n ++ behind) = some ([UInt8.ofNat n], behind) := by
    intro behind
    interval_cases n <;> rfl
  have hall : (Text.hex 4 n).all (fun y ↦ y.toNat < 128 && y != 34 && y != 92) = true := by
    interval_cases n <;> rfl
  have htail : ∀ y ∈ Text.hex 4 n, y.toNat < 128 ∧ y ≠ 34 ∧ y ≠ 92 := by
    intro y hy
    simpa [and_assoc] using List.all_eq_true.mp hall y hy
  exact ⟨117, _, rfl, by decide, htail, hread⟩

/-- A byte is spelled as itself or with an escape. -/
theorem encodeByte_cases (b : UInt8) :
    (encodeByte b = [b] ∧ b ≠ 34 ∧ b ≠ 92 ∧ 32 ≤ b) ∨ IsEscape b (encodeByte b) := by
  unfold encodeByte
  split_ifs with hmark hnewline hreturn htab hcontrol
  · rcases hmark with rfl | rfl <;>
      exact .inr ⟨_, [], rfl, by decide, nofun, fun _ ↦ rfl⟩
  · subst hnewline
    exact .inr ⟨110, [], rfl, by decide, nofun, fun _ ↦ rfl⟩
  · subst hreturn
    exact .inr ⟨114, [], rfl, by decide, nofun, fun _ ↦ rfl⟩
  · subst htab
    exact .inr ⟨116, [], rfl, by decide, nofun, fun _ ↦ rfl⟩
  · have hescape := isEscape_control (UInt8.lt_iff_toNat_lt.mp hcontrol)
    rw [UInt8.ofNat_toNat] at hescape
    exact .inr hescape
  · rw [not_or] at hmark
    exact .inl ⟨rfl, hmark.1, hmark.2, UInt8.not_lt.mp hcontrol⟩

/-- The spelling of a byte is read as that byte. -/
theorem readEscaped_encodeByte (read : Text) (b : UInt8) (rest : Text) :
    readEscaped read (encodeByte b ++ rest) = readEscaped (b :: read) rest := by
  rcases encodeByte_cases b with ⟨hplain, hquote, hslash, -⟩ | hescape
  · rw [hplain, List.singleton_append, readEscaped, if_neg hquote, if_neg hslash]
  · obtain ⟨x, tail, hspelling, -, -, hread⟩ := hescape
    rw [hspelling, List.cons_append, readEscaped_escape (hread rest)]
    rfl

/-- The spellings of bytes are read as those bytes, up to the closing quote. -/
theorem readEscaped_flatMap (read t rest : Text) :
    readEscaped read (t.flatMap encodeByte ++ 34 :: rest) = some (read.reverse ++ t, rest) := by
  induction t generalizing read with
  | nil => rw [List.flatMap_nil, List.nil_append, readEscaped, if_pos rfl, List.append_nil]
  | cons b t ih =>
      rw [List.flatMap_cons, List.append_assoc, readEscaped_encodeByte, ih, List.reverse_cons,
        List.append_assoc, List.singleton_append]

/-- No control byte stands in a literal before its first backslash. -/
theorem startsClean_flatMap (t rest : Text) :
    startsClean (t.flatMap encodeByte ++ 34 :: rest) = true := by
  induction t with
  | nil => rfl
  | cons b t ih =>
      rw [List.flatMap_cons, List.append_assoc]
      rcases encodeByte_cases b with ⟨hplain, -, -, hb⟩ | hescape
      · simp [hplain, startsClean, hb, ih]
      · obtain ⟨x, tail, hspelling, -⟩ := hescape
        rw [hspelling]
        rfl

/-- The literal of a text denotes that text. -/
theorem decodeString?_encodeString (t : Text) : decodeString? (encodeString t) = some t := by
  have hraw : (encodeString t).dropWhile isBlank = 34 :: (t.flatMap encodeByte ++ [34]) := rfl
  simp only [decodeString?, hraw, startsClean_flatMap, readEscaped_flatMap, if_true]
  rfl

/-- Bytes from 128 on are spelled as themselves. -/
theorem flatMap_encodeByte {t : Text} (h : ∀ b ∈ t, 128 ≤ b.toNat) : t.flatMap encodeByte = t := by
  induction t with
  | nil => rfl
  | cons b t ih =>
      have hb := h b List.mem_cons_self
      have hne : ∀ x : UInt8, x.toNat < 128 → b ≠ x := by
        rintro x hx rfl
        omega
      have hcontrol : ¬ b < 32 := fun hlt ↦ by
        have : b.toNat < 32 := UInt8.lt_iff_toNat_lt.mp hlt
        omega
      have hplain : encodeByte b = [b] := by
        simp [encodeByte, hne 34 (by decide), hne 92 (by decide), hne 10 (by decide),
          hne 13 (by decide), hne 9 (by decide), hcontrol]
      rw [List.flatMap_cons, hplain, ih fun a ha ↦ h a (List.mem_cons_of_mem _ ha)]
      rfl

/-- Different bytes below 128 are different characters. -/
theorem ofNat_toNat_ne {b x : UInt8} {c : Char} (hb : b.toNat < 128) (hc : encode c = [x])
    (h : b ≠ x) : Char.ofNat b.toNat ≠ c := by
  rintro rfl
  rw [encode_ofNat_toNat hb] at hc
  exact h (List.head_eq_of_cons_eq hc)

/-- An escape is made of bytes below 128. -/
theorem IsEscape.ascii {b : UInt8} {t : Text} (h : IsEscape b t) : ∀ y ∈ t, y.toNat < 128 := by
  obtain ⟨x, tail, rfl, hx, htail, -⟩ := h
  intro y hy
  rcases List.mem_cons.mp hy with rfl | hy
  · decide
  · rcases List.mem_cons.mp hy with rfl | hy
    · exact hx
    · exact (htail y hy).1

/-- An escape behind the body of a literal keeps that it can be closed. -/
theorem IsEscape.closes {b : UInt8} {t : Text} (h : IsEscape b t) {body : List Char}
    (hbody : Lexer.Closes '"' body) :
    Lexer.Closes '"' (body ++ t.map fun b ↦ Char.ofNat b.toNat) := by
  obtain ⟨x, tail, rfl, -, htail, -⟩ := h
  have hescape := hbody.append_escape (by decide) (Char.ofNat x.toNat)
  have hplain : ∀ c ∈ tail.map fun b ↦ Char.ofNat b.toNat, c ≠ '"' ∧ c ≠ '\\' := by
    intro c hc
    obtain ⟨y, hy, rfl⟩ := List.mem_map.mp hc
    obtain ⟨hascii, hquote, hslash⟩ := htail y hy
    exact ⟨ofNat_toNat_ne hascii rfl hquote, ofNat_toNat_ne hascii rfl hslash⟩
  have hall := hescape.append_plain hplain
  rwa [List.append_assoc] at hall

/-- The spelling of a character is valid, and keeps that a literal can be closed. -/
theorem exists_spelling (c : Char) :
    ∃ cs, (encode c).flatMap encodeByte = encodeAll cs ∧
      ∀ body, Lexer.Closes '"' body → Lexer.Closes '"' (body ++ cs) := by
  -- The character itself, if its bytes are spelled as they are and none is a quote or a backslash.
  have hself : (encode c).flatMap encodeByte = encode c → 34 ∉ encode c → 92 ∉ encode c →
      ∃ cs, (encode c).flatMap encodeByte = encodeAll cs ∧
        ∀ body, Lexer.Closes '"' body → Lexer.Closes '"' (body ++ cs) := by
    intro hsame hquote hslash
    refine ⟨[c], by rw [hsame, encodeAll_cons, encodeAll_nil, List.append_nil], fun body hbody ↦ ?_⟩
    refine hbody.concat ?_ ?_
    · rintro rfl
      exact hquote (by decide)
    · rintro rfl
      exact hslash (by decide)
  rcases encode_cases c with ⟨-, hbytes⟩ | hbytes
  · rcases encodeByte_cases (UInt8.ofNat c.val.toNat) with ⟨hplain, hquote, hslash, -⟩ | hescape
    · apply hself
      · rw [hbytes, List.flatMap_singleton, hplain]
      · rw [hbytes, List.mem_singleton]
        exact hquote.symm
      · rw [hbytes, List.mem_singleton]
        exact hslash.symm
    · refine ⟨_, ?_, fun body hbody ↦ hescape.closes hbody⟩
      rw [hbytes, List.flatMap_singleton, encodeAll_map_ofNat hescape.ascii]
  · apply hself (flatMap_encodeByte hbytes)
    · intro hmem
      exact absurd (hbytes 34 hmem) (by decide)
    · intro hmem
      exact absurd (hbytes 92 hmem) (by decide)

/-- The literal of a valid text is a quote, a body that can be closed, and a quote. -/
theorem exists_literal {t : Text} (h : Valid t) :
    ∃ body, encodeString t = encodeAll ('"' :: (body ++ ['"'])) ∧ Lexer.Closes '"' body := by
  obtain ⟨cs, rfl⟩ := h
  suffices hs : ∃ body, (encodeAll cs).flatMap encodeByte = encodeAll body ∧
      ∀ before, Lexer.Closes '"' before → Lexer.Closes '"' (before ++ body) by
    obtain ⟨body, hbody, hcloses⟩ := hs
    refine ⟨body, ?_, hcloses [] Lexer.closes_nil⟩
    rw [encodeString, hbody, encodeAll_cons, encodeAll_append]
    rfl
  induction cs with
  | nil => exact ⟨[], rfl, fun before h ↦ by rwa [List.append_nil]⟩
  | cons c cs ih =>
      obtain ⟨spelling, hspelling, hfirst⟩ := exists_spelling c
      obtain ⟨body, hbody, hrest⟩ := ih
      refine ⟨spelling ++ body, ?_, fun before h ↦ ?_⟩
      · rw [encodeAll_cons, List.flatMap_append, hspelling, hbody, encodeAll_append]
      · rw [← List.append_assoc]
        exact hrest _ (hfirst before h)

end Tagfold.Json
