import Tagfold.Text.Utf8

/-!
# Reading and writing characters

Encoding and decoding of texts undo each other. Read `decode_eq_map_scalar_iff` first: a text
decodes to scalar values only exactly if it is their encoding, so that valid UTF-8 can be spoken of
without mentioning the decoder. `bytes_decode` says that decoding loses nothing, also where a text
is not valid. `Valid.split` says that valid texts can be cut around every byte below 128.
-/

namespace Tagfold.Utf8

/-- The character with the number of a character is that character. -/
theorem ofNat_val_toNat (c : Char) : Char.ofNat c.val.toNat = c :=
  Char.ofNat_toNat c

/-- The number of a byte below 256 is kept. -/
theorem toNat_ofNat_byte {n : Nat} (h : n < 256) : (UInt8.ofNat n).toNat = n := by
  simp only [UInt8.toNat_ofNat']
  omega

/-- The encoding of a character is found at the head of a text, whatever follows. -/
theorem head?_encode_append (c : Char) (rest : Text) : head? (encode c ++ rest) = some c := by
  -- The guess made from the leading bytes is the number of `c`; the comparison then succeeds.
  suffices h : ∃ b tail, encode c ++ rest = b :: tail ∧
      (tail.take ((lead b).1 - 1)).foldl (fun v x ↦ 64 * v + x.toNat % 64) (lead b).2
        = c.val.toNat by
    obtain ⟨b, tail, hbytes, hvalue⟩ := h
    rw [hbytes]
    simp only [head?, hvalue, ofNat_val_toNat]
    rw [if_pos]
    rw [← hbytes, List.isPrefixOf_iff_prefix]
    exact List.prefix_append _ _
  have hmax : c.val.toNat < 0x110000 := by
    rcases c.valid with h | h
    · omega
    · exact h.2
  unfold encode String.utf8EncodeChar
  simp only
  split
  · refine ⟨UInt8.ofNat c.val.toNat, rest, rfl, ?_⟩
    rw [lead, toNat_ofNat_byte (by omega), if_pos (by omega)]
    rfl
  · split
    · refine ⟨UInt8.ofNat (c.val.toNat / 64 % 32 + 192),
        UInt8.ofNat (c.val.toNat % 64 + 128) :: rest, rfl, ?_⟩
      rw [lead, toNat_ofNat_byte (by omega), if_neg (by omega), if_pos (by omega)]
      simp only [List.take_succ_cons, List.take_zero, List.foldl_cons, List.foldl_nil,
        Nat.add_one_sub_one]
      rw [toNat_ofNat_byte (by omega)]
      omega
    · split
      · refine ⟨UInt8.ofNat (c.val.toNat / 4096 % 16 + 224),
          UInt8.ofNat (c.val.toNat / 64 % 64 + 128) :: UInt8.ofNat (c.val.toNat % 64 + 128) :: rest,
          rfl, ?_⟩
        rw [lead, toNat_ofNat_byte (by omega), if_neg (by omega), if_neg (by omega),
          if_pos (by omega)]
        simp only [List.take_succ_cons, List.take_zero, List.foldl_cons, List.foldl_nil,
          Nat.add_one_sub_one]
        rw [toNat_ofNat_byte (by omega), toNat_ofNat_byte (by omega)]
        omega
      · refine ⟨UInt8.ofNat (c.val.toNat / 262144 % 8 + 240),
          UInt8.ofNat (c.val.toNat / 4096 % 64 + 128) ::
            UInt8.ofNat (c.val.toNat / 64 % 64 + 128) ::
              UInt8.ofNat (c.val.toNat % 64 + 128) :: rest, rfl, ?_⟩
        rw [lead, toNat_ofNat_byte (by omega), if_neg (by omega), if_neg (by omega),
          if_neg (by omega)]
        simp only [List.take_succ_cons, List.take_zero, List.foldl_cons, List.foldl_nil,
          Nat.add_one_sub_one]
        rw [toNat_ofNat_byte (by omega), toNat_ofNat_byte (by omega), toNat_ofNat_byte (by omega)]
        omega

/-- A character found at the head of a text is encoded there. -/
theorem encode_prefix_of_head? {t : Text} {c : Char} (h : head? t = some c) : encode c <+: t := by
  cases t with
  | nil => simp [head?] at h
  | cons b rest =>
      simp only [head?] at h
      split at h
      · next hprefix =>
          cases h
          exact List.isPrefixOf_iff_prefix.mp hprefix
      · cases h

/-- Every character has at least one byte. -/
theorem encode_ne_nil (c : Char) : encode c ≠ [] :=
  String.utf8EncodeChar_ne_nil

/-- The first rune of a text stands at its head, byte for byte. -/
theorem bytes_first_prefix (b : UInt8) (rest : Text) : (first b rest).bytes <+: b :: rest := by
  unfold first
  split
  · next c h => exact encode_prefix_of_head? h
  · exact ⟨rest, rfl⟩

/-- Every rune has at least one byte. -/
theorem bytes_ne_nil (r : Rune) : r.bytes ≠ [] := by
  cases r with
  | scalar c => exact encode_ne_nil c
  | stray b => simp [Rune.bytes]

/-- Reading adds the same runes to whatever was read before. -/
theorem decodeOnto_adds (read : List Rune) (t : Text) :
    ∃ added, ∀ read', decodeOnto read' t = added ++ read' := by
  fun_induction decodeOnto read t with
  | case1 read => exact ⟨[], fun read' ↦ by simp [decodeOnto]⟩
  | case2 read b rest r ih =>
      obtain ⟨added, h⟩ := ih
      refine ⟨added ++ [r], fun read' ↦ ?_⟩
      rw [decodeOnto, h]
      simp [r]

/-- Runes already read stand before those that are read. -/
theorem decodeOnto_eq (read : List Rune) (t : Text) :
    decodeOnto read t = (decode t).reverse ++ read := by
  obtain ⟨added, h⟩ := decodeOnto_adds read t
  simp [decode, h]

/-- The empty text has no runes. -/
@[simp] theorem decode_nil : decode [] = [] := by
  simp [decode, decodeOnto]

/-- A text is read rune by rune. -/
theorem decode_cons (b : UInt8) (rest : Text) :
    decode (b :: rest) = first b rest :: decode (rest.drop ((first b rest).size - 1)) := by
  rw [decode, decodeOnto, decodeOnto_eq]
  simp

/-- A character before a text is read as that character. -/
theorem decode_encode_append (c : Char) (t : Text) :
    decode (encode c ++ t) = .scalar c :: decode t := by
  obtain ⟨b, tail, hbytes⟩ := List.exists_cons_of_ne_nil (encode_ne_nil c)
  have hfirst : first b (tail ++ t) = .scalar c := by
    have h := head?_encode_append c t
    rw [hbytes, List.cons_append] at h
    simp [first, h]
  have hsize : (Rune.scalar c).size - 1 = tail.length := by
    simp [Rune.size, Rune.bytes, hbytes]
  rw [hbytes, List.cons_append, decode_cons, hfirst, hsize, List.drop_left]

/-- Encodings are joined by joining their characters. -/
@[simp] theorem encodeAll_append (cs ds : List Char) :
    encodeAll (cs ++ ds) = encodeAll cs ++ encodeAll ds :=
  List.flatMap_append

/-- The encoding of a character and those behind it. -/
@[simp] theorem encodeAll_cons (c : Char) (cs : List Char) :
    encodeAll (c :: cs) = encode c ++ encodeAll cs :=
  List.flatMap_cons

/-- No characters have no bytes. -/
@[simp] theorem encodeAll_nil : encodeAll [] = [] := rfl

/-- Characters before a text are read as those characters. -/
theorem decode_encodeAll_append (cs : List Char) (t : Text) :
    decode (encodeAll cs ++ t) = cs.map .scalar ++ decode t := by
  induction cs with
  | nil => rfl
  | cons c cs ih =>
      rw [encodeAll_cons, List.append_assoc, decode_encode_append, ih]
      rfl

/-- Decoding undoes encoding. -/
theorem decode_encodeAll (cs : List Char) : decode (encodeAll cs) = cs.map .scalar := by
  simpa using decode_encodeAll_append cs []

/-- The bytes of the runes of a text are the text. -/
theorem bytes_decode (t : Text) : (decode t).flatMap Rune.bytes = t := by
  generalize hn : t.length = n
  induction n using Nat.strongRecOn generalizing t with
  | ind n ih =>
      cases t with
      | nil => simp
      | cons b rest =>
          obtain ⟨behind, hbytes⟩ := bytes_first_prefix b rest
          obtain ⟨x, tail, htail⟩ := List.exists_cons_of_ne_nil (bytes_ne_nil (first b rest))
          have hrest : rest = tail ++ behind := by
            rw [htail] at hbytes
            exact (List.cons.inj hbytes).2.symm
          have hdrop : rest.drop ((first b rest).size - 1) = behind := by
            rw [Rune.size, htail, hrest]
            simp
          have hshort : behind.length < n := by
            simp only [← hn, hrest, List.length_cons, List.length_append]
            omega
          rw [decode_cons, List.flatMap_cons, hdrop, ih _ hshort behind rfl, hbytes]

/-- A text is the encoding of characters exactly if it is read as those characters. -/
theorem decode_eq_map_scalar_iff {t : Text} {cs : List Char} :
    decode t = cs.map .scalar ↔ t = encodeAll cs := by
  constructor
  · intro h
    rw [← bytes_decode t, h, List.flatMap_map]
    rfl
  · rintro rfl
    exact decode_encodeAll cs

/-- A text without stray bytes is the encoding of characters. -/
theorem exists_encodeAll_of_no_stray {t : Text} (h : ∀ b, Rune.stray b ∉ decode t) :
    ∃ cs, t = encodeAll cs := by
  suffices hs : ∃ cs : List Char, decode t = cs.map .scalar by
    obtain ⟨cs, hcs⟩ := hs
    exact ⟨cs, decode_eq_map_scalar_iff.mp hcs⟩
  generalize decode t = runes at h
  induction runes with
  | nil => exact ⟨[], rfl⟩
  | cons r rs ih =>
      obtain ⟨cs, rfl⟩ := ih fun b hb ↦ h b (List.mem_cons_of_mem _ hb)
      cases r with
      | scalar c => exact ⟨c :: cs, rfl⟩
      | stray b => exact absurd List.mem_cons_self (h b)

/-- The characters of an encoding are the encoded ones. -/
theorem chars_encodeAll (cs : List Char) : chars (encodeAll cs) = cs := by
  rw [chars, decode_encodeAll, List.map_map]
  simp [Function.comp_def, Rune.char]

/-- An encoding is valid and has the encoded characters. -/
theorem chars?_encodeAll (cs : List Char) : chars? (encodeAll cs) = some cs := by
  rw [chars?, decode_encodeAll]
  induction cs with
  | nil => rfl
  | cons c cs ih => simp [ih]

/-- A character below 128 is one byte, and the bytes of every other character are at least 128. -/
theorem encode_cases (c : Char) :
    (c.val.toNat < 128 ∧ encode c = [UInt8.ofNat c.val.toNat]) ∨ ∀ b ∈ encode c, 128 ≤ b.toNat := by
  unfold encode String.utf8EncodeChar
  simp only
  split
  · exact .inl ⟨by omega, rfl⟩
  · refine .inr fun b hb ↦ ?_
    split at hb
    · simp only [List.mem_cons, List.not_mem_nil, or_false] at hb
      rcases hb with rfl | rfl <;> rw [toNat_ofNat_byte (by omega)] <;> omega
    · split at hb
      · simp only [List.mem_cons, List.not_mem_nil, or_false] at hb
        rcases hb with rfl | rfl | rfl <;> rw [toNat_ofNat_byte (by omega)] <;> omega
      · simp only [List.mem_cons, List.not_mem_nil, or_false] at hb
        rcases hb with rfl | rfl | rfl | rfl <;> rw [toNat_ofNat_byte (by omega)] <;> omega

/-- A byte below 128 is the encoding of a character. -/
theorem encode_ofNat_toNat {b : UInt8} (h : b.toNat < 128) : encode (Char.ofNat b.toNat) = [b] := by
  have hval : (Char.ofNat b.toNat).val.toNat = b.toNat := by
    have hvalid : b.toNat.isValidChar := .inl (by omega)
    rw [Char.ofNat, dif_pos hvalid]
    rfl
  rw [encode, String.utf8EncodeChar, hval, if_pos (by omega), UInt8.ofNat_toNat]

/-- Bytes below 128 are the encodings of characters, one by one. -/
theorem encodeAll_map_ofNat {t : Text} (h : ∀ b ∈ t, b.toNat < 128) :
    encodeAll (t.map fun b ↦ Char.ofNat b.toNat) = t := by
  induction t with
  | nil => rfl
  | cons b t ih =>
      rw [List.map_cons, encodeAll_cons, encode_ofNat_toNat (h b List.mem_cons_self),
        ih fun a ha ↦ h a (List.mem_cons_of_mem _ ha)]
      rfl

/-- The text is valid UTF-8. -/
def Valid (t : Text) : Prop := ∃ cs, t = encodeAll cs

namespace Valid

variable {s t : Text}

/-- Valid texts can be joined. -/
theorem append (hs : Valid s) (ht : Valid t) : Valid (s ++ t) := by
  obtain ⟨cs, rfl⟩ := hs
  obtain ⟨ds, rfl⟩ := ht
  exact ⟨cs ++ ds, (encodeAll_append cs ds).symm⟩

/-- A single character is valid. -/
theorem encode (c : Char) : Valid (encode c) :=
  ⟨[c], (List.append_nil _).symm⟩

/-- A byte below 128 is valid. -/
theorem singleton {b : UInt8} (h : b.toNat < 128) : Valid [b] := by
  rw [← encode_ofNat_toNat h]
  exact encode _

/-- A valid text can be cut around every byte below 128. -/
theorem split {b : UInt8} (h : Valid (s ++ b :: t)) (hb : b.toNat < 128) : Valid s ∧ Valid t := by
  obtain ⟨cs, hcs⟩ := h
  induction cs generalizing s with
  | nil => simp at hcs
  | cons c cs ih =>
      rw [encodeAll_cons] at hcs
      rcases List.append_eq_append_iff.mp hcs with ⟨u, hu, hrest⟩ | ⟨u, rfl, hrest⟩
      · rcases u with _ | ⟨x, u⟩
        · rw [List.append_nil] at hu
          have ht := (ih (s := []) hrest).2
          exact ⟨hu ▸ encode c, ht⟩
        · -- The byte belongs to the first character, which is then that byte.
          obtain ⟨rfl, rfl⟩ := List.cons.inj hrest
          rcases encode_cases c with ⟨-, hbytes⟩ | hbytes
          · rw [hbytes] at hu
            have hnil : s = [] ∧ u = [] := by
              have := congrArg List.length hu
              simp at this
              constructor <;> apply List.eq_nil_of_length_eq_zero <;> omega
            rw [hnil.1, hnil.2]
            exact ⟨⟨[], rfl⟩, ⟨cs, rfl⟩⟩
          · have := hbytes b (by simp [hu])
            omega
      · obtain ⟨hu, ht⟩ := ih hrest.symm
        exact ⟨(encode c).append hu, ht⟩

end Valid

end Tagfold.Utf8
