import Mathlib.Data.List.Induction
import Tagfold.Proofs.Text.Utf8

/-!
# Cutting texts between and inside of runes

A text can be cut at any byte. `decode_spell_append` says that the runes before the cut stay as they
are if the cut is between runes, or inside of the rune behind them; and the part of a character that
a cut leaves over is read byte by byte, none of which starts a character (`decode_cut`). So the end
of a text tells its last character: `lastSize_append_encode`. Every offset into a text makes such a
`Cut` (`exists_cut`), and those that leave nothing over are the offsets that reading rune by rune
comes to: `boundary_iff`.
-/

namespace Tagfold

namespace Utf8

/-- The text that runes were read from. -/
def spell (runes : List Rune) : Text :=
  runes.flatMap Rune.bytes

/-- No runes have no bytes. -/
@[simp] theorem spell_nil : spell [] = [] := rfl

/-- The bytes of a rune and those behind it. -/
@[simp] theorem spell_cons (r : Rune) (runes : List Rune) :
    spell (r :: runes) = r.bytes ++ spell runes :=
  List.flatMap_cons

/-- Texts are joined by joining their runes. -/
@[simp] theorem spell_append (runes more : List Rune) :
    spell (runes ++ more) = spell runes ++ spell more :=
  List.flatMap_append

/-- Characters are spelled by their encodings. -/
theorem spell_map_scalar (cs : List Char) : spell (cs.map .scalar) = encodeAll cs :=
  List.flatMap_map ..

/-- The runes of a text spell it. -/
theorem spell_decode (t : Text) : spell (decode t) = t :=
  bytes_decode t

section Prefixes

variable {b : UInt8} {rest rest' : Text}

/-- The first rune of a text is the first rune of every part of it that the rune fits into. -/
theorem first_of_fits (h : rest' <+: rest) (hsize : (first b rest).size ≤ rest'.length + 1) :
    first b rest' = first b rest := by
  have hprefix : b :: rest' <+: b :: rest := (List.prefix_cons_inj b).mpr h
  cases hhead : head? (b :: rest) with
  | some c =>
      have hscalar : first b rest = .scalar c := by simp [first, hhead]
      rw [hscalar] at hsize ⊢
      have hfits : encode c <+: b :: rest' :=
        List.prefix_of_prefix_length_le (encode_prefix_of_head? hhead) hprefix hsize
      obtain ⟨behind, hbehind⟩ := hfits
      have hhead' := head?_encode_append c behind
      rw [hbehind] at hhead'
      simp [first, hhead']
  | none =>
      -- What starts the part also starts the whole.
      have hhead' : head? (b :: rest') = none := by
        rw [Option.eq_none_iff_forall_ne_some]
        intro c hc
        obtain ⟨behind, hbehind⟩ := (encode_prefix_of_head? hc).trans hprefix
        have hwhole := head?_encode_append c behind
        rw [hbehind, hhead] at hwhole
        cases hwhole
      simp [first, hhead, hhead']

variable {t u : Text} {before behind : List Rune}

/-- Behind some of its runes, a text is read as the others. -/
theorem decode_spell (h : decode t = before ++ behind) : decode (spell behind) = behind := by
  induction before generalizing t with
  | nil =>
      have ht := spell_decode t
      rw [h, List.nil_append] at ht
      rw [ht]
      exact h
  | cons r before ih =>
      cases t with
      | nil => simp at h
      | cons b rest =>
          rw [decode_cons, List.cons_append] at h
          exact ih (List.cons.inj h).2

/-- A cut behind some runes of a text, or within the next one, leaves these runes. -/
theorem decode_spell_append (h : decode t = before ++ behind) (hu : u <+: spell behind) :
    decode (spell before ++ u) = before ++ decode u := by
  induction before generalizing t with
  | nil => rfl
  | cons r before ih =>
      cases t with
      | nil => simp at h
      | cons b rest =>
          have hspell : spell (r :: before) ++ spell behind = b :: rest := by
            rw [← spell_append, List.cons_append, ← List.cons_append, ← h, spell_decode]
          rw [decode_cons, List.cons_append] at h
          obtain ⟨hfirst, hrest⟩ := List.cons.inj h
          obtain ⟨x, tail, hbytes⟩ := List.exists_cons_of_ne_nil (bytes_ne_nil r)
          have hcut : tail ++ (spell before ++ u) <+: rest := by
            rw [spell_cons, hbytes, List.cons_append, List.cons_append] at hspell
            rw [← (List.cons.inj hspell).2, List.append_assoc, List.prefix_append_right_inj,
              List.prefix_append_right_inj]
            exact hu
          have hx : x = b := by
            rw [spell_cons, hbytes, List.cons_append, List.cons_append] at hspell
            exact (List.cons.inj hspell).1
          have hsize : r.size - 1 = tail.length := by
            simp [Rune.size, hbytes]
          have hread : first b (tail ++ (spell before ++ u)) = r := by
            rw [first_of_fits hcut, hfirst]
            rw [hfirst, Rune.size, hbytes]
            simp
          rw [spell_cons, hbytes, hx, List.cons_append, List.cons_append, List.append_assoc,
            decode_cons, hread, hsize, List.drop_left, ih hrest]
          rfl

/-- A text that is cut between runes is read as those before the cut. -/
theorem decode_spell_left (h : decode t = before ++ behind) : decode (spell before) = before := by
  have hcut := decode_spell_append h List.nil_prefix
  simpa using hcut

end Prefixes

/-- The byte continues the spelling of a character, and starts none. -/
def Continues (b : UInt8) : Prop :=
  128 ≤ b.toNat ∧ b.toNat < 192

section Continuation

variable {c : Char} {t u : Text}

/-- All bytes of a character but the first one continue it. -/
theorem exists_encode_eq_cons (c : Char) :
    ∃ b tail, encode c = b :: tail ∧ ¬ Continues b ∧ ∀ x ∈ tail, Continues x := by
  have hmax : c.val.toNat < 0x110000 := by
    rcases c.valid with h | h
    · omega
    · exact h.2
  have hlow {n : Nat} (hn : n < 64) : Continues (UInt8.ofNat (n + 128)) := by
    rw [Continues, toNat_ofNat_byte (by omega)]
    omega
  have hlead {n : Nat} (hn : n < 128 ∨ 192 ≤ n) (hbyte : n < 256) :
      ¬ Continues (UInt8.ofNat n) := by
    rw [Continues, toNat_ofNat_byte hbyte]
    omega
  unfold encode String.utf8EncodeChar
  simp only
  split
  · exact ⟨_, _, rfl, hlead (by omega) (by omega), nofun⟩
  · split
    · refine ⟨_, _, rfl, hlead (by omega) (by omega), ?_⟩
      simp only [List.mem_cons, List.not_mem_nil, or_false, forall_eq]
      exact hlow (by omega)
    · split
      · refine ⟨_, _, rfl, hlead (by omega) (by omega), ?_⟩
        simp only [List.mem_cons, List.not_mem_nil, or_false, forall_eq_or_imp, forall_eq]
        exact ⟨hlow (by omega), hlow (by omega)⟩
      · refine ⟨_, _, rfl, hlead (by omega) (by omega), ?_⟩
        simp only [List.mem_cons, List.not_mem_nil, or_false, forall_eq_or_imp, forall_eq]
        exact ⟨hlow (by omega), hlow (by omega), hlow (by omega)⟩

/-- A character does not end with another one. -/
theorem eq_nil_of_append_encode {d : Char} {left : Text} (h : left ++ encode d = encode c) :
    left = [] := by
  obtain ⟨b, tail, hc, -, htail⟩ := exists_encode_eq_cons c
  obtain ⟨x, more, hd, hx, -⟩ := exists_encode_eq_cons d
  cases left with
  | nil => rfl
  | cons a left =>
      rw [hc, hd, List.cons_append] at h
      have hmem : x ∈ tail := by
        rw [← (List.cons.inj h).2]
        simp
      exact absurd (htail x hmem) hx

/-- A character at the head of a text is the only one that starts it. -/
theorem eq_of_encode_prefix {d : Char} (hc : encode c <+: t) (hd : encode d <+: t) : c = d := by
  obtain ⟨behind, rfl⟩ := hc
  obtain ⟨more, hmore⟩ := hd
  have hhead := head?_encode_append d more
  rw [hmore, head?_encode_append] at hhead
  exact Option.some.inj hhead

/-- A byte that starts no character is a stray one. -/
theorem decode_cons_stray {b : UInt8} (h : ∀ c, ¬ encode c <+: b :: t) :
    decode (b :: t) = .stray b :: decode t := by
  have hhead : head? (b :: t) = none := by
    rw [Option.eq_none_iff_forall_ne_some]
    exact fun c hc ↦ h c (encode_prefix_of_head? hc)
  have hfirst : first b t = .stray b := by
    rw [first, hhead]
  rw [decode_cons, hfirst]
  rfl

/-- Bytes that continue no character are stray ones. -/
theorem decode_of_continues (h : ∀ x ∈ t, Continues x) : decode t = t.map .stray := by
  induction t with
  | nil => exact decode_nil
  | cons b t ih =>
      obtain ⟨hb, ht⟩ := List.forall_mem_cons.mp h
      rw [decode_cons_stray, ih ht, List.map_cons]
      rintro c ⟨behind, hc⟩
      obtain ⟨x, tail, hbytes, hx, -⟩ := exists_encode_eq_cons c
      rw [hbytes, List.cons_append] at hc
      exact hx ((List.cons.inj hc).1 ▸ hb)

/-- A part of the spelling of a character is read byte by byte. -/
theorem decode_cut (hu : u <+: encode c) (hlt : u.length < (encode c).length) :
    decode u = u.map .stray := by
  obtain ⟨b, tail, hbytes, -, htail⟩ := exists_encode_eq_cons c
  cases u with
  | nil => exact decode_nil
  | cons x u =>
      have hmem : ∀ y ∈ u, Continues y := by
        rw [hbytes, List.cons_prefix_cons] at hu
        exact fun y hy ↦ htail y (hu.2.subset hy)
      rw [decode_cons_stray, decode_of_continues hmem, List.map_cons]
      intro d hd
      obtain rfl := eq_of_encode_prefix (List.prefix_refl _) (hd.trans hu)
      exact absurd hd.length_le (by omega)

/-- A byte below 128 is never stray. -/
theorem toNat_of_stray_mem {b : UInt8} (h : Rune.stray b ∈ decode t) : 128 ≤ b.toNat := by
  obtain ⟨before, behind, hdecode⟩ := List.append_of_mem h
  have hread := decode_spell hdecode
  refine Nat.le_of_not_lt fun hlow ↦ ?_
  have hone := decode_encode_append (Char.ofNat b.toNat) (spell behind)
  rw [encode_ofNat_toNat (by omega)] at hone
  rw [spell_cons] at hread
  cases hone.symm.trans hread

/-- A text ends with at most one character. -/
theorem eq_of_encode_suffix {d : Char} (hc : encode c <:+ t) (hd : encode d <:+ t) : c = d := by
  rcases Nat.le_total (encode c).length (encode d).length with hle | hle
  · obtain ⟨left, hleft⟩ := List.suffix_of_suffix_length_le hc hd hle
    rw [eq_nil_of_append_encode hleft, List.nil_append] at hleft
    exact eq_of_encode_prefix (List.prefix_refl _) (hleft ▸ List.prefix_refl _)
  · obtain ⟨left, hleft⟩ := List.suffix_of_suffix_length_le hd hc hle
    rw [eq_nil_of_append_encode hleft, List.nil_append] at hleft
    exact eq_of_encode_prefix (hleft ▸ List.prefix_refl _) (List.prefix_refl _)

/-- The number of bytes up to four that passes a test is found, from four downwards. -/
theorem getD_find?_eq {p : Nat → Bool} {n : Nat} (hp : ∀ k, p k = true ↔ n = k) (hpos : 0 < n)
    (hfour : n ≤ 4) : ([4, 3, 2].find? p).getD 1 = n := by
  obtain rfl : p = fun k ↦ decide (n = k) := by
    funext k
    rw [Bool.eq_iff_iff, hp, decide_eq_true_eq]
  have hcases : n = 1 ∨ n = 2 ∨ n = 3 ∨ n = 4 := by omega
  rcases hcases with rfl | rfl | rfl | rfl <;> rfl

/-- The last rune of a text that ends with a character is that character. -/
theorem lastSize_append_encode (t : Text) (c : Char) :
    lastSize (t ++ encode c) = (encode c).length := by
  have hpos : 0 < (encode c).length := List.length_pos_iff.mpr (encode_ne_nil c)
  have hfour : (encode c).length ≤ 4 := by
    rw [encode, String.length_utf8EncodeChar]
    exact Char.utf8Size_le_four c
  have hne : ¬ (t ++ encode c).isEmpty = true := by simp [encode_ne_nil]
  rw [lastSize, if_neg hne]
  refine getD_find?_eq (fun n ↦ ?_) hpos hfour
  rw [Bool.and_eq_true, decide_eq_true_eq]
  constructor
  · intro h
    obtain ⟨hn, hhead⟩ := h
    split at hhead
    · next d hd =>
        have hlength : (encode d).length = n := by simpa using hhead
        have hend : encode d = (t ++ encode c).drop ((t ++ encode c).length - n) := by
          refine (encode_prefix_of_head? hd).eq_of_length ?_
          rw [hlength, List.length_drop]
          omega
        have hsuffix : encode d <:+ t ++ encode c := hend ▸ List.drop_suffix _ _
        rw [eq_of_encode_suffix (List.suffix_append t _) hsuffix, hlength]
    · cases hhead
  · rintro rfl
    have hdrop : (t ++ encode c).drop ((t ++ encode c).length - (encode c).length) = encode c := by
      rw [List.length_append, Nat.add_sub_cancel, List.drop_left]
    have hhead : head? (encode c) = some c := by
      simpa using head?_encode_append c []
    rw [hdrop, hhead]
    simp

end Continuation

end Utf8

/-- The line feed is the only character with the newline byte. -/
theorem newline_mem_encode_iff {c : Char} : Text.newline ∈ Utf8.encode c ↔ c = '\n' := by
  constructor
  · intro h
    rcases Utf8.encode_cases c with ⟨hlow, hbyte⟩ | hhigh
    · rw [hbyte, List.mem_singleton] at h
      have hval : c.val.toNat = 10 := by
        have hnat := congrArg UInt8.toNat h
        rw [Utf8.toNat_ofNat_byte (by omega)] at hnat
        exact hnat.symm
      rw [← Utf8.ofNat_val_toNat c, hval]
    · have hten := hhigh _ h
      simp [Text.newline] at hten
  · intro h
    rw [h]
    decide

namespace Utf8

variable {t u : Text} {behind : List Rune}

/-- The line feed is the only rune of a text with the newline byte. -/
theorem newline_not_mem_spell {line : List Rune} (hread : ∀ r ∈ line, r ∈ decode t)
    (h : .scalar '\n' ∉ line) : Text.newline ∉ spell line := by
  intro hmem
  obtain ⟨r, hr, hbyte⟩ := List.mem_flatMap.mp hmem
  cases r with
  | scalar c =>
      obtain rfl := newline_mem_encode_iff.mp hbyte
      exact h hr
  | stray b =>
      obtain rfl := List.mem_singleton.mp hbyte
      exact absurd (toNat_of_stray_mem (hread _ hr)) (by decide)

/-- Cut at an offset, a text leaves whole runes and a part of the next one. -/
structure Cut (t : Text) (n : Nat) (before behind : List Rune) (part : Text) : Prop where
  decode_eq : decode t = before ++ behind
  take_eq : t.take n = spell before ++ part
  part_lt : ∀ r more, behind = r :: more → part.length < r.size

namespace Cut

variable {n : Nat} {before : List Rune} {part : Text}

/-- The whole runes and those behind them spell the text. -/
theorem spell_eq (h : Cut t n before behind part) : t = spell before ++ spell behind := by
  rw [← spell_append, ← h.decode_eq, spell_decode]

/-- What is left behind whole runes starts the others. -/
theorem part_prefix (h : Cut t n before behind part) : part <+: spell behind := by
  have hprefix := List.take_prefix n t
  rwa [h.take_eq, h.spell_eq, List.prefix_append_right_inj] at hprefix

/-- The part of a rune is read byte by byte, and ends no line. -/
theorem decode_part (h : Cut t n before behind part) :
    decode part = part.map .stray ∧ Text.newline ∉ part := by
  cases behind with
  | nil =>
      obtain rfl := List.prefix_nil.mp h.part_prefix
      exact ⟨decode_nil, List.not_mem_nil⟩
  | cons r more =>
      have hlt := h.part_lt r more rfl
      have hpart : part <+: r.bytes :=
        List.prefix_of_prefix_length_le h.part_prefix (List.prefix_append _ _) (Nat.le_of_lt hlt)
      cases r with
      | stray b =>
          obtain rfl : part = [] := List.eq_nil_of_length_eq_zero (Nat.lt_one_iff.mp hlt)
          exact ⟨decode_nil, List.not_mem_nil⟩
      | scalar c =>
          refine ⟨decode_cut hpart hlt, fun hmem ↦ ?_⟩
          obtain rfl := newline_mem_encode_iff.mp (hpart.subset hmem)
          obtain rfl : part = [] := List.eq_nil_of_length_eq_zero (Nat.lt_one_iff.mp hlt)
          cases hmem

/-- The part of a rune has as many runes as bytes. -/
theorem count_part (h : Cut t n before behind part) : count part = part.length := by
  rw [count, h.decode_part.1, List.length_map]

end Cut

/-- Behind whole runes, nothing of the next one is left. -/
theorem cut_spell {before : List Rune} (h : decode t = before ++ behind) :
    Cut t (spell before).length before behind [] where
  decode_eq := h
  take_eq := by rw [← spell_decode t, h, spell_append, List.take_left, List.append_nil]
  part_lt r _ _ := List.length_pos_iff.mpr (bytes_ne_nil r)

/-- A text can be cut anywhere. -/
theorem exists_cut (t : Text) (n : Nat) : ∃ before behind part, Cut t n before behind part := by
  generalize hruns : decode t = runes
  induction runes generalizing t n with
  | nil =>
      have ht := spell_decode t
      rw [hruns] at ht
      exact ⟨[], [], [], hruns, by simp [← ht], nofun⟩
  | cons r runes ih =>
      have ht : r.bytes ++ spell runes = t := by
        rw [← spell_cons, ← hruns, spell_decode]
      by_cases hn : n < r.size
      · refine ⟨[], r :: runes, t.take n, hruns, rfl, fun r' more hbehind ↦ ?_⟩
        rw [← (List.cons.inj hbehind).1]
        exact Nat.lt_of_le_of_lt (List.length_take_le n t) hn
      · have hsplit : decode t = [r] ++ runes := hruns
        obtain ⟨before, behind, part, hcut⟩ := ih (spell runes) (n - r.size) (decode_spell hsplit)
        refine ⟨r :: before, behind, part, ?_, ?_, hcut.part_lt⟩
        · rw [hruns, ← decode_spell hsplit, hcut.decode_eq, List.cons_append]
        · rw [spell_cons, List.append_assoc, ← hcut.take_eq, ← ht, List.take_append]
          congr 1
          exact List.take_of_length_le (Nat.le_of_not_lt hn)

/-- What continues no character is not within a rune behind its first byte. -/
theorem eq_nil_of_part {r : Rune} {b : UInt8} {tail : Text} (h : u ++ [b] ++ tail = r.bytes)
    (hb : ¬ Continues b) : u = [] := by
  cases r with
  | stray a =>
      have hlength := congrArg List.length h
      simp only [Rune.bytes, List.length_append, List.length_singleton] at hlength
      exact List.eq_nil_of_length_eq_zero (by omega)
  | scalar c =>
      obtain ⟨x, more, hbytes, -, hmore⟩ := exists_encode_eq_cons c
      cases u with
      | nil => rfl
      | cons a u =>
          rw [Rune.bytes, hbytes, List.cons_append, List.cons_append] at h
          have hmem : b ∈ more := by
            rw [← (List.cons.inj h).2]
            simp
          exact absurd (hmore b hmem) hb

/-- Texts are read one after the other if the second one does not start within a character. -/
theorem decode_append (h : ∀ b tail, u = b :: tail → ¬ Continues b) (t : Text) :
    decode (t ++ u) = decode t ++ decode u := by
  cases u with
  | nil => rw [List.append_nil, decode_nil, List.append_nil]
  | cons b tail =>
      obtain ⟨before, behind, part, hcut⟩ := exists_cut (t ++ b :: tail) t.length
      have htake := hcut.take_eq
      rw [List.take_left] at htake
      have hbehind : spell behind = part ++ b :: tail := by
        have hspell := hcut.spell_eq
        rw [htake, List.append_assoc] at hspell
        exact (List.append_cancel_left hspell).symm
      -- The rune behind the cut reaches up to the byte, which would continue it.
      have hnil : part = [] := by
        cases behind with
        | nil => simp at hbehind
        | cons r more =>
            have hwhole : part ++ [b] <+: spell (r :: more) := by
              rw [hbehind]
              exact ⟨tail, by simp⟩
            have hlength : (part ++ [b]).length ≤ r.bytes.length := by
              rw [List.length_append]
              exact hcut.part_lt r more rfl
            obtain ⟨rest, hrest⟩ :=
              List.prefix_of_prefix_length_le hwhole (List.prefix_append _ _) hlength
            exact eq_nil_of_part hrest (h b tail rfl)
      rw [hnil, List.append_nil] at htake
      rw [hnil, List.nil_append] at hbehind
      rw [hcut.decode_eq, htake, decode_spell_left hcut.decode_eq, ← hbehind,
        decode_spell hcut.decode_eq]

/-- A text is read up to a line feed, and from there on. -/
theorem decode_append_newline (t tail : Text) :
    decode (t ++ Text.newline :: tail) = decode t ++ decode (Text.newline :: tail) := by
  refine decode_append (fun b rest hb ↦ ?_) t
  rw [← (List.cons.inj hb).1]
  exact fun hcontinues ↦ absurd hcontinues.1 (by decide)

/-- The offsets that reading a text rune by rune comes to. -/
inductive Boundary (t : Text) : Nat → Prop where
  | start : Boundary t 0
  | next {o : Nat} {b : UInt8} {rest : Text} : Boundary t o → t.drop o = b :: rest →
      Boundary t (o + (first b rest).size)

/-- Behind some runes of a text, its rest is spelled by the others. -/
theorem drop_spell {t : Text} {before behind : List Rune} (h : decode t = before ++ behind) :
    t.drop (spell before).length = spell behind := by
  rw [← spell_decode t, h, spell_append, List.drop_left]

/-- Reading comes to the offsets behind the first runes of a text. -/
theorem boundary_iff {t : Text} {o : Nat} :
    Boundary t o ↔ ∃ before behind, decode t = before ++ behind ∧ o = (spell before).length := by
  constructor
  · intro h
    induction h with
    | start => exact ⟨[], decode t, rfl, rfl⟩
    | @next o b rest _ hdrop ih =>
        obtain ⟨before, behind, hdecode, rfl⟩ := ih
        have hbehind := decode_spell hdecode
        rw [← drop_spell hdecode, hdrop, decode_cons] at hbehind
        refine ⟨before ++ [first b rest], decode (rest.drop ((first b rest).size - 1)), ?_, ?_⟩
        · rw [hdecode, ← hbehind, List.append_assoc]
          rfl
        · simp [Rune.size]
  · intro h
    obtain ⟨before, behind, hdecode, rfl⟩ := h
    induction before using List.reverseRecOn generalizing behind with
    | nil => exact .start
    | append_singleton before r ih =>
        rw [List.append_assoc] at hdecode
        have hbefore := ih _ hdecode
        have hbehind := decode_spell hdecode
        have hdrop := drop_spell hdecode
        have hne : spell ([r] ++ behind) ≠ [] := by simp [bytes_ne_nil]
        obtain ⟨b, rest, hbytes⟩ := List.exists_cons_of_ne_nil hne
        rw [hbytes] at hdrop hbehind
        rw [decode_cons] at hbehind
        have hfirst : first b rest = r := (List.cons.inj hbehind).1
        have hnext := hbefore.next hdrop
        rw [hfirst] at hnext
        simpa [Rune.size] using hnext

/-- Reading stays within a text. -/
theorem Boundary.le_length {t : Text} {o : Nat} (h : Boundary t o) : o ≤ t.length := by
  obtain ⟨before, behind, hdecode, rfl⟩ := boundary_iff.mp h
  rw [(cut_spell hdecode).spell_eq, List.length_append]
  exact Nat.le_add_right _ _

end Utf8

end Tagfold
