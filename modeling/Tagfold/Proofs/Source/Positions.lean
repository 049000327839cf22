import Mathlib.Data.Int.Order.Basic
import Tagfold.Proofs.Source.Lines

/-!
# Offsets and positions

Reading a source rune by rune comes to the offsets that `Utf8.Boundary` describes. Between these
offsets and the positions of a source, `Source.lineCol` and `Source.offset` are inverse to each
other, and they keep the order (`Source.lineCol_inverts_offset`). An offset within a rune has a
position as well, in which every byte of the rune that stands before it counts as a column. So a
deep cut can get a later position than the end of the rune has. `Source.lineCol_le_iff` says that
nothing else keeps positions from growing with offsets.
-/

namespace Tagfold

namespace Pos

/-- Positions are ordered by their lines, and on one line by their columns. -/
instance : LE Pos where
  le p q := p.line < q.line ∨ p.line = q.line ∧ p.col ≤ q.col

/-- The order of positions is that of lines and columns. -/
theorem le_iff {p q : Pos} : p ≤ q ↔ p.line < q.line ∨ p.line = q.line ∧ p.col ≤ q.col :=
  Iff.rfl

instance : PartialOrder Pos where
  le_refl p := .inr ⟨rfl, le_rfl⟩
  le_trans p q r hpq hqr := by
    rw [le_iff] at hpq hqr ⊢
    omega
  le_antisymm p q hpq hqp := by
    rw [le_iff] at hpq hqp
    have hline : p.line = q.line := by omega
    have hcol : p.col = q.col := by omega
    exact congr (congrArg mk hline) hcol

/-- One position is before another one on an earlier line, or in an earlier column. -/
theorem lt_iff {p q : Pos} : p < q ↔ p.line < q.line ∨ p.line = q.line ∧ p.col < q.col := by
  rw [lt_iff_le_not_ge, le_iff, le_iff]
  omega

end Pos

namespace Source

/-- The text of a line as it stands in a source, without the newline that ends it. -/
def row (s : Source) (n : Int) : Text :=
  (s.content.splitOn Text.newline).getD (n - 1).toNat []

section Rows

/-- A text without newlines is one line. -/
theorem splitOn_of_not_mem {t : Text} (h : Text.newline ∉ t) : t.splitOn Text.newline = [t] := by
  rw [List.splitOn_eq_splitOnP, List.splitOnP_eq_singleton]
  intro b hb
  simpa using ne_of_mem_of_not_mem hb h

/-- A newline separates the lines before it from those behind it. -/
theorem splitOn_append_newline {line : Text} (h : Text.newline ∉ line) (rest : Text) :
    (line ++ Text.newline :: rest).splitOn Text.newline = line :: rest.splitOn Text.newline := by
  have hline := splitOn_of_not_mem h
  rw [List.splitOn_eq_splitOnP] at hline ⊢
  rw [List.splitOnP_append_cons _ _ (by simp), hline, List.splitOn_eq_splitOnP]
  rfl

/-- A text has a line more than newlines. -/
theorem length_splitOn (t : Text) :
    (t.splitOn Text.newline).length = t.count Text.newline + 1 := by
  induction t using Text.induct_lines with
  | last line hline =>
      rw [splitOn_of_not_mem hline, List.count_eq_zero.mpr hline]
      rfl
  | line line rest hline ih =>
      rw [splitOn_append_newline hline, List.length_cons, ih, List.count_append,
        List.count_eq_zero.mpr hline, List.count_cons_self, Nat.zero_add]

/-- A source has as many lines as its content. -/
theorem numLines_eq (s : Source) : s.numLines = (s.content.splitOn Text.newline).length := by
  rw [numLines, lineStarts_eq, List.length_cons, length_startsFrom, length_splitOn]

/-- A line stands behind complete lines, as many as its number says, and before the end of the text
or a newline. -/
theorem exists_row {t line : Text} {i : Nat} (h : (t.splitOn Text.newline)[i]? = some line) :
    ∃ complete rest, t = complete ++ (line ++ rest) ∧ complete.WholeLines ∧
      complete.count Text.newline = i ∧ Text.newline ∉ line ∧
      (rest = [] ∨ ∃ tail, rest = Text.newline :: tail) := by
  induction i generalizing t with
  | zero =>
      by_cases hmem : Text.newline ∈ t
      · obtain ⟨first, rest, rfl, hfirst⟩ := List.eq_append_cons_of_mem hmem
        rw [splitOn_append_newline hfirst] at h
        cases h
        exact ⟨[], _, rfl, .inl rfl, rfl, hfirst, .inr ⟨rest, rfl⟩⟩
      · rw [splitOn_of_not_mem hmem] at h
        cases h
        exact ⟨[], [], by simp, .inl rfl, rfl, hmem, .inl rfl⟩
  | succ i ih =>
      by_cases hmem : Text.newline ∈ t
      · obtain ⟨first, behind, rfl, hfirst⟩ := List.eq_append_cons_of_mem hmem
        rw [splitOn_append_newline hfirst, List.getElem?_cons_succ] at h
        obtain ⟨complete, rest, rfl, hcomplete, hcount, hline, hrest⟩ := ih h
        refine ⟨first ++ Text.newline :: complete, rest, by simp, ?_, ?_, hline, hrest⟩
        · obtain rfl | ⟨init, rfl⟩ := hcomplete
          · exact .inr ⟨first, rfl⟩
          · exact .inr ⟨first ++ Text.newline :: init, by simp⟩
        · rw [List.count_append, List.count_eq_zero.mpr hfirst, List.count_cons_self, hcount,
            Nat.zero_add]
      · rw [splitOn_of_not_mem hmem] at h
        cases h

end Rows

section Order

variable {s : Source} {before behind : List Rune} {u : Text} {o₁ o₂ : Int}

/-- How the positions of two offsets compare, the first of which may cut a rune: the second one is
on a later line, or on the same one and then behind as many columns as there are runes from the cut
rune on. -/
theorem lineCol_cases (h : o₁ ≤ o₂) (hcut : Utf8.Cut s.content o₁.toNat before behind u) :
    ∃ v, s.content.take o₂.toNat = Utf8.spell before ++ (u ++ v) ∧
      (Text.newline ∈ v ∧ (s.lineCol o₁).line < (s.lineCol o₂).line ∨
        Text.newline ∉ v ∧ ∃ line col, s.lineCol o₁ = ⟨line, col + u.length⟩ ∧
          s.lineCol o₂ = ⟨line, col + Utf8.count (u ++ v)⟩) := by
  obtain ⟨v, hv⟩ : s.content.take o₁.toNat <+: s.content.take o₂.toNat :=
    List.take_prefix_take_left (Int.toNat_le_toNat h)
  have htake₂ : s.content.take o₂.toNat = Utf8.spell before ++ (u ++ v) := by
    rw [← hv, hcut.take_eq, List.append_assoc]
  refine ⟨v, htake₂, ?_⟩
  by_cases hmem : Text.newline ∈ v
  · refine .inl ⟨hmem, ?_⟩
    have hpos := List.count_pos_iff.mpr hmem
    rw [line_lineCol, line_lineCol, ← hv, List.count_append]
    omega
  · obtain ⟨complete, line, rfl, hcomplete, hlast⟩ := exists_lines hcut.decode_eq
    have hline := hcut.decode_part.2
    have hlater : Text.newline ∉ u ++ v := by
      rw [List.mem_append, not_or]
      exact ⟨hline, hmem⟩
    refine .inr ⟨hmem, (Utf8.spell complete).count Text.newline + 1, line.length + 1, ?_, ?_⟩
    · rw [lineCol_spell hcut.decode_eq hcut.take_eq hcomplete hlast hline, hcut.count_part]
      congr 1
      omega
    · rw [lineCol_spell hcut.decode_eq htake₂ hcomplete hlast hlater]
      congr 1
      omega

/-- A text that is not empty has runes. -/
theorem count_pos (hne : u ≠ []) : 0 < Utf8.count u := by
  obtain ⟨b, rest, rfl⟩ := List.exists_cons_of_ne_nil hne
  rw [Utf8.count, Utf8.decode_cons]
  exact Nat.succ_pos _

/-- Later offsets have later positions than a boundary. -/
theorem lineCol_lt_of_boundary {o : Nat} (ho : Utf8.Boundary s.content o) (h : o < o₂)
    (hsize : o < s.size) : s.lineCol o < s.lineCol o₂ := by
  obtain ⟨before, behind, hdecode, rfl⟩ := Utf8.boundary_iff.mp ho
  obtain ⟨v, hv, hcases⟩ := lineCol_cases h.le (Utf8.cut_spell hdecode)
  rw [Pos.lt_iff]
  obtain ⟨-, hlt⟩ | ⟨-, line, col, hfirst, hsecond⟩ := hcases
  · exact .inl hlt
  · have hne : [] ++ v ≠ [] := by
      intro hnil
      have hlength := congrArg List.length hv
      rw [hnil, List.append_nil, List.length_take] at hlength
      have hcontent : s.content.length = s.size := rfl
      omega
    have hpos := count_pos hne
    rw [hfirst, hsecond]
    refine .inr ⟨rfl, ?_⟩
    simp only [List.length_nil]
    omega

end Order

section Inverse

variable {s : Source} {complete line behind : List Rune}

/-- The position of the offset behind complete lines and runes of a line. -/
theorem lineCol_between (h : Utf8.decode s.content = complete ++ line ++ behind)
    (hcomplete : (Utf8.spell complete).WholeLines) (hline : Text.newline ∉ Utf8.spell line) :
    s.lineCol (Utf8.spell (complete ++ line)).length =
      ⟨(Utf8.spell complete).count Text.newline + 1, line.length + 1⟩ := by
  have hcut := Utf8.cut_spell h
  have htake : s.content.take ((Utf8.spell (complete ++ line)).length : Int).toNat =
      Utf8.spell (complete ++ line) ++ [] := hcut.take_eq
  rw [lineCol_spell h htake hcomplete hline List.not_mem_nil, hcut.count_part]
  rfl

/-- The position of a boundary leads back to it. -/
theorem offset_lineCol {o : Nat} (ho : Utf8.Boundary s.content o) : s.offset (s.lineCol o) = o := by
  obtain ⟨before, behind, hdecode, rfl⟩ := Utf8.boundary_iff.mp ho
  obtain ⟨complete, line, rfl, hcomplete, hline⟩ := exists_lines hdecode
  rw [lineCol_between hdecode hcomplete hline, offset_spell hdecode hcomplete hline]

/-- Complete lines are read before what stands behind them. -/
theorem decode_wholeLines {t : Text} (h : t.WholeLines) (rest : Text) :
    Utf8.decode (t ++ rest) = Utf8.decode t ++ Utf8.decode rest := by
  obtain rfl | ⟨init, rfl⟩ := h
  · rw [List.nil_append, Utf8.decode_nil, List.nil_append]
  · have hfeed (more : Text) : Utf8.decode (init ++ Text.newline :: more) =
        Utf8.decode init ++ .scalar '\n' :: Utf8.decode more := by
      rw [Utf8.decode_append_newline]
      congr 1
      exact Utf8.decode_encode_append '\n' more
    rw [List.append_assoc, List.singleton_append, hfeed, hfeed, Utf8.decode_nil, List.append_assoc]
    rfl

/-- A column of a line, counted up to its end, is that of the offset it leads to. -/
theorem lineCol_offset {row : Text} {i j : Nat}
    (hrow : (s.content.splitOn Text.newline)[i]? = some row) (hj : j ≤ Utf8.count row) :
    s.lineCol (s.offset ⟨i + 1, j + 1⟩) = ⟨i + 1, j + 1⟩ := by
  obtain ⟨complete, rest, hcontent, hcomplete, rfl, hline, hrest⟩ := exists_row hrow
  have hread : Utf8.decode (row ++ rest) = Utf8.decode row ++ Utf8.decode rest := by
    obtain rfl | ⟨tail, rfl⟩ := hrest
    · rw [List.append_nil, Utf8.decode_nil, List.append_nil]
    · exact Utf8.decode_append_newline row tail
  have hdecode : Utf8.decode s.content = Utf8.decode complete ++ (Utf8.decode row).take j ++
      ((Utf8.decode row).drop j ++ Utf8.decode rest) := by
    rw [hcontent, decode_wholeLines hcomplete, hread, List.append_assoc,
      ← List.append_assoc (List.take j _), List.take_append_drop]
  have hpart : Text.newline ∉ Utf8.spell ((Utf8.decode row).take j) := by
    intro hmem
    apply hline
    rw [← Utf8.spell_decode row, ← List.take_append_drop j (Utf8.decode row), Utf8.spell_append]
    exact List.mem_append_left _ hmem
  have hspell : Utf8.spell (Utf8.decode complete) = complete := Utf8.spell_decode complete
  have hlength : ((Utf8.decode row).take j).length = j := by
    rw [List.length_take]
    exact Nat.min_eq_left hj
  have hoffset := offset_spell hdecode (hspell.symm ▸ hcomplete) hpart
  have hback := lineCol_between hdecode (hspell.symm ▸ hcomplete) hpart
  rw [hspell, hlength] at hoffset hback
  rw [hoffset, hback]

end Inverse

/-- Between the offsets that reading a source rune by rune comes to and its positions, both
directions are inverse to each other, and the order is kept: the position of an offset leads back to
it; a line and a column on it, up to the one behind its last rune, are found again; and a later
offset has a later position. Stray bytes are runes as well. -/
theorem lineCol_inverts_offset (s : Source) :
    (∀ o : Nat, Utf8.Boundary s.content o → s.offset (s.lineCol o) = o) ∧
    (∀ line col : Int, 1 ≤ line → line ≤ s.numLines → 1 ≤ col →
      col ≤ Utf8.count (s.row line) + 1 → s.lineCol (s.offset ⟨line, col⟩) = ⟨line, col⟩) ∧
    ∀ o₁ o₂ : Nat, Utf8.Boundary s.content o₁ → Utf8.Boundary s.content o₂ → o₁ < o₂ →
      s.lineCol o₁ < s.lineCol o₂ := by
  refine ⟨fun o ↦ offset_lineCol, fun line col hline hlines hcol hcols ↦ ?_,
    fun o₁ o₂ h₁ h₂ hlt ↦ ?_⟩
  · obtain ⟨i, rfl⟩ : ∃ i : Nat, line = i + 1 := ⟨(line - 1).toNat, by omega⟩
    obtain ⟨j, rfl⟩ : ∃ j : Nat, col = j + 1 := ⟨(col - 1).toNat, by omega⟩
    have hi : i < (s.content.splitOn Text.newline).length := by
      rw [← numLines_eq]
      omega
    have hrow := List.getElem?_eq_getElem hi
    have hindex : ((i : Int) + 1 - 1).toNat = i := by omega
    rw [row, hindex, List.getD_eq_getElem?_getD, hrow, Option.getD_some] at hcols
    exact lineCol_offset hrow (by omega)
  · have hsize : o₂ ≤ s.size := h₂.le_length
    exact lineCol_lt_of_boundary h₁ (by omega) (by omega)

/-- In front of the two stray bytes of an unfinished character on the second line, and behind them.
-/
theorem lineCol_inverts_offset_stray :
    Utf8.Boundary (utf8 "a\n" ++ [0xE2, 0x82]) 3 ∧
      offset ⟨utf8 "in", utf8 "a\n" ++ [0xE2, 0x82]⟩
        (lineCol ⟨utf8 "in", utf8 "a\n" ++ [0xE2, 0x82]⟩ (3 : Nat)) = 3 ∧
      lineCol ⟨utf8 "in", utf8 "a\n" ++ [0xE2, 0x82]⟩
        (offset ⟨utf8 "in", utf8 "a\n" ++ [0xE2, 0x82]⟩ ⟨2, 3⟩) = ⟨2, 3⟩ ∧
      lineCol ⟨utf8 "in", utf8 "a\n" ++ [0xE2, 0x82]⟩ (2 : Nat) <
        lineCol ⟨utf8 "in", utf8 "a\n" ++ [0xE2, 0x82]⟩ (3 : Nat) := by
  obtain ⟨hback, hforth, horder⟩ :=
    lineCol_inverts_offset ⟨utf8 "in", utf8 "a\n" ++ [0xE2, 0x82]⟩
  have hpart : Utf8.decode [0xE2, 0x82] = [.stray 0xE2, .stray 0x82] :=
    Utf8.decode_cut (c := '€') ⟨[0xAC], by decide⟩ (by decide)
  have hdecode : Utf8.decode (utf8 "a\n" ++ [0xE2, 0x82]) =
      [.scalar 'a', .scalar '\n', .stray 0xE2, .stray 0x82] := by
    have hread := Utf8.decode_encodeAll_append ['a', '\n'] [0xE2, 0x82]
    rw [hpart] at hread
    exact hread
  have htwo : Utf8.Boundary (utf8 "a\n" ++ [0xE2, 0x82]) 2 :=
    Utf8.boundary_iff.mpr ⟨[.scalar 'a', .scalar '\n'], _, hdecode, rfl⟩
  have hthree : Utf8.Boundary (utf8 "a\n" ++ [0xE2, 0x82]) 3 :=
    Utf8.boundary_iff.mpr ⟨[.scalar 'a', .scalar '\n', .stray 0xE2], _, hdecode, rfl⟩
  have hrow : row ⟨utf8 "in", utf8 "a\n" ++ [0xE2, 0x82]⟩ 2 = [0xE2, 0x82] := rfl
  refine ⟨hthree, hback 3 hthree, hforth 2 3 (by decide) (by decide) (by decide) ?_,
    horder 2 3 htwo hthree (by decide)⟩
  rw [hrow, Utf8.count, hpart]
  decide

/-- A character of three bytes that is cut behind its second one has a later position there than at
its end. -/
theorem lineCol_cut_gt :
    lineCol ⟨utf8 "in", utf8 "€"⟩ 2 = ⟨1, 3⟩ ∧ lineCol ⟨utf8 "in", utf8 "€"⟩ 3 = ⟨1, 2⟩ ∧
      ¬ lineCol ⟨utf8 "in", utf8 "€"⟩ 2 ≤ lineCol ⟨utf8 "in", utf8 "€"⟩ 3 := by
  have hpart : Utf8.count [0xE2, 0x82] = 2 := by
    have hdecode : Utf8.decode [0xE2, 0x82] = [.stray 0xE2, .stray 0x82] :=
      Utf8.decode_cut (c := '€') ⟨[0xAC], by decide⟩ (by decide)
    rw [Utf8.count, hdecode]
    rfl
  have hwhole : Utf8.count (utf8 "€") = 1 := congrArg List.length (Utf8.decode_encodeAll ['€'])
  have htake : (utf8 "€").take (2 : Int).toNat = [] ++ [0xE2, 0x82] := rfl
  have htakeAll : (utf8 "€").take (3 : Int).toNat = [] ++ utf8 "€" := rfl
  have hcut : lineCol ⟨utf8 "in", utf8 "€"⟩ 2 = ⟨1, 3⟩ := by
    rw [lineCol_of_take htake (.inl rfl) (by decide), hpart]
    rfl
  have hend : lineCol ⟨utf8 "in", utf8 "€"⟩ 3 = ⟨1, 2⟩ := by
    rw [lineCol_of_take htakeAll (.inl rfl) (by decide), hwhole]
    rfl
  refine ⟨hcut, hend, ?_⟩
  rw [hcut, hend, Pos.le_iff]
  decide

/-- The first offset cuts a character behind its second or third byte, and the second one stands at
or behind the end of that character on the same line, with fewer runes since the start of the
character than the cut leaves bytes of it. -/
def Overtaken (s : Source) (o₁ o₂ : Int) : Prop :=
  ∃ (before : List Rune) (c : Char) (behind : List Rune) (depth : Nat),
    Utf8.decode s.content = before ++ .scalar c :: behind ∧
    o₁ = (Utf8.spell before).length + depth ∧ 2 ≤ depth ∧ depth < (Utf8.encode c).length ∧
    (Utf8.spell before).length + (Utf8.encode c).length ≤ o₂ ∧
    Text.newline ∉ s.slice (Utf8.spell before).length o₂.toNat ∧
    Utf8.count (s.slice (Utf8.spell before).length o₂.toNat) < depth

section Cuts

variable {s : Source} {before behind : List Rune} {u v : Text} {o₁ o₂ : Int}

/-- What is read from a boundary to a later offset. -/
theorem slice_of_take {w : Text} (h : s.content.take o₂.toNat = Utf8.spell before ++ w) :
    s.slice (Utf8.spell before).length o₂.toNat = w := by
  rw [slice, h, List.drop_left]

/-- An offset that is overtaken has a later position than the one that overtakes it. -/
theorem Overtaken.lineCol_lt (h : s.Overtaken o₁ o₂) (hle : o₁ ≤ o₂) :
    s.lineCol o₂ < s.lineCol o₁ := by
  obtain ⟨before, c, behind, depth, hdecode, hoffset, -, hdepth, -, hnone, hfew⟩ := h
  have hlength : ((Utf8.encode c).take depth).length = depth := by
    rw [List.length_take]
    exact Nat.min_eq_left (Nat.le_of_lt hdepth)
  have hcut : Utf8.Cut s.content o₁.toNat before (.scalar c :: behind)
      ((Utf8.encode c).take depth) :=
    { decode_eq := hdecode
      take_eq := by
        have htoNat : o₁.toNat = (Utf8.spell before).length + depth := by omega
        rw [htoNat, ← Utf8.spell_decode s.content, hdecode, Utf8.spell_append,
          List.take_length_add_append, Utf8.spell_cons]
        congr 1
        exact List.take_append_of_le_length (Nat.le_of_lt hdepth)
      part_lt := fun r more hr ↦ by
        rw [hlength, ← (List.cons.inj hr).1]
        exact hdepth }
  obtain ⟨v, hv, hcases⟩ := lineCol_cases hle hcut
  rw [slice_of_take hv] at hnone hfew
  obtain ⟨hmem, -⟩ | ⟨-, line, col, hfirst, hsecond⟩ := hcases
  · exact absurd (List.mem_append_right _ hmem) hnone
  · rw [Pos.lt_iff, hfirst, hsecond, hlength]
    refine .inr ⟨rfl, ?_⟩
    dsimp only
    omega

/-- An offset is overtaken if the rune that it cuts has more bytes before the cut than there are
runes up to the other offset. -/
theorem overtaken_of_count_lt (hcut : Utf8.Cut s.content o₁.toNat before behind u)
    (hlater : s.content.take o₂.toNat = Utf8.spell before ++ (u ++ v))
    (hnone : Text.newline ∉ u ++ v) (hfew : Utf8.count (u ++ v) < u.length) :
    s.Overtaken o₁ o₂ := by
  have hne : u ≠ [] := by
    rintro rfl
    exact Nat.not_lt_zero _ hfew
  have hpos : 0 < Utf8.count (u ++ v) := count_pos (by simp [hne])
  cases behind with
  | nil => exact absurd (List.prefix_nil.mp hcut.part_prefix) hne
  | cons r more =>
      have hlt : u.length < r.bytes.length := hcut.part_lt r more rfl
      cases r with
      | stray b =>
          simp only [Rune.bytes, List.length_singleton] at hlt
          omega
      | scalar c =>
          have hlength := congrArg List.length hcut.take_eq
          have hlength₂ := congrArg List.length hlater
          simp only [hcut.spell_eq, Utf8.spell_cons, List.length_take, List.length_append]
            at hlength hlength₂
          refine ⟨before, c, more, u.length, hcut.decode_eq, by omega, by omega, hlt, ?_, ?_, ?_⟩
          · -- Up to the end of the character every byte is a rune, so there would be too many.
            by_contra hend
            have hinside : Utf8.Cut s.content o₂.toNat before (.scalar c :: more) (u ++ v) :=
              { decode_eq := hcut.decode_eq
                take_eq := hlater
                part_lt := fun r _ hr ↦ by
                  rw [← (List.cons.inj hr).1, List.length_append]
                  show u.length + v.length < (Rune.scalar c).bytes.length
                  simp only [Rune.bytes] at hlength hlength₂ ⊢
                  omega }
            have hcount := hinside.count_part
            rw [List.length_append] at hcount
            omega
          · rwa [slice_of_take hlater]
          · rwa [slice_of_take hlater]

end Cuts

/-- The line of a later offset is never an earlier one. The position of a later offset is an earlier
one exactly if the first offset is overtaken: it cuts a character, all bytes of which up to the cut
count as columns, and the other offset is behind that character, which then counts as one column. -/
theorem lineCol_le_iff (s : Source) {o₁ o₂ : Int} (h : o₁ ≤ o₂) :
    (s.lineCol o₁).line ≤ (s.lineCol o₂).line ∧
      (s.lineCol o₁ ≤ s.lineCol o₂ ↔ ¬ s.Overtaken o₁ o₂) := by
  constructor
  · have hprefix : s.content.take o₁.toNat <+: s.content.take o₂.toNat :=
      List.take_prefix_take_left (Int.toNat_le_toNat h)
    have hcount := hprefix.sublist.count_le Text.newline
    rw [line_lineCol, line_lineCol]
    omega
  · constructor
    · intro hle hovertaken
      exact absurd hle (hovertaken.lineCol_lt h).not_ge
    · intro hnot
      by_contra hle
      obtain ⟨before, behind, u, hcut⟩ := Utf8.exists_cut s.content o₁.toNat
      obtain ⟨v, hv, hcases⟩ := lineCol_cases h hcut
      rw [Pos.le_iff] at hle
      obtain ⟨-, hlt⟩ | ⟨hmem, line, col, hfirst, hsecond⟩ := hcases
      · exact hle (.inl hlt)
      · rw [hfirst, hsecond] at hle
        have hnone : Text.newline ∉ u ++ v := by
          rw [List.mem_append, not_or]
          exact ⟨hcut.decode_part.2, hmem⟩
        refine hnot (overtaken_of_count_lt hcut hv hnone ?_)
        dsimp only at hle
        omega

/-- A cut behind three of four bytes is overtaken by the offset behind the next character. -/
theorem lineCol_le_iff_overtaken :
    (3 : Int) ≤ 6 ∧ Overtaken ⟨utf8 "in", utf8 "𐍈é"⟩ 3 6 ∧
      (lineCol ⟨utf8 "in", utf8 "𐍈é"⟩ 3).line ≤ (lineCol ⟨utf8 "in", utf8 "𐍈é"⟩ 6).line ∧
      ¬ lineCol ⟨utf8 "in", utf8 "𐍈é"⟩ 3 ≤ lineCol ⟨utf8 "in", utf8 "𐍈é"⟩ 6 := by
  have hle : (3 : Int) ≤ 6 := by decide
  have hdecode : Utf8.decode (utf8 "𐍈é") = [.scalar '𐍈', .scalar 'é'] :=
    Utf8.decode_encodeAll ['𐍈', 'é']
  have hcount : Utf8.count (utf8 "𐍈é") = 2 := congrArg List.length hdecode
  have hslice : slice ⟨utf8 "in", utf8 "𐍈é"⟩ 0 6 = utf8 "𐍈é" := rfl
  have hovertaken : Overtaken ⟨utf8 "in", utf8 "𐍈é"⟩ 3 6 := by
    refine ⟨[], '𐍈', [.scalar 'é'], 3, hdecode, rfl, by decide, by decide, by decide, by decide, ?_⟩
    show Utf8.count (slice ⟨utf8 "in", utf8 "𐍈é"⟩ 0 6) < 3
    rw [hslice, hcount]
    decide
  obtain ⟨hline, horder⟩ := lineCol_le_iff ⟨utf8 "in", utf8 "𐍈é"⟩ hle
  exact ⟨hle, hovertaken, hline, fun h ↦ horder.mp h hovertaken⟩

end Source

end Tagfold
