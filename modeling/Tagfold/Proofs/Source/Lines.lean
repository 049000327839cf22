import Mathlib.Data.List.TakeWhile
import Tagfold.Proofs.Text.Runes
import Tagfold.Source

/-!
# Lines and columns

The position of an offset is that of the text before it: `Source.lineCol_of_take` counts the
complete lines of that text and the runes of its last line. In the other direction
`Source.offset_spell` goes over the complete lines and the runes of a line. Where the text before an
offset is cut within a rune, the bytes that are left over count as runes of their own
(`Source.lineCol_spell`).
-/

namespace Tagfold

/-- The text ends where a line ends, or is empty. -/
def Text.WholeLines (t : Text) : Prop :=
  t = [] ∨ ∃ init, t = init ++ [newline]

/-- What holds of a text without a newline, and of a line in front of a text that it holds of, holds
of every text. -/
@[elab_as_elim]
theorem Text.induct_lines {motive : Text → Prop}
    (last : ∀ line, newline ∉ line → motive line)
    (line : ∀ line rest, newline ∉ line → motive rest → motive (line ++ newline :: rest))
    (t : Text) : motive t := by
  generalize hn : t.length = n
  induction n using Nat.strong_induction_on generalizing t with
  | _ n ih =>
      by_cases hmem : newline ∈ t
      · obtain ⟨first, rest, rfl, hfirst⟩ := List.eq_append_cons_of_mem hmem
        refine line first rest hfirst (ih rest.length ?_ rest rfl)
        rw [← hn, List.length_append, List.length_cons]
        omega
      · exact last t hmem

/-- A list splits into its complete lines and the line that it ends in. -/
theorem exists_lastLine {α : Type} [DecidableEq α] (feed : α) (before : List α) :
    ∃ complete line, before = complete ++ line ∧ feed ∉ line ∧
      (complete = [] ∨ ∃ init, complete = init ++ [feed]) ∧
      line.length = (before.reverse.takeWhile (· != feed)).length := by
  refine ⟨(before.reverse.dropWhile (· != feed)).reverse,
    (before.reverse.takeWhile (· != feed)).reverse, ?_, ?_, ?_, List.length_reverse⟩
  · rw [← List.reverse_append, List.takeWhile_append_dropWhile, List.reverse_reverse]
  · intro hmem
    have hne := List.all_eq_true.mp List.all_takeWhile _ (List.mem_reverse.mp hmem)
    simp at hne
  · rcases hdrop : before.reverse.dropWhile (· != feed) with _ | ⟨c, init⟩
    · exact .inl rfl
    · have hc : c = feed := by
        have hhead := List.head?_dropWhile_not (· != feed) before.reverse
        rw [hdrop] at hhead
        simpa using hhead
      subst hc
      exact .inr ⟨init.reverse, List.reverse_cons⟩

/-- Characters that end with a line feed are complete lines. -/
theorem wholeLines_encodeAll {cs : List Char} (h : cs = [] ∨ ∃ init, cs = init ++ ['\n']) :
    (Utf8.encodeAll cs).WholeLines := by
  obtain rfl | ⟨init, rfl⟩ := h
  · exact .inl rfl
  · exact .inr ⟨Utf8.encodeAll init, Utf8.encodeAll_append init ['\n']⟩

/-- The newline bytes of characters are their line feeds. -/
theorem count_newline_encodeAll (cs : List Char) :
    (Utf8.encodeAll cs).count Text.newline = cs.count '\n' := by
  induction cs with
  | nil => rfl
  | cons c cs ih =>
      rw [Utf8.encodeAll_cons, List.count_append, ih]
      by_cases hc : c = '\n'
      · subst hc
        rw [List.count_cons_self, Nat.add_comm]
        rfl
      · rw [List.count_cons_of_ne hc,
          List.count_eq_zero.mpr fun hmem ↦ hc (newline_mem_encode_iff.mp hmem), Nat.zero_add]

/-- Characters without a line feed have no newline byte. -/
theorem newline_not_mem_encodeAll {cs : List Char} (h : '\n' ∉ cs) :
    Text.newline ∉ Utf8.encodeAll cs := by
  rw [← List.count_eq_zero, count_newline_encodeAll, List.count_eq_zero]
  exact h

namespace Source

/-- The offsets behind the newlines of a text that starts at the given offset. -/
def startsFrom (offset : Nat) (t : Text) : List Nat :=
  (t.zipIdx offset).filterMap fun (b, i) ↦ if b = Text.newline then some (i + 1) else none

/-- Lines start at zero and behind newlines. -/
theorem lineStarts_eq (s : Source) : s.lineStarts = 0 :: startsFrom 0 s.content := rfl

/-- The newlines of joined texts are those of the first one and of the second one behind it. -/
theorem startsFrom_append (offset : Nat) (t u : Text) :
    startsFrom offset (t ++ u) = startsFrom offset t ++ startsFrom (offset + t.length) u := by
  rw [startsFrom, List.zipIdx_append, List.filterMap_append]
  rfl

/-- There is a start for every newline. -/
theorem length_startsFrom (offset : Nat) (t : Text) :
    (startsFrom offset t).length = t.count Text.newline := by
  induction t generalizing offset with
  | nil => rfl
  | cons b t ih =>
      have hsplit : startsFrom offset (b :: t) =
          startsFrom offset [b] ++ startsFrom (offset + 1) t := startsFrom_append offset [b] t
      rw [hsplit, List.length_append, ih]
      by_cases hb : b = Text.newline
      · subst hb
        rw [List.count_cons_self, Nat.add_comm]
        rfl
      · rw [List.count_cons_of_ne hb]
        simp [startsFrom, hb]

/-- Lines start behind the offset that a text starts at, up to the one that it ends at. -/
theorem bounds_of_mem_startsFrom {offset n : Nat} {t : Text} (h : n ∈ startsFrom offset t) :
    offset < n ∧ n ≤ offset + t.length := by
  obtain ⟨⟨b, i⟩, hmem, hn⟩ := List.mem_filterMap.mp h
  have hbounds := List.mem_zipIdx hmem
  simp only at hn
  split at hn
  · cases hn
    omega
  · cases hn

section Bytes

variable {s : Source} {complete line rest : Text}

/-- Complete lines are followed by a start of a line. -/
theorem startsFrom_wholeLines (h : complete.WholeLines) :
    (0 :: startsFrom 0 complete).getLast? = some complete.length := by
  obtain rfl | ⟨init, rfl⟩ := h
  · rfl
  · have hlast : startsFrom (0 + init.length) [Text.newline] = [init.length + 1] := by
      simp [startsFrom]
    rw [startsFrom_append, hlast, ← List.cons_append, List.getLast?_concat, List.length_append]
    rfl

/-- The lines that start up to the end of a text are those that the text starts. -/
theorem filter_lineStarts (h : s.content = line ++ rest) :
    s.lineStarts.filter (· ≤ line.length) = 0 :: startsFrom 0 line := by
  have hleft : (startsFrom 0 line).filter (· ≤ line.length) = startsFrom 0 line := by
    rw [List.filter_eq_self]
    intro n hn
    have hbounds := bounds_of_mem_startsFrom hn
    exact decide_eq_true (by omega)
  have hright : (startsFrom (0 + line.length) rest).filter (· ≤ line.length) = [] := by
    rw [List.filter_eq_nil_iff]
    intro n hn
    have hbounds := bounds_of_mem_startsFrom hn
    simp only [decide_eq_true_eq]
    omega
  rw [lineStarts_eq, h, startsFrom_append, List.filter_cons_of_pos (by simp), List.filter_append,
    hleft, hright, List.append_nil]

/-- The position of an offset is told by the text before it: its complete lines are counted, and the
runes of the line that it ends in. -/
theorem lineCol_of_take {o : Int} (h : s.content.take o.toNat = complete ++ line)
    (hcomplete : complete.WholeLines) (hline : Text.newline ∉ line) :
    s.lineCol o = ⟨complete.count Text.newline + 1, Utf8.count line + 1⟩ := by
  have hmin : min o.toNat s.size = (complete ++ line).length := by
    rw [← h, List.length_take]
    rfl
  have hcontent : s.content = (complete ++ line) ++ s.content.drop o.toNat := by
    rw [← h, List.take_append_drop]
  have hnone : startsFrom (0 + complete.length) line = [] := by
    apply List.eq_nil_of_length_eq_zero
    rw [length_startsFrom, List.count_eq_zero.mpr hline]
  have hstarted : s.lineStarts.filter (· ≤ (complete ++ line).length) =
      0 :: startsFrom 0 complete := by
    rw [filter_lineStarts hcontent, startsFrom_append, hnone, List.append_nil]
  have hslice : s.slice complete.length (complete ++ line).length = line := by
    rw [slice, hcontent, List.take_left, List.drop_left]
  simp only [lineCol, hmin, hstarted, startsFrom_wholeLines hcomplete, Option.getD_some, hslice,
    List.length_cons, length_startsFrom]
  rfl

/-- The line of an offset counts the newlines before it. -/
theorem line_lineCol (s : Source) (o : Int) :
    (s.lineCol o).line = (s.content.take o.toNat).count Text.newline + 1 := by
  obtain ⟨complete, line, htake, hline, hcomplete, -⟩ :=
    exists_lastLine Text.newline (s.content.take o.toNat)
  rw [lineCol_of_take htake hcomplete hline, htake, List.count_append,
    List.count_eq_zero.mpr hline, Nat.add_zero]

/-- The line that starts behind complete lines is the one that they count up to. -/
theorem getElem?_lineStarts (h : s.content = complete ++ rest) (hcomplete : complete.WholeLines) :
    s.lineStarts[complete.count Text.newline]? = some complete.length := by
  have hlast := startsFrom_wholeLines hcomplete
  rw [List.getLast?_eq_getElem?, List.length_cons, length_startsFrom, Nat.add_sub_cancel] at hlast
  rw [lineStarts_eq, h, startsFrom_append, ← List.cons_append,
    List.getElem?_append_left (by rw [List.length_cons, length_startsFrom]; omega), hlast]

/-- Behind complete lines, a position leads over the runes of a line. -/
theorem offset_of_wholeLines (h : s.content = complete ++ rest) (hcomplete : complete.WholeLines)
    (n : Nat) :
    s.offset ⟨complete.count Text.newline + 1, n + 1⟩ = complete.length + runWidth n rest := by
  have hstart := getElem?_lineStarts h hcomplete
  have hrow : ((complete.count Text.newline + 1 : Int) - 1).toNat =
      complete.count Text.newline := by
    omega
  have hcolumn : ((n + 1 : Int) - 1).toNat = n := by
    omega
  have hpositive : ¬ ((complete.count Text.newline + 1 : Int) ≤ 0 ∨ (n + 1 : Int) ≤ 0) := by
    omega
  simp only [offset, if_neg hpositive, hrow, hcolumn, hstart, h, List.drop_left]

end Bytes

section Runes

variable {s : Source} {before complete line behind : List Rune} {u : Text}

/-- Runes of a text split into complete lines and the line that they end in. -/
theorem exists_lines (h : Utf8.decode s.content = before ++ behind) :
    ∃ complete line, before = complete ++ line ∧ (Utf8.spell complete).WholeLines ∧
      Text.newline ∉ Utf8.spell line := by
  obtain ⟨complete, line, rfl, hline, hcomplete, -⟩ := exists_lastLine (Rune.scalar '\n') before
  refine ⟨complete, line, rfl, ?_, ?_⟩
  · obtain rfl | ⟨init, rfl⟩ := hcomplete
    · exact .inl rfl
    · exact .inr ⟨Utf8.spell init, Utf8.spell_append init [.scalar '\n']⟩
  · have hread : ∀ r ∈ line, r ∈ Utf8.decode s.content := by
      intro r hr
      rw [h]
      simp [hr]
    exact Utf8.newline_not_mem_spell hread hline

/-- The runes of a line are measured by their bytes. -/
theorem runWidth_spell (h : Utf8.decode u = line ++ behind)
    (hline : Text.newline ∉ Utf8.spell line) :
    runWidth line.length u = (Utf8.spell line).length := by
  have hwhole : ∀ r ∈ line, decide (r ≠ Rune.scalar '\n') = true := by
    intro r hr
    rw [decide_eq_true_eq]
    rintro rfl
    exact hline (List.mem_flatMap.mpr ⟨_, hr, newline_mem_encode_iff.mpr rfl⟩)
  rw [runWidth, h, List.takeWhile_append_of_pos hwhole, List.take_left' rfl, Utf8.spell,
    List.length_flatMap]
  rfl

/-- Where a text is cut, the complete lines are counted, the runes of the last line, and what is
left over of the rune at the cut. -/
theorem lineCol_spell {o : Int} (h : Utf8.decode s.content = complete ++ line ++ behind)
    (htake : s.content.take o.toNat = Utf8.spell (complete ++ line) ++ u)
    (hcomplete : (Utf8.spell complete).WholeLines) (hline : Text.newline ∉ Utf8.spell line)
    (hu : Text.newline ∉ u) :
    s.lineCol o =
      ⟨(Utf8.spell complete).count Text.newline + 1, line.length + Utf8.count u + 1⟩ := by
  have hprefix : Utf8.spell (complete ++ line) ++ u <+:
      Utf8.spell (complete ++ line ++ behind) := by
    rw [← htake, ← h, Utf8.spell_decode]
    exact List.take_prefix _ _
  have hpart : u <+: Utf8.spell behind := by
    rwa [Utf8.spell_append (complete ++ line), List.prefix_append_right_inj] at hprefix
  have hread : Utf8.decode (Utf8.spell (line ++ behind)) = line ++ behind :=
    Utf8.decode_spell (by rw [h, List.append_assoc])
  have hcount : Utf8.count (Utf8.spell line ++ u) = line.length + Utf8.count u := by
    rw [Utf8.count, Utf8.decode_spell_append hread hpart, List.length_append]
    rfl
  have hcut : s.content.take o.toNat = Utf8.spell complete ++ (Utf8.spell line ++ u) := by
    rw [htake, Utf8.spell_append, List.append_assoc]
  have hlast : Text.newline ∉ Utf8.spell line ++ u := by
    rw [List.mem_append, not_or]
    exact ⟨hline, hu⟩
  rw [lineCol_of_take hcut hcomplete hlast, hcount]
  rfl

/-- The position behind complete lines and runes of a line leads to the offset behind them. -/
theorem offset_spell (h : Utf8.decode s.content = complete ++ line ++ behind)
    (hcomplete : (Utf8.spell complete).WholeLines) (hline : Text.newline ∉ Utf8.spell line) :
    s.offset ⟨(Utf8.spell complete).count Text.newline + 1, line.length + 1⟩ =
      (Utf8.spell (complete ++ line)).length := by
  have hcontent : s.content = Utf8.spell complete ++ Utf8.spell (line ++ behind) := by
    rw [← Utf8.spell_append, ← List.append_assoc, ← h, Utf8.spell_decode]
  have hread : Utf8.decode (Utf8.spell (line ++ behind)) = line ++ behind :=
    Utf8.decode_spell (by rw [h, List.append_assoc])
  rw [offset_of_wholeLines hcontent hcomplete, runWidth_spell hread hline, Utf8.spell_append,
    List.length_append]

end Runes

end Source

end Tagfold
