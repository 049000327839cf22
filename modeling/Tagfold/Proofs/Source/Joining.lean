import Tagfold.Proofs.Source.Positions

/-!
# Lines joined again

The text of a line is its row without one carriage return at its end (`Source.line_of_row`). Joined
by newlines, the lines of a source give back its content, in which nothing is missing but those
carriage returns: `Source.lines_reconstruct`.
-/

namespace Tagfold

namespace Text

/-- The text is over, or it goes on with a newline. -/
def atLineEnd (t : Text) : Bool :=
  t.head?.all (· == newline)

/-- The text without the carriage returns that stand right before a newline or at its end. -/
def dropReturns : Text → Text
  | [] => []
  | b :: t => if b = carriageReturn ∧ atLineEnd t then dropReturns t else b :: dropReturns t

end Text

namespace Source

/-- Of a line, only a carriage return at its end is dropped. -/
theorem dropReturns_append {line rest : Text} (hline : Text.newline ∉ line)
    (hrest : rest.atLineEnd) :
    (line ++ rest).dropReturns = trimReturn line ++ rest.dropReturns := by
  induction line with
  | nil => rfl
  | cons b line ih =>
      rw [List.mem_cons, not_or] at hline
      cases line with
      | nil =>
          simp only [List.cons_append, List.nil_append, Text.dropReturns, hrest, trimReturn]
          by_cases hb : b = Text.carriageReturn
          · simp [hb]
          · simp [hb]
      | cons c line =>
          -- The byte behind `b` is not a newline, so that `b` is kept on both sides.
          have hc : Text.atLineEnd (c :: line ++ rest) = false := by
            have hne : c ≠ Text.newline := fun heq ↦ hline.2 (heq ▸ List.mem_cons_self)
            simpa [Text.atLineEnd] using hne
          have htrim : trimReturn (b :: c :: line) = b :: trimReturn (c :: line) := by
            simp only [trimReturn, List.getLast?_cons_cons, List.dropLast_cons_cons]
            split <;> rfl
          rw [htrim, List.cons_append, Text.dropReturns, hc, if_neg (by simp), ih hline.2,
            List.cons_append]

/-- Dropping carriage returns from a text is trimming its lines. -/
theorem dropReturns_eq_join (t : Text) :
    t.dropReturns = Text.join [Text.newline] ((t.splitOn Text.newline).map trimReturn) := by
  induction t using Text.induct_lines with
  | last line hline =>
      have hend : Text.dropReturns (line ++ []) = trimReturn line ++ Text.dropReturns [] :=
        dropReturns_append hline rfl
      rw [List.append_nil] at hend
      rw [hend, splitOn_of_not_mem hline]
      simp [Text.join, Text.dropReturns]
  | line line rest hline ih =>
      have hne : (rest.splitOn Text.newline).map trimReturn ≠ [] := by
        rw [← List.length_pos_iff, List.length_map, length_splitOn]
        exact Nat.succ_pos _
      have hfeed : Text.dropReturns (Text.newline :: rest) = Text.newline :: rest.dropReturns := by
        rw [Text.dropReturns, if_neg fun h ↦ absurd h.1 (by decide)]
      rw [dropReturns_append hline rfl, hfeed, ih, splitOn_append_newline hline, List.map_cons,
        Text.join, Text.join, List.intercalate_cons_of_ne_nil hne, List.append_assoc]
      rfl

/-- Trimming a text takes nothing into it. -/
theorem trimReturn_subset (t : Text) : trimReturn t ⊆ t := by
  unfold trimReturn
  split
  · exact List.dropLast_subset t
  · exact List.Subset.refl t

section Lines

variable {s : Source}

/-- The line with a number is the row with that number, trimmed. -/
theorem line_of_row {row : Text} {i : Nat} (h : (s.content.splitOn Text.newline)[i]? = some row) :
    s.line (i + 1) = trimReturn row := by
  obtain ⟨complete, rest, hcontent, hcomplete, rfl, hline, hrest⟩ := exists_row h
  have hstart := getElem?_lineStarts hcontent hcomplete
  have hstop : (s.lineStarts[complete.count Text.newline + 1]?.map (· - 1)).getD s.size =
      (complete ++ row).length := by
    obtain rfl | ⟨tail, rfl⟩ := hrest
    · -- This is the last line: no further one starts.
      have hlast : s.lineStarts.length ≤ complete.count Text.newline + 1 := by
        rw [lineStarts_eq, List.length_cons, length_startsFrom, hcontent, List.append_nil,
          List.count_append, List.count_eq_zero.mpr hline]
      rw [List.getElem?_eq_none hlast, size, hcontent, List.append_nil]
      rfl
    · have hnext : s.content = (complete ++ row ++ [Text.newline]) ++ tail := by
        simp [hcontent]
      have hcount : (complete ++ row ++ [Text.newline]).count Text.newline =
          complete.count Text.newline + 1 := by
        simp [List.count_eq_zero.mpr hline]
      have hbehind := getElem?_lineStarts hnext (.inr ⟨complete ++ row, rfl⟩)
      rw [hcount] at hbehind
      simp [hbehind]
  have hslice : s.slice complete.length (complete ++ row).length = row := by
    rw [slice, hcontent, ← List.append_assoc, List.take_left, List.drop_left]
  have hindex : ((complete.count Text.newline + 1 : Int) - 1).toNat =
      complete.count Text.newline := by
    omega
  have hnumber : (complete.count Text.newline + 1 : Int).toNat =
      complete.count Text.newline + 1 := by
    omega
  simp only [line, if_neg (by omega : ¬ (complete.count Text.newline + 1 : Int) ≤ 0), hindex,
    hnumber, hstart, hstop, hslice]

/-- There is no text where there is no line. -/
theorem line_eq_nil {n : Int} (h : n < 1 ∨ s.numLines < n) : s.line n = [] := by
  unfold line
  split
  · rfl
  · next hpos =>
      have hnone : s.lineStarts.length ≤ (n - 1).toNat := by
        rw [numLines] at h
        omega
      rw [List.getElem?_eq_none hnone]

/-- The lines of a source are its rows, trimmed. -/
theorem map_line (s : Source) :
    (List.range s.numLines).map (fun i : Nat ↦ s.line (i + 1)) =
      (s.content.splitOn Text.newline).map trimReturn := by
  apply List.ext_getElem
  · rw [List.length_map, List.length_map, List.length_range, numLines_eq]
  · intro i _ hi
    rw [List.length_map] at hi
    rw [List.getElem_map, List.getElem_map, List.getElem_range,
      line_of_row (List.getElem?_eq_getElem hi)]

/-- A line has no newline in it. -/
theorem newline_not_mem_line (n : Int) : Text.newline ∉ s.line n := by
  by_cases hn : n < 1 ∨ s.numLines < n
  · rw [line_eq_nil hn]
    exact List.not_mem_nil
  · obtain ⟨i, rfl⟩ : ∃ i : Nat, n = i + 1 := ⟨(n - 1).toNat, by omega⟩
    have hi : i < (s.content.splitOn Text.newline).length := by
      rw [← numLines_eq]
      omega
    have hrow := List.getElem?_eq_getElem hi
    obtain ⟨-, -, -, -, -, hline, -⟩ := exists_row hrow
    rw [line_of_row hrow]
    exact fun hmem ↦ hline (trimReturn_subset _ hmem)

end Lines

/-- The lines of a source, joined by newlines, are its content without one carriage return before
each newline and without one at the end. There is a line more than newlines, no line has a newline
in it, and under any other number there is no text. -/
theorem lines_reconstruct (s : Source) :
    Text.join [Text.newline] ((List.range s.numLines).map fun i : Nat ↦ s.line (i + 1)) =
        s.content.dropReturns ∧
      s.numLines = s.content.count Text.newline + 1 ∧
      (∀ n, Text.newline ∉ s.line n) ∧
      ∀ n : Int, n < 1 ∨ s.numLines < n → s.line n = [] := by
  refine ⟨?_, ?_, newline_not_mem_line, fun n ↦ line_eq_nil⟩
  · rw [map_line, dropReturns_eq_join]
  · rw [numLines_eq, length_splitOn]

/-- Of two carriage returns before a newline one is dropped, the one at the end is, and behind the
third line there is none. -/
theorem lines_reconstruct_returns :
    Text.join [Text.newline] [utf8 "a\r", [], []] = Text.dropReturns (utf8 "a\r\r\n\n\r") ∧
      (numLines ⟨utf8 "in", utf8 "a\r\r\n\n\r"⟩ : Int) < 4 ∧
      line ⟨utf8 "in", utf8 "a\r\r\n\n\r"⟩ 4 = [] := by
  obtain ⟨hjoin, -, -, hnone⟩ := lines_reconstruct ⟨utf8 "in", utf8 "a\r\r\n\n\r"⟩
  have hlast : (numLines ⟨utf8 "in", utf8 "a\r\r\n\n\r"⟩ : Int) < 4 := by decide
  exact ⟨hjoin, hlast, hnone 4 (.inr hlast)⟩

end Source

end Tagfold
