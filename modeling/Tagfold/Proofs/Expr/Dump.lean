import Mathlib.Data.List.Forall2
import Tagfold.Expr.Dump
import Tagfold.Proofs.Expr.Walk

/-!
# Dumps into sinks that may refuse

A dump is a fold over what a walk from left to right visits, although its visitor prunes: it does so
only after something went wrong, when it is idle (`Expr.dump_eq_foldl`). Where nothing is missing
every expression has its line, so that dumping is putting these lines into the sink one by one.
`Expr.dump_writes` says how many of them a sink gets to see.
-/

namespace Tagfold

namespace Expr

namespace DumpState

/-- Write a line unless a write was refused before. -/
def put (s : DumpState) (line : Text) : DumpState :=
  if s.refused then s else ⟨(s.sink.write line).1, (s.sink.write line).2⟩

/-- After a refusal no line is written. -/
theorem foldl_put_of_refused {s : DumpState} (h : s.refused) (lines : List Text) :
    lines.foldl put s = s := by
  induction lines with
  | nil => rfl
  | cons line lines ih => rw [List.foldl_cons, put, if_pos h, ih]

/-- A sink that has room for all lines gets one write for each of them. -/
theorem foldl_put_of_room {room : Option Nat} {lines : List Text}
    (h : ∀ k, room = some k → lines.length ≤ k) (failure : Issue) (attempts : Nat)
    (chunks : List Text) :
    lines.foldl put ⟨⟨room, failure, attempts, chunks⟩, none⟩ =
      ⟨⟨room.map (· - lines.length), failure, attempts + lines.length, lines.reverse ++ chunks⟩,
        none⟩ := by
  induction lines generalizing room attempts chunks with
  | nil => cases room <;> rfl
  | cons line lines ih =>
      have hput : put ⟨⟨room, failure, attempts, chunks⟩, none⟩ line =
          ⟨⟨room.map (· - 1), failure, attempts + 1, line :: chunks⟩, none⟩ := by
        cases room with
        | none => rfl
        | some k =>
            cases k with
            | zero => exact absurd (h 0 rfl) (Nat.not_succ_le_zero _)
            | succ k => rfl
      have hroom : ∀ k, room.map (· - 1) = some k → lines.length ≤ k := by
        intro k hk
        obtain ⟨m, rfl, rfl⟩ := Option.map_eq_some_iff.mp hk
        have hm := h m rfl
        rw [List.length_cons] at hm
        omega
      rw [List.foldl_cons, hput, ih hroom, Option.map_map, List.length_cons, List.reverse_cons,
        List.append_assoc, Nat.add_assoc, Nat.add_comm 1]
      congr 3
      funext k
      show k - 1 - lines.length = k - (lines.length + 1)
      omega

/-- A sink that has no room for all lines is full after as many as it has room for, and refuses the
next one. -/
theorem foldl_put_of_short {k : Nat} {lines : List Text} (h : k < lines.length) (failure : Issue)
    (attempts : Nat) (chunks : List Text) :
    lines.foldl put ⟨⟨some k, failure, attempts, chunks⟩, none⟩ =
      ⟨⟨some 0, failure, attempts + k + 1, (lines.take k).reverse ++ chunks⟩, some failure⟩ := by
  have hlength : (lines.take k).length = k := by
    rw [List.length_take]
    exact Nat.min_eq_left (Nat.le_of_lt h)
  have hroom : ∀ m, some k = some m → (lines.take k).length ≤ m := by
    intro m hm
    cases hm
    exact Nat.le_of_eq hlength
  have hfull : (lines.take k).foldl put ⟨⟨some k, failure, attempts, chunks⟩, none⟩ =
      ⟨⟨some 0, failure, attempts + k, (lines.take k).reverse ++ chunks⟩, none⟩ := by
    rw [foldl_put_of_room hroom, hlength, Option.map_some, Nat.sub_self]
  calc lines.foldl put ⟨⟨some k, failure, attempts, chunks⟩, none⟩
    _ = (lines[k] :: lines.drop (k + 1)).foldl put
          ((lines.take k).foldl put ⟨⟨some k, failure, attempts, chunks⟩, none⟩) := by
        rw [← List.foldl_append, ← List.drop_eq_getElem_cons h, List.take_append_drop]
    _ = (lines.drop (k + 1)).foldl put
          ⟨⟨some 0, failure, attempts + k + 1, (lines.take k).reverse ++ chunks⟩,
            some failure⟩ := by
        rw [hfull, List.foldl_cons]
        rfl
    _ = ⟨⟨some 0, failure, attempts + k + 1, (lines.take k).reverse ++ chunks⟩, some failure⟩ :=
        foldl_put_of_refused rfl _

end DumpState

section Folds

variable {e : Expr} {ns : List (Nat × Expr)} {lines : List Text}

/-- A dump that went wrong has nothing more to do. -/
theorem idle_error (m : Misuse) : Visitor.Idle dumpVisitor (.error m) :=
  fun _ _ ↦ rfl

/-- A dump that was refused a write has nothing more to do. -/
theorem idle_refused {s : DumpState} (h : s.refused) : Visitor.Idle dumpVisitor (.ok s) := by
  intro level e
  rw [dumpVisitor, if_pos h]

/-- Dumping goes on below an expression unless it has nothing more to do. -/
theorem goesOn_or_idle (s : Except Misuse DumpState) (level : Nat) (e : Expr) :
    (dumpVisitor s level e).2 = true ∨ Visitor.Idle dumpVisitor (dumpVisitor s level e).1 := by
  cases s with
  | error m => exact .inr (idle_error m)
  | ok s =>
      rw [dumpVisitor]
      split
      · next hrefused => exact .inr (idle_refused hrefused)
      · split
        · exact .inr (idle_error _)
        · next line _ =>
            rcases s.sink.write line with ⟨sink, issue⟩
            cases issue with
            | none => exact .inl rfl
            | some i => exact .inr (idle_refused rfl)

/-- A dump is a fold over all that a walk from left to right visits, as if nothing were pruned. -/
theorem dump_eq_foldl (sink : Sink) (e : Expr) :
    dump sink e = (visited .leftToRight (fun _ ↦ true) e).foldl
      (fun s n ↦ (dumpVisitor s n.1 n.2).1) (.ok ⟨sink, none⟩) :=
  walk_eq_foldl goesOn_or_idle (.ok ⟨sink, none⟩) e

/-- An expression that is not missing has a line. -/
theorem exists_dumpLine (level : Nat) (he : e ≠ hole) : ∃ line, dumpLine level e = .ok line := by
  cases e with
  | hole => exact absurd rfl he
  | leaf t p v x => exact ⟨_, rfl⟩
  | node t p cs => exact ⟨_, rfl⟩

/-- Expressions that are not missing have lines. -/
theorem exists_dumpLines (h : ∀ n ∈ ns, n.2 ≠ hole) :
    ∃ lines, List.Forall₂ (fun n line ↦ dumpLine n.1 n.2 = .ok line) ns lines := by
  induction ns with
  | nil => exact ⟨[], .nil⟩
  | cons n ns ih =>
      rw [List.forall_mem_cons] at h
      obtain ⟨line, hline⟩ := exists_dumpLine n.1 h.1
      obtain ⟨lines, hlines⟩ := ih h.2
      exact ⟨line :: lines, .cons hline hlines⟩

/-- Dumping expressions that have lines is putting their lines into the sink. -/
theorem foldl_dumpVisitor (h : List.Forall₂ (fun n line ↦ dumpLine n.1 n.2 = .ok line) ns lines)
    (s : DumpState) :
    ns.foldl (fun s n ↦ (dumpVisitor s n.1 n.2).1) (.ok s) = .ok (lines.foldl DumpState.put s) := by
  induction h generalizing s with
  | nil => rfl
  | @cons n line ns lines hline _ ih =>
      have hput : (dumpVisitor (.ok s) n.1 n.2).1 = .ok (s.put line) := by
        rw [dumpVisitor, DumpState.put, hline]
        split <;> rfl
      rw [List.foldl_cons, List.foldl_cons, hput, ih]

end Folds

/-- Where nothing inside is missing, a dump writes one line for each expression, in the order of a
walk from left to right. A sink that has room for fewer writes gets one more than it accepts, and
the dump ends with the issue of that one, whatever it is; what was written are the first lines. A
sink that has room for all of them gets them all, and the dump ends without an issue. -/
theorem dump_writes {e : Expr} (h : ¬ hole.Inside e) :
    ∃ lines : List Text,
      List.Forall₂ (fun n line ↦ dumpLine n.1 n.2 = .ok line)
        (visited .leftToRight (fun _ ↦ true) e) lines ∧
      lines.length = 1 + numNodes (-1) e ∧
      dump .unlimited e =
        .ok ⟨{ Sink.unlimited with attempts := lines.length, chunks := lines.reverse }, none⟩ ∧
      dumpText e = .ok lines.flatten ∧
      ∀ k failure, ∃ s, dump { Sink.limited k with failure := failure } e = .ok s ∧
        (k < 1 + numNodes (-1) e →
          s.sink.attempts = k + 1 ∧ s.sink.written = (lines.take k).flatten ∧
            s.issue = some failure) ∧
        (1 + numNodes (-1) e ≤ k →
          s.sink.attempts = 1 + numNodes (-1) e ∧ s.sink.written = lines.flatten ∧
            s.issue = none) := by
  have he : e ≠ hole := fun hhole ↦ h (hhole ▸ .self)
  obtain ⟨lines, hlines⟩ : ∃ lines, List.Forall₂ (fun n line ↦ dumpLine n.1 n.2 = .ok line)
      (visited .leftToRight (fun _ ↦ true) e) lines := by
    refine exists_dumpLines fun n hn hhole ↦ h ?_
    rw [← hhole]
    exact (exists_mem_visited_iff he .leftToRight).mp ⟨n.1, hn⟩
  have hlength : lines.length = 1 + numNodes (-1) e := by
    rw [← hlines.length_eq, length_visited he _ (by omega : (-1 : Int) < 0)]
  have hdump (sink : Sink) : dump sink e = .ok (lines.foldl DumpState.put ⟨sink, none⟩) := by
    rw [dump_eq_foldl, foldl_dumpVisitor hlines]
  have hall : dump .unlimited e =
      .ok ⟨{ Sink.unlimited with attempts := lines.length, chunks := lines.reverse }, none⟩ := by
    have hroom : ∀ k, (none : Option Nat) = some k → lines.length ≤ k := nofun
    rw [hdump, Sink.unlimited, DumpState.foldl_put_of_room hroom, Nat.zero_add, List.append_nil]
    rfl
  refine ⟨lines, hlines, hlength, hall, ?_, fun k failure ↦ ⟨_, hdump _, ?_, ?_⟩⟩
  · rw [dumpText, hall]
    simp [Except.map, Sink.written]
  · intro hk
    rw [Sink.limited, DumpState.foldl_put_of_short (by omega)]
    simp [Sink.written]
  · intro hk
    have hroom : ∀ m, some k = some m → lines.length ≤ m := by
      intro m hm
      cases hm
      omega
    rw [Sink.limited, DumpState.foldl_put_of_room hroom]
    simp [Sink.written, hlength]

/-- Of the three lines of a node with two leaves, a sink with room for two writes gets the first two
and refuses the third. -/
theorem dump_writes_refused :
    ¬ hole.Inside (node .zero ⟨1, 1⟩ [leaf .zero ⟨1, 1⟩ .absent [], leaf .zero ⟨1, 2⟩ .absent []]) ∧
      ∃ (lines : List Text) (s : DumpState), lines.length = 3 ∧
        dump { Sink.limited 2 with failure := .plain (utf8 "disk full") }
          (node .zero ⟨1, 1⟩ [leaf .zero ⟨1, 1⟩ .absent [], leaf .zero ⟨1, 2⟩ .absent []]) = .ok s ∧
        s.sink.attempts = 3 ∧ s.sink.written = (lines.take 2).flatten ∧
        s.issue = some (.plain (utf8 "disk full")) := by
  have hwhole : ¬ hole.Inside
      (node .zero ⟨1, 1⟩ [leaf .zero ⟨1, 1⟩ .absent [], leaf .zero ⟨1, 2⟩ .absent []]) := by
    intro h
    obtain h | ⟨c, hc, hinside⟩ := inside_node_iff.mp h
    · cases h
    · simp only [List.mem_cons, List.not_mem_nil, or_false] at hc
      obtain rfl | rfl := hc <;> cases hinside
  obtain ⟨lines, -, hlength, -, -, hlimited⟩ := dump_writes hwhole
  obtain ⟨s, hs, hfew, -⟩ := hlimited 2 (.plain (utf8 "disk full"))
  obtain ⟨hattempts, hwritten, hissue⟩ := hfew (Nat.lt_succ_self 2)
  exact ⟨hwhole, lines, s, hlength, hs, hattempts, hwritten, hissue⟩

end Expr

end Tagfold
