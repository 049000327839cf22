import Tagfold.Proofs.Json.Reading

/-!
# Sequences that cannot be folded

A sequence that is read as a value and cannot be folded is that value alone: `read_of_stuck`. What
can be read and is not yet folded has an opening part before a complete one somewhere, and these can
be folded. The same holds of what is read as the members of an object or as an array that is not
closed, with the closing part behind it: `length_eq_one_of_members` and `length_eq_one_of_elements`.
-/

namespace Tagfold.Json

namespace Reading

variable {frames : List Frame} {part : Part}

/-- Nothing closes where something must come. -/
theorem read_slot_closers {behind : List Part} (h : Closers behind) (s : Slot) :
    s.read behind = none := by
  rcases behind with _ | ⟨part, behind⟩
  · rfl
  · have hpart := h part List.mem_cons_self
    cases part with
    | punct c pos =>
        cases c with
        | closeBrace | closeBracket => cases s <;> rfl
        | _ => cases hpart
    | _ => cases hpart

/-- Nothing closes behind a key. -/
theorem read_colon_closers {behind : List Part} (h : Closers behind) (p : Pos) (ms : List Member)
    (q : Pos) (k : Text) (frames : List Frame) :
    (State.colon p ms q k frames).read behind = none := by
  rcases behind with _ | ⟨part, behind⟩
  · rfl
  · have hpart := h part List.mem_cons_self
    cases part with
    | punct c pos =>
        cases c with
        | closeBrace | closeBracket => rfl
        | _ => cases hpart
    | _ => cases hpart

/-- A closing part ends the innermost container, or nothing is read. -/
theorem step_of_closes (h : part.closes = true) (p : Pos) (frames : List Frame) :
    (∀ vs, (State.items p vs frames).step part = none ∨
        ∃ v, (State.items p vs frames).step part = some (complete frames v)) ∧
      (∀ ms, (State.fields p ms frames).step part = none ∨
        ∃ v, (State.fields p ms frames).step part = some (complete frames v)) ∧
      ((State.bracket p frames).step part = none ∨
        ∃ v, (State.bracket p frames).step part = some (complete frames v)) ∧
      ((State.brace p frames).step part = none ∨
        ∃ v, (State.brace p frames).step part = some (complete frames v)) := by
  cases part with
  | punct c pos =>
      cases c with
      | closeBrace =>
          exact ⟨fun _ ↦ .inl rfl, fun _ ↦ .inr ⟨_, rfl⟩, .inl rfl, .inr ⟨_, rfl⟩⟩
      | closeBracket =>
          exact ⟨fun _ ↦ .inr ⟨_, rfl⟩, fun _ ↦ .inl rfl, .inr ⟨_, rfl⟩, .inl rfl⟩
      | _ => cases h
  | _ => cases h

/-- Parts that close at most the containers around an open one do not end the whole value. -/
theorem read_open_closers {behind : List Part} (h : Closers behind)
    (hlength : behind.length ≤ frames.length) (p : Pos) :
    (∀ vs, (State.items p vs frames).read behind = none) ∧
      (∀ ms, (State.fields p ms frames).read behind = none) ∧
      (State.bracket p frames).read behind = none ∧ (State.brace p frames).read behind = none := by
  induction behind generalizing frames p with
  | nil => exact ⟨fun _ ↦ rfl, fun _ ↦ rfl, rfl, rfl⟩
  | cons part behind ih =>
      -- What is closed first is completed inside the next container, which stays open.
      have hnext : ∀ next : Option State, (next = none ∨ ∃ w, next = some (complete frames w)) →
          (next.bind fun state ↦ state.read behind) = none := by
        rintro next (rfl | ⟨w, rfl⟩)
        · rfl
        · have hrest : Closers behind := fun a ha ↦ h a (List.mem_cons_of_mem _ ha)
          cases frames with
          | nil => cases hlength
          | cons frame frames =>
              have hopen := ih hrest (Nat.le_of_succ_le_succ hlength)
              cases frame with
              | array q vs => exact (hopen q).1 _
              | member q ms r k => exact (hopen q).2.1 _
      obtain ⟨hitems, hfields, hbracket, hbrace⟩ :=
        step_of_closes (h part List.mem_cons_self) p frames
      exact ⟨fun vs ↦ hnext _ (hitems vs), fun ms ↦ hnext _ (hfields ms), hnext _ hbracket,
        hnext _ hbrace⟩

end Reading

open Reading

namespace Stuck

variable {span rest parts : List Part} {part result : Part}

/-- What stands behind the first part of a stuck sequence is stuck. -/
theorem tail (h : Stuck (part :: rest)) : Stuck rest := by
  rintro before span behind result rfl
  exact h (part :: before) span behind result rfl

/-- Nothing can be folded at the start of a stuck sequence. -/
theorem not_fold (h : Stuck parts) (hfold : Fold span result) (hparts : parts = span ++ rest) :
    False :=
  h [] span rest result hparts hfold

/-- A stuck sequence has no point between integers. -/
theorem not_pointed (h : Stuck parts) : ¬ Pointed parts := by
  rintro ⟨before, p, m, q, r, n, behind, hparts⟩
  exact h before _ behind _ hparts (.decimal p q r m n)

/-- Stuck sequences of less than the given length start with a value if they are read as one and
closed inside the containers around it. -/
def ValuesBelow (behind : List Part) (length : Nat) : Prop :=
  ∀ parts : List Part, parts.length < length → ∀ frames : List Frame,
    behind.length ≤ frames.length → Stuck parts →
    (Slot.value frames).read (parts ++ behind) ≠ none → ∃ v rest, parts = .value v :: rest

variable {behind : List Part} (hbehind : Closers behind)

include hbehind

/-- A stuck sequence that is read as a member starts with members. -/
theorem starts_with_members {p : Pos} {ms : List Member} {frames : List Frame}
    (hshort : ValuesBelow behind parts.length) (hframes : behind.length ≤ frames.length + 1)
    (h : Stuck parts) (hread : (Slot.member p ms frames).read (parts ++ behind) ≠ none) :
    ∃ m ns rest, parts = .members m ns :: rest := by
  rcases parts with _ | ⟨part, rest⟩
  · exact absurd (read_slot_closers hbehind _) hread
  · cases part with
    | members m ns => exact ⟨m, ns, rest, rfl⟩
    | pair m => exact (h.not_fold (.member m) rfl).elim
    | key q k =>
        -- What follows the key is shorter, so it starts with a value, and the two can be folded.
        have hvalue : (Slot.value (.member p ms q k :: frames)).read (rest ++ behind) ≠ none := by
          rw [← read_slot]
          exact hread
        obtain ⟨v, more, rfl⟩ := hshort rest (by simp) (.member p ms q k :: frames) hframes
          h.tail hvalue
        exact (h.not_fold (.pair q k v) rfl).elim
    | value v =>
        cases v with
        | string q k raw =>
            rcases rest with _ | ⟨next, more⟩
            · exact absurd (read_colon_closers hbehind p ms q k frames) hread
            · cases next with
              | punct c r =>
                  cases c with
                  | colon => exact (h.not_fold (.key q r k raw) rfl).elim
                  | _ => exact absurd rfl hread
              | _ => exact absurd rfl hread
        | _ => exact absurd rfl hread
    | punct c pos => cases c <;> exact absurd rfl hread
    | elements => exact absurd rfl hread

omit hbehind

/-- More than elements is not stuck if it starts with them and is read as a value. -/
theorem not_elements {p : Pos} {v : Tree} {vs : List Tree} {frames : List Frame} (hrest : rest ≠ [])
    (hshort : ValuesBelow behind (rest.length + 1)) (hframes : behind.length ≤ frames.length + 1)
    (h : Stuck (.elements p v vs :: rest)) :
    (Slot.value frames).read (.elements p v vs :: rest ++ behind) = none := by
  by_contra hread
  rcases rest with _ | ⟨next, more⟩
  · exact hrest rfl
  · cases next with
    | punct c q =>
        cases c with
        | closeBracket => exact h.not_fold (.array p q v vs) rfl
        | comma =>
            have hnext :
                (Slot.value (.array p (v :: vs) :: frames)).read (more ++ behind) ≠ none := by
              rw [← read_slot]
              exact hread
            obtain ⟨w, more, rfl⟩ := hshort more (by simp only [List.length_cons]; omega)
              (.array p (v :: vs) :: frames) hframes h.tail.tail hnext
            exact h.not_fold (.next p q v w vs) rfl
        | _ => exact hread rfl
    | _ => exact hread rfl

/-- More than an opening bracket is not stuck if it starts with it and is read as a value. -/
theorem not_openBracket {p : Pos} {frames : List Frame} (hrest : rest ≠ [])
    (hshort : ValuesBelow behind (rest.length + 1)) (hframes : behind.length ≤ frames.length + 1)
    (h : Stuck (.punct .openBracket p :: rest)) :
    (Slot.value frames).read (.punct .openBracket p :: rest ++ behind) = none := by
  by_contra hread
  rcases rest with _ | ⟨next, more⟩
  · exact hrest rfl
  · by_cases hclose : ∃ q, next = .punct .closeBracket q
    · obtain ⟨q, rfl⟩ := hclose
      exact h.not_fold (.emptyArray p q) rfl
    · have hnext : (Slot.value (.array p [] :: frames)).read (next :: more ++ behind) ≠ none := by
        cases next with
        | punct c q =>
            cases c with
            | closeBracket => exact absurd ⟨q, rfl⟩ hclose
            | _ => exact hread
        | _ => exact hread
      obtain ⟨v, more, hmore⟩ := hshort (next :: more) (by simp) (.array p [] :: frames)
        hframes h.tail hnext
      cases hmore
      exact h.not_fold (.first p v) rfl

include hbehind

/-- Members at the start of a stuck sequence are alone in it, or end before the sequence is read. -/
theorem members_alone {p : Pos} {m : Member} {ns ms : List Member} {frames : List Frame}
    (hshort : ValuesBelow behind rest.length) (hframes : behind.length ≤ frames.length + 1)
    (h : Stuck (.members m ns :: rest))
    (hread : (State.fields p ms frames).read (rest ++ behind) ≠ none) :
    rest = [] ∨ ∃ q more, rest = .punct .closeBrace q :: more := by
  rcases rest with _ | ⟨next, more⟩
  · exact .inl rfl
  · cases next with
    | punct c q =>
        cases c with
        | closeBrace => exact .inr ⟨q, more, rfl⟩
        | comma =>
            have hmember : (Slot.member p ms frames).read (more ++ behind) ≠ none := by
              rw [← read_slot]
              exact hread
            have hbelow : ValuesBelow behind more.length := fun parts hlt ↦
              hshort parts (by simp only [List.length_cons]; omega)
            obtain ⟨n, ns', last, rfl⟩ :=
              starts_with_members hbehind hbelow hframes h.tail.tail hmember
            exact (h.not_fold (.members m n ns ns' q) rfl).elim
        | _ => exact absurd rfl hread
    | _ => exact absurd rfl hread

/-- More than an opening brace is not stuck if it starts with it and is read as a value. -/
theorem not_openBrace {p : Pos} {frames : List Frame} (hrest : rest ≠ [])
    (hshort : ValuesBelow behind (rest.length + 1)) (hframes : behind.length ≤ frames.length + 1)
    (hfields : ∀ ms, (State.fields p ms frames).read behind = none)
    (h : Stuck (.punct .openBrace p :: rest)) :
    (Slot.value frames).read (.punct .openBrace p :: rest ++ behind) = none := by
  by_contra hread
  rcases rest with _ | ⟨next, more⟩
  · exact hrest rfl
  · by_cases hclose : ∃ q, next = .punct .closeBrace q
    · obtain ⟨q, rfl⟩ := hclose
      exact h.not_fold (.emptyObject p q) rfl
    · have hnext : (Slot.member p [] frames).read (next :: more ++ behind) ≠ none := by
        cases next with
        | punct c q =>
            cases c with
            | closeBrace => exact absurd ⟨q, rfl⟩ hclose
            | _ => exact hread
        | _ => exact hread
      have hbelow : ValuesBelow behind (next :: more).length := fun parts hlt ↦
        hshort parts (by omega)
      obtain ⟨m, ms, last, hmore⟩ := starts_with_members hbehind hbelow hframes h.tail hnext
      cases hmore
      have hinner : ValuesBelow behind more.length := by
        intro parts hlt
        exact hbelow parts (by simp only [List.length_cons]; omega)
      rcases members_alone hbehind hinner hframes h.tail hread with rfl | ⟨q, rest, rfl⟩
      · exact hread (hfields _)
      · exact h.not_fold (.object p q m ms) rfl

/-- All stuck sequences that are read as a value, and closed inside the containers around it, start
with a value. -/
theorem valuesBelow (length : Nat) : ValuesBelow behind length := by
  -- Everything else that opens is followed by a shorter sequence that is read in turn, and what
  -- that one starts with can be folded with the opening part.
  induction length with
  | zero => exact fun parts hlt ↦ absurd hlt (Nat.not_lt_zero _)
  | succ length ih =>
      intro parts hlt frames hframes h hread
      rcases parts with _ | ⟨part, rest⟩
      · exact absurd (read_slot_closers hbehind _) hread
      · have hshort : ValuesBelow behind (rest.length + 1) := fun parts hparts ↦
          ih parts (by simp only [List.length_cons] at hlt; omega)
        have hmore : behind.length ≤ frames.length + 1 := by omega
        have hopen := read_open_closers hbehind hframes
        cases part with
        | value v => exact ⟨v, rest, rfl⟩
        | elements p v vs =>
            by_cases hrest : rest = []
            · subst hrest
              exact absurd ((hopen p).1 _) hread
            · exact absurd (not_elements hrest hshort hmore h) hread
        | punct c p =>
            cases c with
            | openBracket =>
                by_cases hrest : rest = []
                · subst hrest
                  exact absurd (hopen p).2.2.1 hread
                · exact absurd (not_openBracket hrest hshort hmore h) hread
            | openBrace =>
                by_cases hrest : rest = []
                · subst hrest
                  exact absurd (hopen p).2.2.2 hread
                · exact absurd (not_openBrace hbehind hrest hshort hmore (hopen p).2.1 h) hread
            | _ => exact absurd rfl hread
        | _ => exact absurd rfl hread

end Stuck

/-- A stuck sequence that is read as a value is that value alone. -/
theorem read_of_stuck {parts : List Part} {v : Tree} (h : Stuck parts)
    (hread : read parts = some v) :
    parts = [.value v] := by
  have hslot : (Slot.value []).read parts = some v := by rw [← read_slot, ← hread]; rfl
  obtain ⟨w, rest, rfl⟩ := @Stuck.valuesBelow [] nofun _ parts (Nat.lt_succ_self _) []
    (Nat.le_refl _) h (by rw [List.append_nil, hslot]; simp)
  rw [read_value (settled_of_not_pointed h.not_pointed (List.nil_append _).symm)] at hslot
  rcases rest with _ | ⟨next, more⟩
  · obtain rfl : w = v := Option.some.inj hslot
    rfl
  · cases hslot

/-- A stuck sequence that is read as the members of an object is one part. -/
theorem length_eq_one_of_members {parts : List Part} {p q : Pos} {ms : List Member}
    (h : Stuck parts)
    (hread : (Slot.member p ms []).read (parts ++ [.punct .closeBrace q]) ≠ none) :
    parts.length = 1 := by
  have hbehind : Closers [.punct .closeBrace q] := by simp [Closers, Part.closes]
  obtain ⟨m, ns, rest, rfl⟩ :=
    Stuck.starts_with_members hbehind (Stuck.valuesBelow hbehind _) (Nat.le_refl _) h hread
  rcases Stuck.members_alone hbehind (Stuck.valuesBelow hbehind _) (Nat.le_refl _) h hread
    with rfl | ⟨r, more, rfl⟩
  · rfl
  · -- The object has ended, and nothing may come behind it.
    cases more <;> exact absurd rfl hread

/-- A stuck sequence that is read as an array which is not closed is one part. -/
theorem length_eq_one_of_elements {parts : List Part} {q : Pos} (h : Stuck parts)
    (hread : (Slot.value []).read (parts ++ [.punct .closeBracket q]) ≠ none) :
    parts.length = 1 := by
  have hbehind : Closers [.punct .closeBracket q] := by simp [Closers, Part.closes]
  rcases parts with _ | ⟨part, rest⟩
  · exact absurd rfl hread
  · by_cases hrest : rest = []
    · rw [hrest]
      rfl
    · have hshort := Stuck.valuesBelow hbehind (rest.length + 1)
      cases part with
      | value v =>
          have hpoint := mt (Pointed.of_closers hbehind) h.not_pointed
          have hsettled : Settled v (rest ++ [.punct .closeBracket q]) :=
            settled_of_not_pointed hpoint (List.nil_append _).symm
          rw [List.cons_append, read_value hsettled] at hread
          cases rest <;> exact absurd rfl hread
      | elements p v vs =>
          exact absurd (Stuck.not_elements hrest hshort (Nat.le_refl _) h) hread
      | punct c p =>
          cases c with
          | openBracket =>
              exact absurd (Stuck.not_openBracket hrest hshort (Nat.le_refl _) h) hread
          | openBrace =>
              exact absurd (Stuck.not_openBrace hbehind hrest hshort (Nat.le_refl _)
                (fun _ ↦ rfl) h) hread
          | _ => exact absurd rfl hread
      | _ => exact absurd rfl hread

end Tagfold.Json
