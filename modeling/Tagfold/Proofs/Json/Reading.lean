import Tagfold.Proofs.Json.Folding

/-!
# Reading parts from left to right

A second reading of JSON parts, which folds nothing: a machine with a stack of open containers goes
through the parts from left to right and ends with a value, or fails. It is the invariant of the
folding. `Step.read_eq` says that no step changes what the machine reads, and `Derives.read` that
the machine reads the leaves of every derivation.
-/

namespace Tagfold.Json

namespace Reading

/-- A container around the value that is being read. -/
inductive Frame where
  | array (pos : Pos) (items : List Tree)
  | member (pos : Pos) (members : List Member) (keyPos : Pos) (key : Text)

/-- What must come next: a value, a member of an object, or the digits behind a point. -/
inductive Slot where
  | value (frames : List Frame)
  | member (pos : Pos) (members : List Member) (frames : List Frame)
  | fraction (pos : Pos) (whole : Numeral) (frames : List Frame)

/-- The machine between two parts. -/
inductive State where
  /-- Something must come. -/
  | slot (s : Slot)
  /-- Behind an opening bracket. -/
  | bracket (pos : Pos) (frames : List Frame)
  /-- Behind an opening brace. -/
  | brace (pos : Pos) (frames : List Frame)
  /-- Behind a value of an array. -/
  | items (pos : Pos) (vs : List Tree) (frames : List Frame)
  /-- Behind a member of an object. -/
  | fields (pos : Pos) (ms : List Member) (frames : List Frame)
  /-- Behind a string that must be a key. -/
  | colon (pos : Pos) (ms : List Member) (keyPos : Pos) (key : Text) (frames : List Frame)
  /-- Behind an integer, which may have a fraction. -/
  | integer (pos : Pos) (n : Numeral) (frames : List Frame)
  /-- Behind the whole value. -/
  | done (v : Tree)

/-- The state behind a complete value. -/
def complete : List Frame → Tree → State
  | [], v => .done v
  | .array p vs :: frames, v => .items p (vs ++ [v]) frames
  | .member p ms q k :: frames, v => .fields p (ms ++ [.mk q k v]) frames

/-- Take a part where something must come. -/
def Slot.take : Slot → Part → Option State
  | .value frames, .value (.integer p n) => some (.integer p n frames)
  | .value frames, .value v => some (complete frames v)
  | .value frames, .punct .openBracket p => some (.bracket p frames)
  | .value frames, .punct .openBrace p => some (.brace p frames)
  | .value frames, .elements p v vs => some (.items p (v :: vs) frames)
  | .member p ms frames, .value (.string q k _) => some (.colon p ms q k frames)
  | .member p ms frames, .key q k => some (.slot (.value (.member p ms q k :: frames)))
  | .member p ms frames, .pair m => some (.fields p (ms ++ [m]) frames)
  | .member p ms frames, .members m ns => some (.fields p (ms ++ m :: ns) frames)
  | .fraction p m frames, .value (.integer _ n) => some (complete frames (.decimal p m n))
  | _, _ => none

namespace State

/-- What may come next unless a bracket closes. -/
def slot? : State → Option Slot
  | slot s => some s
  | bracket p frames => some (.value (.array p [] :: frames))
  | brace p frames => some (.member p [] frames)
  | _ => none

/-- Take a part behind a complete value. -/
def resume : State → Part → Option State
  | items p vs frames, .punct .comma _ => some (slot (.value (.array p vs :: frames)))
  | items p vs frames, .punct .closeBracket _ => some (complete frames (.array p vs))
  | fields p ms frames, .punct .comma _ => some (slot (.member p ms frames))
  | fields p ms frames, .punct .closeBrace _ => some (complete frames (.object p ms))
  | _, _ => none

/-- Take a part. -/
def step : State → Part → Option State
  | bracket p frames, .punct .closeBracket _ => some (complete frames (.array p []))
  | brace p frames, .punct .closeBrace _ => some (complete frames (.object p []))
  | colon p ms q k frames, .punct .colon _ => some (slot (.value (.member p ms q k :: frames)))
  | integer p n frames, .punct .point _ => some (slot (.fraction p n frames))
  | integer p n frames, part => (complete frames (.integer p n)).resume part
  | items p vs frames, part => (items p vs frames).resume part
  | fields p ms frames, part => (fields p ms frames).resume part
  | state, part => state.slot?.bind (·.take part)

/-- The value that has been read, if it is complete. -/
def result? : State → Option Tree
  | done v => some v
  | integer p n [] => some (.integer p n)
  | _ => none

/-- The value that is read with the given parts to come. -/
def read (state : State) : List Part → Option Tree
  | [] => state.result?
  | part :: parts => (state.step part).bind fun next ↦ next.read parts

end State

/-- The value that is read where something must come. -/
def Slot.read (s : Slot) : List Part → Option Tree
  | [] => none
  | part :: parts => (s.take part).bind fun next ↦ next.read parts

/-- The value that parts are read as. -/
def read (parts : List Part) : Option Tree :=
  (State.slot (.value [])).read parts

end Reading

open Reading

/-- The part can stand where something must come. -/
def Part.opens : Part → Bool
  | punct .openBracket _ => true
  | punct .openBrace _ => true
  | punct _ _ => false
  | _ => true

/-- The part closes a container. -/
def Part.closes : Part → Bool
  | punct .closeBracket _ => true
  | punct .closeBrace _ => true
  | _ => false

/-- The parts are closing brackets and braces. -/
def Closers (parts : List Part) : Prop := ∀ part ∈ parts, part.closes = true

/-- Closing brackets behind a sequence put no point between integers. -/
theorem Pointed.of_closers {parts behind : List Part} (hbehind : Closers behind)
    (h : Pointed (parts ++ behind)) : Pointed parts := by
  obtain ⟨before, p, m, q, r, n, rest, hparts⟩ := h
  induction parts generalizing before with
  | nil =>
      rw [List.nil_append] at hparts
      cases hbehind (.value (.integer p m)) (by simp [hparts])
  | cons part parts ih =>
      rcases before with _ | ⟨first, before⟩
      · rcases parts with _ | ⟨second, parts⟩
        · obtain ⟨rfl, rfl⟩ := List.cons.inj hparts
          cases hbehind (.punct .point q) (by simp)
        · rcases parts with _ | ⟨third, parts⟩
          · simp only [List.cons_append, List.nil_append, List.cons.injEq] at hparts
            obtain ⟨-, -, rfl⟩ := hparts
            cases hbehind (.value (.integer r n)) (by simp)
          · simp only [List.cons_append, List.nil_append, List.cons.injEq] at hparts
            obtain ⟨rfl, rfl, rfl, -⟩ := hparts
            exact ⟨[], p, m, q, r, n, parts, rfl⟩
      · obtain ⟨before, p, m, q, r, n, rest, rfl⟩ := ih before (List.cons.inj hparts).2
        exact ⟨part :: before, p, m, q, r, n, rest, rfl⟩

/-- A point and an integer come next. -/
inductive Fraction : List Part → Prop where
  | mk (q r : Pos) (n : Numeral) (rest : List Part) :
      Fraction (.punct .point q :: .value (.integer r n) :: rest)

/-- The value is followed by no fraction that it could be joined with. -/
def Settled (v : Tree) (rest : List Part) : Prop := ∀ p n, v = .integer p n → ¬ Fraction rest

/-- Where integers stand around no point, every value is settled. -/
theorem settled_of_not_pointed {parts before rest : List Part} {v : Tree} (h : ¬ Pointed parts)
    (hparts : parts = before ++ .value v :: rest) : Settled v rest := by
  subst hparts
  rintro p m rfl ⟨q, r, n, behind⟩
  exact h ⟨before, p, m, q, r, n, behind, rfl⟩

namespace Reading

variable {frames : List Frame} {v : Tree} {part : Part} {parts rest : List Part}

/-- Where something must come, parts are read by that. -/
theorem read_slot (s : Slot) (parts : List Part) : (State.slot s).read parts = s.read parts := by
  cases parts <;> rfl

/-- Behind a complete value, every part is taken in the same way. -/
theorem step_complete (frames : List Frame) (v : Tree) (part : Part) :
    (complete frames v).step part = (complete frames v).resume part := by
  cases frames with
  | nil => rfl
  | cons frame frames => cases frame <;> rfl

/-- Behind a complete value nothing opens. -/
theorem resume_of_opens (h : part.opens = true) (state : State) : state.resume part = none := by
  cases part with
  | punct p pos =>
      cases p with
      | openBrace | openBracket => cases state <;> rfl
      | _ => cases h
  | _ => cases state <;> rfl

/-- An opening part is taken by what must come. -/
theorem step_of_opens (h : part.opens = true) (state : State) :
    state.step part = state.slot?.bind (·.take part) := by
  have hresume := resume_of_opens h
  cases state with
  | integer p n frames =>
      have hstep : (State.integer p n frames).step part =
          (complete frames (.integer p n)).resume part := by
        cases part with
        | punct q pos =>
            cases q with
            | openBrace | openBracket => rfl
            | _ => cases h
        | _ => rfl
      rw [hstep, hresume]
      rfl
  | items p vs frames =>
      rw [State.step, hresume]
      rfl
  | fields p ms frames =>
      rw [State.step, hresume]
      rfl
  | _ =>
      cases part with
      | punct q pos =>
          cases q with
          | openBrace | openBracket => rfl
          | _ => cases h
      | _ => rfl

/-- Parts that start with an opening one are read by what must come. -/
theorem read_of_opens (h : part.opens = true) (state : State) (parts : List Part) :
    state.read (part :: parts) = state.slot?.bind (·.read (part :: parts)) := by
  rw [State.read, step_of_opens h]
  cases state.slot? <;> rfl

/-- Behind a complete value, nothing is read from a part that cannot stand there. -/
theorem read_complete_of_resume (h : ∀ state : State, state.resume part = none)
    (frames : List Frame) (v : Tree) (rest : List Part) :
    (complete frames v).read (part :: rest) = none := by
  rw [State.read, step_complete, h]
  rfl

/-- Behind a complete value there is no point. -/
theorem resume_point (q : Pos) (state : State) : state.resume (.punct .point q) = none := by
  cases state <;> rfl

/-- Behind a complete value there is no colon. -/
theorem resume_colon (q : Pos) (state : State) : state.resume (.punct .colon q) = none := by
  cases state <;> rfl

/-- Behind an integer that has no fraction, the machine goes on as behind any complete value. -/
theorem read_integer {p : Pos} {n : Numeral} (h : ¬ Fraction rest) :
    (State.integer p n frames).read rest = (complete frames (.integer p n)).read rest := by
  rcases rest with _ | ⟨part, rest⟩
  · cases frames with
    | nil => rfl
    | cons frame frames => cases frame <;> rfl
  · rw [State.read, State.read, step_complete]
    by_cases hpoint : ∃ q, part = .punct .point q
    · obtain ⟨q, rfl⟩ := hpoint
      -- The machine waits for a fraction that does not come.
      have hfraction : (State.slot (.fraction p n frames)).read rest = none := by
        rcases rest with _ | ⟨next, rest⟩
        · rfl
        · cases next with
          | value w =>
              cases w with
              | integer r k => exact absurd (.mk q r k rest) h
              | _ => rfl
          | punct c pos => cases c <;> rfl
          | _ => rfl
      rw [resume_point]
      exact hfraction
    · have hstep : (State.integer p n frames).step part =
          (complete frames (.integer p n)).resume part := by
        cases part with
        | punct c pos =>
            cases c with
            | point => exact absurd ⟨pos, rfl⟩ hpoint
            | _ => rfl
        | _ => rfl
      rw [hstep]

/-- A settled value is taken as it is. -/
theorem read_value (h : Settled v rest) :
    (Slot.value frames).read (.value v :: rest) = (complete frames v).read rest := by
  cases v with
  | integer p n => exact read_integer (h p n rfl)
  | _ => rfl

/-- Integers that are joined at their point are read as before. -/
theorem read_point (s : Slot) (p q r : Pos) (m n : Numeral) (rest : List Part) :
    s.read (.value (.integer p m) :: .punct .point q :: .value (.integer r n) :: rest) =
      s.read (.value (.decimal p m n) :: rest) := by
  cases s with
  | value frames => rfl
  | member p' ms frames => rfl
  | fraction p' m' frames => exact read_complete_of_resume (resume_point q) frames _ _

/-- A folded span is read as before, unless its last value has a fraction to come. -/
theorem read_fold {span before : List Part} {result : Part} (hfold : Fold span result)
    (h : ¬ Pointed (before ++ (span ++ rest))) (s : Slot) :
    s.read (span ++ rest) = s.read (result :: rest) := by
  cases hfold with
  | decimal p q r m n => exact read_point s p q r m n rest
  | key p q k raw =>
      cases s with
      | value frames => exact read_complete_of_resume (resume_colon q) frames _ rest
      | _ => rfl
  | pair p k v =>
      -- The value of the pair is complete only where no fraction follows, which `h` excludes.
      cases s with
      | member p' ms frames =>
          show (Slot.value (.member p' ms p k :: frames)).read (.value v :: rest) =
            (complete (.member p' ms p k :: frames) v).read rest
          exact read_value
            (settled_of_not_pointed h (List.append_assoc before [.key p k] _).symm)
      | _ => rfl
  | member m => cases s <;> rfl
  | members m n ms ns q =>
      cases s with
      | member p' ms' frames =>
          show (State.fields p' ((ms' ++ m :: ms) ++ n :: ns) frames).read rest =
            (State.fields p' (ms' ++ m :: (ms ++ n :: ns)) frames).read rest
          rw [List.append_assoc, List.cons_append]
      | _ => rfl
  | object p q m ms => cases s <;> rfl
  | first p v =>
      cases s with
      | value frames =>
          have hopen : (State.bracket p frames).read (.value v :: rest) =
              (Slot.value (.array p [] :: frames)).read (.value v :: rest) := rfl
          show (State.bracket p frames).read (.value v :: rest)
            = (State.items p [v] frames).read rest
          rw [hopen]
          exact read_value
            (settled_of_not_pointed h (List.append_assoc before [.punct .openBracket p] _).symm)
      | _ => rfl
  | next p q v w vs =>
      cases s with
      | value frames =>
          show (Slot.value (.array p (v :: vs) :: frames)).read (.value w :: rest) =
            (complete (.array p (v :: vs) :: frames) w).read rest
          exact read_value (settled_of_not_pointed h
            (List.append_assoc before [.elements p v vs, .punct .comma q] _).symm)
      | _ => rfl
  | array p q v vs => cases s <;> rfl
  | emptyArray p q => cases s <;> rfl
  | emptyObject p q => cases s <;> rfl

/-- Parts that are read alike by every slot are read alike behind other parts, if they open. -/
theorem read_append {p q : Part} {ps qs : List Part} (hp : p.opens = true) (hq : q.opens = true)
    (h : ∀ s : Slot, s.read (p :: ps) = s.read (q :: qs)) (before : List Part) (state : State) :
    state.read (before ++ p :: ps) = state.read (before ++ q :: qs) := by
  induction before generalizing state with
  | nil =>
      rw [List.nil_append, List.nil_append, read_of_opens hp, read_of_opens hq]
      cases state.slot? with
      | none => rfl
      | some s => exact h s
  | cons part before ih =>
      rw [List.cons_append, List.cons_append, State.read, State.read]
      cases state.step part with
      | none => rfl
      | some next => exact ih next

end Reading

/-- A fold starts with an opening part, and its result is one. -/
theorem Fold.opens {span : List Part} {result : Part} (h : Fold span result) :
    (∃ p ps, span = p :: ps ∧ p.opens = true) ∧ result.opens = true := by
  cases h <;> exact ⟨⟨_, _, rfl, rfl⟩, rfl⟩

/-- No step changes what is read, wherever the machine starts and whatever is closed behind. -/
theorem Step.read_eq {parts folded behind : List Part} (h : Step parts folded)
    (hbehind : Closers behind) (state : State) :
    state.read (parts ++ behind) = state.read (folded ++ behind) := by
  cases h with
  | point before rest p q r m n =>
      rw [List.append_assoc, List.append_assoc, List.append_assoc, List.cons_append]
      exact read_append rfl rfl (fun s ↦ read_point s p q r m n (rest ++ behind)) before state
  | fold before rest hfold hpoint =>
      have hpoint := mt (Pointed.of_closers hbehind) hpoint
      obtain ⟨⟨first, more, rfl, hfirst⟩, hresult⟩ := hfold.opens
      rw [List.append_assoc, List.append_assoc] at hpoint ⊢
      rw [List.append_assoc, List.cons_append]
      exact read_append hfirst hresult (read_fold hfold hpoint) before state

/-- The part that a token is. -/
inductive Leaf : Token → Part → Prop where
  | punct {t : Token} {p : Punct} : IsPunct p t → Leaf t (.punct p t.pos)
  | constant {t : Token} {c : Constant} : IsConstant c t → Leaf t (.value (.constant t.pos c))
  | string {t : Token} {s : Text} : IsString s t → Leaf t (.value (.string t.pos s t.text))
  | numeral {t : Token} {n : Numeral} : IsNumeral n t → Leaf t (.value (.integer t.pos n))

/-- The tokens are the parts, one by one. -/
abbrev Leaves (ts : List Token) (parts : List Part) : Prop := List.Forall₂ Leaf ts parts

/-- Lists of leaves can be joined. -/
theorem Leaves.append {ts us : List Token} {parts more : List Part} (h : Leaves ts parts)
    (hmore : Leaves us more) : Leaves (ts ++ us) (parts ++ more) :=
  List.rel_append h hmore

/-- How the machine reads the parts of a phrase where it must come, if no fraction follows. -/
def Phrase.ReadFrom (parts : List Part) : Phrase → Prop
  | .value v => ∀ frames rest, ¬ Fraction rest →
      (Slot.value frames).read (parts ++ rest) = (complete frames v).read rest
  | .pair m => ∀ p ms frames rest, ¬ Fraction rest →
      (Slot.member p ms frames).read (parts ++ rest) = (State.fields p (ms ++ [m]) frames).read rest
  | .members ns => ∀ p ms frames rest, ¬ Fraction rest →
      (Slot.member p ms frames).read (parts ++ rest) = (State.fields p (ms ++ ns) frames).read rest
  | .items ws => ∀ p vs frames rest, ¬ Fraction rest →
      (Slot.value (.array p vs :: frames)).read (parts ++ rest) =
        (State.items p (vs ++ ws) frames).read rest

namespace Phrase.ReadFrom

variable {first : Part} {inner more : List Part} {p q : Pos}

/-- Members between braces are read as an object. -/
theorem object {ms : List Member} (hfirst : first.opens = true)
    (h : (Phrase.members ms).ReadFrom (first :: inner)) :
    (Phrase.value (.object p ms)).ReadFrom
      (.punct .openBrace p :: (first :: inner ++ [.punct .closeBrace q])) := by
  intro frames rest _
  show (State.brace p frames).read (first :: inner ++ [.punct .closeBrace q] ++ rest) = _
  rw [List.append_assoc, List.cons_append, read_of_opens hfirst]
  exact h p [] frames (.punct .closeBrace q :: rest) nofun

/-- Values between brackets are read as an array. -/
theorem array {vs : List Tree} (hfirst : first.opens = true)
    (h : (Phrase.items vs).ReadFrom (first :: inner)) :
    (Phrase.value (.array p vs)).ReadFrom
      (.punct .openBracket p :: (first :: inner ++ [.punct .closeBracket q])) := by
  intro frames rest _
  show (State.bracket p frames).read (first :: inner ++ [.punct .closeBracket q] ++ rest) = _
  rw [List.append_assoc, List.cons_append, read_of_opens hfirst]
  exact h p [] frames (.punct .closeBracket q :: rest) nofun

/-- A key, a colon and a value are read as a member. -/
theorem pair {v : Tree} {k raw : Text} (h : (Phrase.value v).ReadFrom inner) :
    (Phrase.pair (.mk p k v)).ReadFrom (.value (.string p k raw) :: .punct .colon q :: inner) := by
  intro p' ms frames rest hrest
  show (State.slot (.value (.member p' ms p k :: frames))).read (inner ++ rest) = _
  rw [read_slot]
  exact h (.member p' ms p k :: frames) rest hrest

/-- A member, a comma and members are read as members. -/
theorem nextMember {m : Member} {ms : List Member} (hm : (Phrase.pair m).ReadFrom inner)
    (hms : (Phrase.members ms).ReadFrom more) :
    (Phrase.members (m :: ms)).ReadFrom (inner ++ .punct .comma q :: more) := by
  intro p' ns frames rest hrest
  rw [List.append_assoc, List.cons_append,
    hm p' ns frames (.punct .comma q :: (more ++ rest)) nofun]
  show (State.slot (.member p' (ns ++ [m]) frames)).read (more ++ rest) = _
  rw [read_slot, hms p' (ns ++ [m]) frames rest hrest, List.append_assoc, List.singleton_append]

/-- A value, a comma and values are read as values. -/
theorem nextItem {v : Tree} {vs : List Tree} (hv : (Phrase.value v).ReadFrom inner)
    (hvs : (Phrase.items vs).ReadFrom more) :
    (Phrase.items (v :: vs)).ReadFrom (inner ++ .punct .comma q :: more) := by
  intro p' ws frames rest hrest
  rw [List.append_assoc, List.cons_append,
    hv (.array p' ws :: frames) (.punct .comma q :: (more ++ rest)) nofun]
  show (State.slot (.value (.array p' (ws ++ [v]) :: frames))).read (more ++ rest) = _
  rw [read_slot, hvs p' (ws ++ [v]) frames rest hrest, List.append_assoc, List.singleton_append]

end Phrase.ReadFrom

/-- The machine reads the leaves of every derivation. -/
theorem Derives.leaves {ts : List Token} {phrase : Phrase} (h : Derives ts phrase) :
    ∃ first rest, first.opens = true ∧ Leaves ts (first :: rest) ∧
      phrase.ReadFrom (first :: rest) := by
  induction h with
  | string ht => exact ⟨_, [], rfl, .cons (.string ht) .nil, fun _ _ _ ↦ rfl⟩
  | integer ht =>
      exact ⟨_, [], rfl, .cons (.numeral ht) .nil, fun _ _ hrest ↦ read_integer hrest⟩
  | decimal ht hp hu =>
      exact ⟨_, _, rfl, .cons (.numeral ht) (.cons (.punct hp) (.cons (.numeral hu) .nil)),
        fun _ _ _ ↦ read_point _ _ _ _ _ _ _⟩
  | constant ht => exact ⟨_, [], rfl, .cons (.constant ht) .nil, fun _ _ _ ↦ rfl⟩
  | emptyObject ho hc =>
      exact ⟨_, _, rfl, .cons (.punct ho) (.cons (.punct hc) .nil), fun _ _ _ ↦ rfl⟩
  | emptyArray ho hc =>
      exact ⟨_, _, rfl, .cons (.punct ho) (.cons (.punct hc) .nil), fun _ _ _ ↦ rfl⟩
  | object ho _ hc ih =>
      obtain ⟨first, inner, hfirst, hleaves, hread⟩ := ih
      exact ⟨_, _, rfl, .cons (.punct ho) (hleaves.append (.cons (.punct hc) .nil)),
        .object hfirst hread⟩
  | array ho _ hc ih =>
      obtain ⟨first, inner, hfirst, hleaves, hread⟩ := ih
      exact ⟨_, _, rfl, .cons (.punct ho) (hleaves.append (.cons (.punct hc) .nil)),
        .array hfirst hread⟩
  | pair hk hc _ ih =>
      obtain ⟨first, inner, -, hleaves, hread⟩ := ih
      exact ⟨_, _, rfl, .cons (.string hk) (.cons (.punct hc) hleaves), .pair hread⟩
  | lastMember _ ih => exact ih
  | nextMember _ hc _ ihm ihms =>
      obtain ⟨first, inner, hfirst, hleaves, hread⟩ := ihm
      obtain ⟨second, more, -, hmore, hreadMore⟩ := ihms
      exact ⟨first, _, hfirst, hleaves.append (.cons (.punct hc) hmore),
        .nextMember hread hreadMore⟩
  | lastItem _ ih =>
      obtain ⟨first, inner, hfirst, hleaves, hread⟩ := ih
      exact ⟨first, inner, hfirst, hleaves, fun p vs frames ↦ hread (.array p vs :: frames)⟩
  | nextItem _ hc _ ihv ihvs =>
      obtain ⟨first, inner, hfirst, hleaves, hread⟩ := ihv
      obtain ⟨second, more, -, hmore, hreadMore⟩ := ihvs
      exact ⟨first, _, hfirst, hleaves.append (.cons (.punct hc) hmore), .nextItem hread hreadMore⟩

/-- The leaves of a derived value are read as that value. -/
theorem Derives.read {ts : List Token} {v : Tree} (h : Derives ts (.value v)) :
    ∃ parts, Leaves ts parts ∧ Reading.read parts = some v := by
  obtain ⟨first, rest, -, hleaves, hread⟩ := h.leaves
  refine ⟨first :: rest, hleaves, ?_⟩
  have hread := hread [] [] nofun
  rw [List.append_nil, ← read_slot] at hread
  exact hread

end Tagfold.Json
