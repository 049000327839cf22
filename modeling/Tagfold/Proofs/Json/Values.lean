import Tagfold.Proofs.Json.Members

/-!
# Which expressions are values

Decoding and printing recur over expressions of any shape, made by hand or parsed, and each checks
tags, pairs and values on its own way down. Both follow the form of expressions, apart from what
they accept as a leaf: `decode_follows` and `print_follows`. So printing succeeds exactly if
decoding does and every leaf that is decoded has a value of the kind that its tag promises, and if
decoding reports an issue then printing reports one: `print_ok_iff_decode_ok`.
-/

namespace Tagfold.Json

/-- The names of expressions that are read from the value of a leaf. -/
def leafNames : List Text := [stringTagName, integerTagName, decimalName]

/-- The names of expressions that are read without looking at them any further. -/
def constantNames : List Text := [trueName, falseName, nullName]

/-- An expression has none of the names of values, or it is named as a leaf, a constant, an array or
an object. -/
theorem name_cases (e : Expr) :
    (∀ name ∈ valueNames, e.name ≠ .ok name) ∨ (∃ name ∈ leafNames, e.name = .ok name) ∨
      (∃ name ∈ constantNames, e.name = .ok name) ∨ e.name = .ok arrayName ∨
      e.name = .ok objectName := by
  by_cases h : ∃ name ∈ valueNames, e.name = .ok name
  · obtain ⟨name, hmem, hname⟩ := h
    have hsplit : name ∈ leafNames ∨ name ∈ constantNames ∨ name = arrayName ∨
        name = objectName := by
      simp only [valueNames, leafNames, constantNames, List.mem_cons, List.not_mem_nil,
        or_false] at hmem ⊢
      tauto
    obtain hmem | hmem | rfl | rfl := hsplit
    · exact .inr (.inl ⟨name, hmem, hname⟩)
    · exact .inr (.inr (.inl ⟨name, hmem, hname⟩))
    · exact .inr (.inr (.inr (.inl hname)))
    · exact .inr (.inr (.inr (.inr hname)))
  · exact .inl fun name hmem hname ↦ h ⟨name, hmem, hname⟩

/-- An expression of another name than values have has none of the names of values. -/
theorem names_ne {e : Expr} {t : Tag} (h : ∀ name ∈ valueNames, e.name ≠ .ok name)
    (ht : e.name = .ok t.name) :
    t.name ≠ stringTagName ∧ t.name ≠ integerTagName ∧ t.name ≠ decimalName ∧
      t.name ≠ objectName ∧ t.name ≠ arrayName ∧ t.name ≠ trueName ∧ t.name ≠ falseName ∧
      t.name ≠ nullName := by
  have hne : ∀ name ∈ valueNames, t.name ≠ name := fun name hmem heq ↦ h name hmem (heq ▸ ht)
  simpa [valueNames] using hne

/-- A recursion over expressions that follows their form: it has a result for constants, for the
scalars that it accepts, and for arrays and objects whose values it has results for. -/
structure Follows {α : Type} (read : Expr → Except Fault α) (accepts : Expr → Prop) : Prop where
  other {e : Expr} : (∀ name ∈ valueNames, e.name ≠ .ok name) → ∃ fault, read e = .error fault
  scalar {e : Expr} {name : Text} : name ∈ leafNames → e.name = .ok name →
    ((∃ a, read e = .ok a) ↔ accepts e)
  constant {e : Expr} {name : Text} : name ∈ constantNames → e.name = .ok name →
    ∃ a, read e = .ok a
  array {e : Expr} : e.name = .ok arrayName →
    ((∃ a, read e = .ok a) ↔ ∀ c ∈ e.children, ∃ a, read c = .ok a)
  object {e : Expr} : e.name = .ok objectName → ((∃ a, read e = .ok a) ↔
    ∀ p ∈ e.children, ∃ key v, IsPair p key v ∧ ∃ a, read v = .ok a)

/-- A computation has an error exactly if it has no result. -/
theorem exists_error_iff {ε α : Type} {x : Except ε α} :
    (∃ fault, x = .error fault) ↔ ¬ ∃ a, x = .ok a := by
  cases x with
  | error fault => simp
  | ok a => simp

/-- A mapped computation has a result exactly if the computation has one. -/
theorem exists_map_iff {ε α β : Type} {f : α → β} {x : Except ε α} :
    (∃ b, x.map f = .ok b) ↔ ∃ a, x = .ok a := by
  cases x with
  | error fault => simp [Except.map]
  | ok a => simp [Except.map]

/-- An array is decoded value by value. -/
theorem decode_array {e : Expr} (h : e.name = .ok arrayName) :
    decode e = (decodeItems e.children).map .list := by
  cases e with
  | hole => cases h
  | leaf | node =>
      have ht := Except.ok.inj h
      rw [decode, ht]
      rfl

/-- An object is decoded member by member. -/
theorem decode_object {e : Expr} (h : e.name = .ok objectName) :
    decode e = (decodeMembers [] e.children).map .object := by
  cases e with
  | hole => cases h
  | leaf | node =>
      have ht := Except.ok.inj h
      rw [decode, ht]
      rfl

/-- Decoding follows the form of expressions and accepts leaves whatever their value is. -/
theorem decode_follows : Follows decode fun e ↦ e.isNode = false where
  other {e} h := by
    cases e with
    | hole => exact ⟨_, rfl⟩
    | leaf t p v x =>
        obtain ⟨hstring, hinteger, hdecimal, hobject, harray, htrue, hfalse, hnull⟩ :=
          names_ne h (t := t) rfl
        simp only [decode, hstring, hinteger, hdecimal, hobject, harray, htrue, hfalse, hnull,
          or_self, if_false]
        exact unexpected_eq_error _
    | node t p cs =>
        obtain ⟨-, -, -, hobject, harray, htrue, hfalse, hnull⟩ := names_ne h (t := t) rfl
        simp only [decode, hobject, harray, htrue, hfalse, hnull, if_false]
        exact unexpected_eq_error _
  scalar {e name} hmem h := by
    cases e with
    | hole => cases h
    | leaf t p v x =>
        have ht : t.name = name := Except.ok.inj h
        refine ⟨fun _ ↦ rfl, fun _ ↦ ⟨.scalar v, ?_⟩⟩
        rw [decode, ht, if_pos (by simpa [leafNames] using hmem)]
    | node t p cs =>
        have ht : t.name = name := Except.ok.inj h
        have hunexpected : decode (.node t p cs) = unexpected (.node t p cs) := by
          simp only [leafNames, List.mem_cons, List.not_mem_nil, or_false] at hmem
          rw [decode, ht]
          obtain rfl | rfl | rfl := hmem <;> rfl
        refine ⟨fun hd ↦ ?_, nofun⟩
        obtain ⟨d, hd⟩ := hd
        exact absurd (hunexpected.symm.trans hd) (unexpected_ne_ok _ _)
  constant {e name} hmem h := by
    simp only [constantNames, List.mem_cons, List.not_mem_nil, or_false] at hmem
    cases e with
    | hole => cases h
    | leaf | node =>
        have ht := Except.ok.inj h
        rw [decode, ht]
        obtain rfl | rfl | rfl := hmem <;> exact ⟨_, rfl⟩
  array h := by
    rw [decode_array h, exists_map_iff, decodeItems_eq_mapM, Except.exists_mapM_iff]
  object h := by
    rw [decode_object h, exists_map_iff, decodeMembers_eq_mapM, exists_map_iff, exists_members_iff]

/-- A string, an integer or a decimal has a value of the kind that its tag promises. -/
structure Fits (e : Expr) : Prop where
  string : e.name = .ok stringTagName → ∃ t, e.value = .text t
  integer : e.name = .ok integerTagName → (∃ i, e.value = .int i) ∨ ∃ d, e.value = .double d
  decimal : e.name = .ok decimalName → ∃ d, e.value = .double d

/-- An expression has one name. -/
theorem name_ne {e : Expr} {name other : Text} (h : e.name = .ok name) (hne : name ≠ other) :
    e.name ≠ .ok other := by
  rw [h]
  exact fun heq ↦ hne (Except.ok.inj heq)

/-- Nothing is promised of expressions that are no scalars. -/
theorem fits_of_not_scalar {e : Expr} {name : Text} (h : e.name = .ok name)
    (hname : name ∉ leafNames) : Fits e := by
  simp only [leafNames, List.mem_cons, not_or] at hname
  obtain ⟨hstring, hinteger, hdecimal, -⟩ := hname
  exact ⟨fun hn ↦ absurd hn (name_ne h hstring), fun hn ↦ absurd hn (name_ne h hinteger),
    fun hn ↦ absurd hn (name_ne h hdecimal)⟩

/-- A scalar that has a value of its kind is a leaf. -/
theorem Fits.isNode_eq_false {e : Expr} {name : Text} (h : Fits e) (hmem : name ∈ leafNames)
    (hname : e.name = .ok name) : e.isNode = false := by
  cases e with
  | hole => rfl
  | leaf t p v x => rfl
  | node t p cs =>
      simp only [leafNames, List.mem_cons, List.not_mem_nil, or_false] at hmem
      obtain rfl | rfl | rfl := hmem
      · obtain ⟨_, hvalue⟩ := h.string hname
        cases hvalue
      · obtain ⟨_, hvalue⟩ | ⟨_, hvalue⟩ := h.integer hname <;> cases hvalue
      · obtain ⟨_, hvalue⟩ := h.decimal hname
        cases hvalue

/-- The literal of a string is printed exactly if its value is a text. -/
theorem exists_printString_iff {e : Expr} :
    (∃ t, printString e = .ok t) ↔ ∃ s, e.value = .text s := by
  unfold printString
  split
  · next s hs => exact ⟨fun _ ↦ ⟨s, hs⟩, fun _ ↦ ⟨_, rfl⟩⟩
  · next hs => exact ⟨fun h ↦ absurd h.choose_spec (unexpected_ne_ok _ _),
      fun h ↦ absurd h.choose_spec (hs _)⟩

/-- The numeral of an integer is printed exactly if its value is an integer or a double. -/
theorem exists_printInteger_iff {e : Expr} :
    (∃ t, printInteger e = .ok t) ↔ (∃ i, e.value = .int i) ∨ ∃ d, e.value = .double d := by
  unfold printInteger
  split
  · next i hi => exact ⟨fun _ ↦ .inl ⟨i, hi⟩, fun _ ↦ ⟨_, rfl⟩⟩
  · next d hd => exact ⟨fun _ ↦ .inr ⟨d, hd⟩, fun _ ↦ ⟨_, rfl⟩⟩
  · next hi hd => exact ⟨fun h ↦ absurd h.choose_spec (unexpected_ne_ok _ _),
      fun h ↦ h.elim (fun h ↦ absurd h.choose_spec (hi _)) fun h ↦ absurd h.choose_spec (hd _)⟩

/-- The numeral of a decimal is printed exactly if its value is a double. -/
theorem exists_printDecimal_iff {e : Expr} :
    (∃ t, printDecimal e = .ok t) ↔ ∃ d, e.value = .double d := by
  unfold printDecimal
  split
  · next d hd => exact ⟨fun _ ↦ ⟨d, hd⟩, fun _ ↦ ⟨_, rfl⟩⟩
  · next hd => exact ⟨fun h ↦ absurd h.choose_spec (unexpected_ne_ok _ _),
      fun h ↦ absurd h.choose_spec (hd _)⟩

/-- A scalar is printed by its name. -/
theorem print_eq_of_scalar {e : Expr} {name : Text} {printed : Except Fault Text}
    (h : e.name = .ok name) (hscalar : printScalar? name e = some printed) : print e = printed := by
  cases e with
  | hole => cases h
  | leaf | node =>
      have ht := Except.ok.inj h
      rw [print, ht, hscalar]

/-- An array is printed value by value. -/
theorem print_array {e : Expr} (h : e.name = .ok arrayName) :
    print e = (printItems e.children).map
      fun items ↦ utf8 "[" ++ Text.join (utf8 ",") items ++ utf8 "]" := by
  cases e with
  | hole => cases h
  | leaf | node =>
      have ht := Except.ok.inj h
      rw [print, ht]
      rfl

/-- An object is printed member by member. -/
theorem print_object {e : Expr} (h : e.name = .ok objectName) :
    print e = (printMembers e.children).map
      fun members ↦ utf8 "\x7b" ++ Text.join (utf8 ",") members ++ utf8 "\x7d" := by
  cases e with
  | hole => cases h
  | leaf | node =>
      have ht := Except.ok.inj h
      rw [print, ht]
      rfl

/-- Printing follows the form of expressions and accepts leaves with values of their kinds. -/
theorem print_follows : Follows print Fits where
  other {e} h := by
    have hnone {t : Tag} (ht : e.name = .ok t.name) :
        printScalar? t.name e = none ∧ t.name ≠ arrayName ∧ t.name ≠ objectName := by
      obtain ⟨hstring, hinteger, hdecimal, hobject, harray, htrue, hfalse, hnull⟩ := names_ne h ht
      refine ⟨?_, harray, hobject⟩
      simp only [printScalar?, hstring, hinteger, hdecimal, htrue, hfalse, hnull, if_false]
    cases e with
    | hole => exact ⟨_, rfl⟩
    | leaf | node =>
        obtain ⟨hscalar, harray, hobject⟩ := hnone rfl
        simp only [print, hscalar, harray, hobject, if_false]
        exact unexpected_eq_error _
  scalar {e name} hmem h := by
    simp only [leafNames, List.mem_cons, List.not_mem_nil, or_false] at hmem
    obtain rfl | rfl | rfl := hmem
    · rw [print_eq_of_scalar h rfl, exists_printString_iff]
      exact ⟨fun hv ↦ ⟨fun _ ↦ hv, fun hn ↦ absurd hn (name_ne h (by decide)),
        fun hn ↦ absurd hn (name_ne h (by decide))⟩, fun hf ↦ hf.string h⟩
    · rw [print_eq_of_scalar h rfl, exists_printInteger_iff]
      exact ⟨fun hv ↦ ⟨fun hn ↦ absurd hn (name_ne h (by decide)), fun _ ↦ hv,
        fun hn ↦ absurd hn (name_ne h (by decide))⟩, fun hf ↦ hf.integer h⟩
    · rw [print_eq_of_scalar h rfl, exists_printDecimal_iff]
      exact ⟨fun hv ↦ ⟨fun hn ↦ absurd hn (name_ne h (by decide)),
        fun hn ↦ absurd hn (name_ne h (by decide)), fun _ ↦ hv⟩, fun hf ↦ hf.decimal h⟩
  constant {e name} hmem h := by
    simp only [constantNames, List.mem_cons, List.not_mem_nil, or_false] at hmem
    obtain rfl | rfl | rfl := hmem <;> exact ⟨_, print_eq_of_scalar h rfl⟩
  array h := by
    rw [print_array h, exists_map_iff, printItems_eq_mapM, Except.exists_mapM_iff]
  object h := by
    rw [print_object h, exists_map_iff, printMembers_eq_mapM, exists_map_iff, exists_members_iff]

/-- The second expression is decoded as a value when the first one is: it is the expression itself,
or a value of an array or of a pair of an object that is decoded so. -/
inductive Reaches : Expr → Expr → Prop where
  | refl (e : Expr) : Reaches e e
  | item {e c v : Expr} : e.name = .ok arrayName → c ∈ e.children → Reaches c v → Reaches e v
  | member {e p w v : Expr} {key : Text} : e.name = .ok objectName → p ∈ e.children →
      IsPair p key w → Reaches w v → Reaches e v

section Reached

variable {e : Expr} {P : Expr → Prop}

/-- From an expression that is neither an array nor an object nothing else is reached. -/
theorem forall_reaches_iff (harray : e.name ≠ .ok arrayName) (hobject : e.name ≠ .ok objectName) :
    (∀ v, Reaches e v → P v) ↔ P e := by
  constructor
  · intro h
    exact h e (.refl e)
  · intro h v hv
    cases hv with
    | refl => exact h
    | item hname => exact absurd hname harray
    | member hname => exact absurd hname hobject

/-- What is reached from an array is the array or reached from one of its values. -/
theorem forall_reaches_array_iff (h : e.name = .ok arrayName) (he : P e) :
    (∀ v, Reaches e v → P v) ↔ ∀ c ∈ e.children, ∀ v, Reaches c v → P v := by
  constructor
  · intro hall c hc v hv
    exact hall v (.item h hc hv)
  · intro hall v hv
    cases hv with
    | refl => exact he
    | item _ hc hv => exact hall _ hc v hv
    | member hname => exact absurd hname (name_ne h (by decide))

/-- What is reached from an object is the object or reached from the value of one of its pairs. -/
theorem forall_reaches_object_iff (h : e.name = .ok objectName) (he : P e) :
    (∀ v, Reaches e v → P v) ↔
      ∀ p ∈ e.children, ∀ key w, IsPair p key w → ∀ v, Reaches w v → P v := by
  constructor
  · intro hall p hp key w hpair v hv
    exact hall v (.member h hp hpair hv)
  · intro hall v hv
    cases hv with
    | refl => exact he
    | item hname => exact absurd hname (name_ne h (by decide))
    | member _ hp hpair hv => exact hall _ hp _ _ hpair v hv

end Reached

/-- An expression is printed exactly if it is decoded and every leaf that is decoded as a value has
a value of its kind. -/
theorem exists_print_iff (e : Expr) :
    (∃ t, print e = .ok t) ↔ (∃ d, decode e = .ok d) ∧ ∀ v, Reaches e v → Fits v := by
  induction e using Expr.induct with
  | step e ih =>
      obtain hother | ⟨name, hmem, hname⟩ | ⟨name, hmem, hname⟩ | hname | hname := name_cases e
      · obtain ⟨fault, hdecode⟩ := decode_follows.other hother
        obtain ⟨fault', hprint⟩ := print_follows.other hother
        simp [hdecode, hprint]
      · have hsort : arrayName ∉ leafNames ∧ objectName ∉ leafNames := by decide
        have harray : name ≠ arrayName := fun heq ↦ hsort.1 (heq ▸ hmem)
        have hobject : name ≠ objectName := fun heq ↦ hsort.2 (heq ▸ hmem)
        rw [print_follows.scalar hmem hname, decode_follows.scalar hmem hname,
          forall_reaches_iff (name_ne hname harray) (name_ne hname hobject)]
        exact ⟨fun h ↦ ⟨h.isNode_eq_false hmem hname, h⟩, And.right⟩
      · have hsort : arrayName ∉ constantNames ∧ objectName ∉ constantNames ∧
            ∀ name ∈ constantNames, name ∉ leafNames := by decide
        have harray : name ≠ arrayName := fun heq ↦ hsort.1 (heq ▸ hmem)
        have hobject : name ≠ objectName := fun heq ↦ hsort.2.1 (heq ▸ hmem)
        rw [forall_reaches_iff (name_ne hname harray) (name_ne hname hobject)]
        exact ⟨fun _ ↦ ⟨decode_follows.constant hmem hname,
          fits_of_not_scalar hname (hsort.2.2 name hmem)⟩,
          fun _ ↦ print_follows.constant hmem hname⟩
      · rw [print_follows.array hname, decode_follows.array hname,
          forall_reaches_array_iff hname (fits_of_not_scalar hname (by decide)),
          ← forall₂_and]
        exact forall₂_congr fun c hc ↦ (ih c hc).1
      · rw [print_follows.object hname, decode_follows.object hname,
          forall_reaches_object_iff hname (fits_of_not_scalar hname (by decide)),
          ← forall₂_and]
        refine forall₂_congr fun p hp ↦ ?_
        rw [← exists_pair_and_iff]
        exact exists₂_congr fun key v ↦
          and_congr_right fun hpair ↦ (ih p hp).2 v hpair.mem_children

/-- The computation ends with a misuse, and neither with a result nor with an issue. -/
def Misused {α : Type} (x : Except Fault α) : Prop :=
  ∃ m, x = .error (.misuse m)

/-- That an expression is unexpected is an issue, if there is an expression. -/
theorem not_misused_unexpected {α : Type} {e : Expr} (h : e ≠ .hole) :
    ¬ Misused (unexpected e : Except Fault α) := by
  cases e with
  | hole => exact absurd rfl h
  | leaf | node => exact nofun

/-- A mapped computation is misused exactly if the computation is. -/
theorem misused_map_iff {α β : Type} {f : α → β} {x : Except Fault α} :
    Misused (x.map f) ↔ Misused x := by
  cases x with
  | error fault => simp [Misused, Except.map]
  | ok a => simp [Misused, Except.map]

section Misuse

variable {α β : Type} {f : Expr → Except Fault α} {g : Expr → Except Fault β}

/-- If a second reading gets as far as the first one and is misused where the first one is, then
this holds of reading a list. -/
theorem Misused.of_mapM {es : List Expr} (hok : ∀ e ∈ es, (∃ a, f e = .ok a) → ∃ b, g e = .ok b)
    (hmisused : ∀ e ∈ es, Misused (f e) → Misused (g e)) (h : Misused (es.mapM f)) :
    Misused (es.mapM g) := by
  induction es with
  | nil => exact absurd h nofun
  | cons e es ih =>
      obtain ⟨hok, hrest⟩ := List.forall_mem_cons.mp hok
      obtain ⟨hmisused, hrest'⟩ := List.forall_mem_cons.mp hmisused
      rw [List.mapM_cons] at h ⊢
      cases hf : f e with
      | error fault =>
          rw [hf] at h
          obtain ⟨m, hm⟩ := h
          cases hm
          obtain ⟨m', hg⟩ := hmisused ⟨m, hf⟩
          rw [hg]
          exact ⟨m', rfl⟩
      | ok a =>
          rw [hf] at h
          obtain ⟨b, hg⟩ := hok ⟨a, hf⟩
          rw [hg]
          exact misused_map_iff.mpr (ih hrest hrest' (misused_map_iff.mp h))

/-- A member is misused for its key, however its value is read, or for its value. -/
theorem Misused.of_member {p : Expr} (hvalue : ∀ key v, IsPair p key v → Misused (f v) →
    Misused (g v)) (h : Misused (member f p)) : Misused (member g p) := by
  unfold member at h ⊢
  cases hpair : splitPair p with
  | error fault =>
      rw [hpair] at h
      obtain ⟨m, hm⟩ := h
      cases hm
      exact ⟨m, rfl⟩
  | ok pair =>
      rw [hpair] at h
      exact misused_map_iff.mpr
        (hvalue _ _ (splitPair_eq_ok_iff.mp hpair) (misused_map_iff.mp h))

end Misuse

/-- Printing a leaf or a constant is no misuse. -/
theorem not_misused_printScalar {e : Expr} {name : Text} {printed : Except Fault Text}
    (h : printScalar? name e = some printed) (he : e ≠ .hole) : ¬ Misused printed := by
  have hunexpected : ¬ Misused (unexpected e : Except Fault Text) := not_misused_unexpected he
  unfold printScalar? at h
  split_ifs at h <;> cases h
  · unfold printString
    split
    · exact nofun
    · exact hunexpected
  · unfold printInteger
    split
    · exact nofun
    · exact nofun
    · exact hunexpected
  · unfold printDecimal
    split
    · exact nofun
    · exact hunexpected
  all_goals exact nofun

/-- Only the children of arrays and objects are misused in printing. -/
theorem Misused.name_of_print {e : Expr} (h : Misused (print e)) :
    e.name = .ok arrayName ∨ e.name = .ok objectName := by
  by_contra hname
  obtain ⟨harray, hobject⟩ := not_or.mp hname
  revert h
  cases e with
  | hole => exact nofun
  | leaf t | node t =>
      have harray : t.name ≠ arrayName := fun heq ↦ harray (congrArg Except.ok heq)
      have hobject : t.name ≠ objectName := fun heq ↦ hobject (congrArg Except.ok heq)
      rw [print]
      split
      · next hscalar => exact not_misused_printScalar hscalar nofun
      · rw [if_neg harray, if_neg hobject]
        exact not_misused_unexpected nofun

/-- Printing is a misuse only where decoding is one. -/
theorem Misused.decode_of_print {e : Expr} (h : Misused (print e)) : Misused (decode e) := by
  induction e using Expr.induct with
  | step e ih =>
      obtain hname | hname := h.name_of_print
      · rw [print_array hname, misused_map_iff, printItems_eq_mapM] at h
        rw [decode_array hname, misused_map_iff, decodeItems_eq_mapM]
        exact h.of_mapM (fun c _ hc ↦ ((exists_print_iff c).mp hc).1) fun c hc ↦ (ih c hc).1
      · rw [print_object hname, misused_map_iff, printMembers_eq_mapM, misused_map_iff] at h
        rw [decode_object hname, misused_map_iff, decodeMembers_eq_mapM, misused_map_iff]
        refine h.of_mapM (fun p _ hp ↦ ?_) fun p hp ↦ .of_member fun key v hpair ↦
          (ih p hp).2 v hpair.mem_children
        obtain ⟨m, hm⟩ := hp
        obtain ⟨v, hpair, hv⟩ := member_eq_ok_iff.mp hm
        obtain ⟨⟨d, hd⟩, -⟩ := (exists_print_iff v).mp ⟨_, hv⟩
        exact ⟨(m.1, d), member_eq_ok_iff.mpr ⟨v, hpair, hd⟩⟩

/-- Printing and decoding accept the same expressions, of whatever tags and shape, up to the values
of leaves: an expression is printed exactly if it is decoded and every string, integer and decimal
that is decoded as a value has a value of its kind. In particular, what is not decoded is not
printed, and if decoding reports an issue, then so does printing. -/
theorem print_ok_iff_decode_ok (e : Expr) :
    ((∃ t, print e = .ok t) ↔ (∃ d, decode e = .ok d) ∧ ∀ v, Reaches e v → Fits v) ∧
      ((∃ fault, decode e = .error fault) → ∃ fault, print e = .error fault) ∧
      ((∃ i, decode e = .error (.issue i)) → ∃ i, print e = .error (.issue i)) := by
  have hiff := exists_print_iff e
  have hrejects : (∃ fault, decode e = .error fault) → ∃ fault, print e = .error fault := by
    rw [exists_error_iff, exists_error_iff]
    exact mt fun hprint ↦ (hiff.mp hprint).1
  refine ⟨hiff, hrejects, fun hissue ↦ ?_⟩
  obtain ⟨i, hdecode⟩ := hissue
  obtain ⟨fault, hprint⟩ := hrejects ⟨_, hdecode⟩
  cases fault with
  | issue i' => exact ⟨i', hprint⟩
  | misuse m =>
      obtain ⟨m', hmisused⟩ := Misused.decode_of_print ⟨m, hprint⟩
      cases hdecode.symm.trans hmisused

end Tagfold.Json
