import Tagfold.Proofs.Json.Printing

/-!
# Lists of values and of members

Decoding and printing read the children of arrays and objects one by one. Both take an item as a
value and a member as a pair, `IsPair`, of a key and a value, so that they differ only in what a
value is read as: `decodeMembers_eq_mapM` and `printMembers_eq_mapM`. A list is read exactly if each
of its members is, `exists_members_iff`.
-/

namespace Tagfold

/-- Computations along a list have the results that are listed exactly if each has its own. -/
theorem Except.mapM_eq_ok_iff {ε α β : Type} {f : α → Except ε β} {as : List α} {bs : List β} :
    as.mapM f = .ok bs ↔ List.Forall₂ (fun a b ↦ f a = .ok b) as bs := by
  induction as generalizing bs with
  | nil => exact ⟨fun h ↦ by cases h; exact .nil, fun h ↦ by cases h; rfl⟩
  | cons a as ih =>
      rw [List.mapM_cons, List.forall₂_cons_left_iff]
      constructor
      · intro h
        obtain ⟨b, hb, h⟩ := Except.bind_eq_ok_iff.mp h
        obtain ⟨rest, hrest, h⟩ := Except.bind_eq_ok_iff.mp h
        cases h
        exact ⟨b, rest, hb, ih.mp hrest, rfl⟩
      · intro h
        obtain ⟨b, rest, hb, hrest, rfl⟩ := h
        exact Except.bind_eq_ok_iff.mpr ⟨b, hb, Except.bind_eq_ok_iff.mpr ⟨rest, ih.mpr hrest, rfl⟩⟩

/-- Computations along a list have a result exactly if each of them has one. -/
theorem Except.exists_mapM_iff {ε α β : Type} {f : α → Except ε β} {as : List α} :
    (∃ bs, as.mapM f = .ok bs) ↔ ∀ a ∈ as, ∃ b, f a = .ok b := by
  simp only [Except.mapM_eq_ok_iff]
  induction as with
  | nil => simp
  | cons a as ih =>
      rw [List.forall_mem_cons, ← ih]
      constructor
      · intro h
        obtain ⟨bs, h⟩ := h
        cases h with
        | cons hb hrest => exact ⟨⟨_, hb⟩, _, hrest⟩
      · intro h
        obtain ⟨⟨b, hb⟩, bs, hrest⟩ := h
        exact ⟨b :: bs, .cons hb hrest⟩

/-- What holds of an expression as soon as it holds of its children and of theirs holds of every
expression. -/
@[elab_as_elim]
theorem Expr.induct {motive : Expr → Prop}
    (step : ∀ e, (∀ c ∈ e.children, motive c ∧ ∀ w ∈ c.children, motive w) → motive e)
    (e : Expr) : motive e := by
  have hchildren : ∀ e : Expr, (∀ c ∈ e.children, motive c ∧ ∀ w ∈ c.children, motive w) →
      motive e ∧ ∀ c ∈ e.children, motive c := fun e ih ↦ ⟨step e ih, fun c hc ↦ (ih c hc).1⟩
  exact (@Expr.rec (fun e ↦ motive e ∧ ∀ c ∈ e.children, motive c)
    (fun cs ↦ ∀ c ∈ cs, motive c ∧ ∀ w ∈ c.children, motive w)
    (hchildren _ nofun) (fun _ _ _ _ ↦ hchildren _ nofun) (fun _ _ _ ih ↦ hchildren _ ih) nofun
    (fun _ _ hc hcs ↦ by simpa using ⟨hc, hcs⟩) e).1

namespace Json

/-- The expression is a pair of a key and a value. -/
inductive IsPair : Expr → Text → Expr → Prop where
  | mk {t k : Tag} (p q : Pos) (key x : Text) (v : Expr) : t.name = pairName →
      k.name = pairKeyName → IsPair (.node t p [.leaf k q (.text key) x, v]) key v

/-- The value of a pair is a child of it. -/
theorem IsPair.mem_children {p v : Expr} {key : Text} (h : IsPair p key v) : v ∈ p.children := by
  cases h
  exact List.mem_cons_of_mem _ List.mem_cons_self

/-- A pair has one key and one value. -/
theorem IsPair.unique {p v w : Expr} {key other : Text} (h : IsPair p key v)
    (h' : IsPair p other w) : other = key ∧ w = v := by
  cases h
  cases h'
  exact ⟨rfl, rfl⟩

/-- What holds of the value of a pair holds of every value that the pair has. -/
theorem exists_pair_and_iff {p : Expr} {P Q : Expr → Prop} :
    (∃ key v, IsPair p key v ∧ P v ∧ Q v) ↔
      (∃ key v, IsPair p key v ∧ P v) ∧ ∀ key v, IsPair p key v → Q v := by
  constructor
  · intro h
    obtain ⟨key, v, hpair, hP, hQ⟩ := h
    refine ⟨⟨key, v, hpair, hP⟩, fun key' w hpair' ↦ ?_⟩
    obtain ⟨rfl, rfl⟩ := hpair.unique hpair'
    exact hQ
  · intro h
    obtain ⟨⟨key, v, hpair, hP⟩, hQ⟩ := h
    exact ⟨key, v, hpair, hP, hQ key v hpair⟩

/-- The key and the value of a pair. -/
def splitPair : Expr → Except Fault (Text × Expr)
  | .node t p [k, v] =>
    if t.name = pairName then (keyText k).map fun key ↦ (key, v) else unexpected (.node t p [k, v])
  | e => unexpected e

/-- What is unexpected has no result. -/
theorem unexpected_ne_ok {α : Type} (e : Expr) (a : α) :
    (unexpected e : Except Fault α) ≠ .ok a := by
  cases e <;> exact nofun

/-- A key has a text exactly if it is a leaf with the tag of keys and a text for its value. -/
theorem keyText_eq_ok_iff {k : Expr} {key : Text} :
    keyText k = .ok key ↔ ∃ t q x, t.name = pairKeyName ∧ k = .leaf t q (.text key) x := by
  constructor
  · intro h
    unfold keyText at h
    split at h
    · split at h
      · next hname =>
          cases h
          exact ⟨_, _, _, hname, rfl⟩
      · exact absurd h (unexpected_ne_ok _ _)
    · exact absurd h (unexpected_ne_ok _ _)
  · intro h
    obtain ⟨t, q, x, hname, rfl⟩ := h
    rw [keyText, if_pos hname]

/-- What is split as a pair is one. -/
theorem splitPair_eq_ok_iff {p v : Expr} {key : Text} :
    splitPair p = .ok (key, v) ↔ IsPair p key v := by
  constructor
  · intro h
    unfold splitPair at h
    split at h
    · split at h
      · next hname =>
          obtain ⟨key', hkey, heq⟩ := Except.map_eq_ok_iff.mp h
          cases heq
          obtain ⟨t, q, x, hkeyname, rfl⟩ := keyText_eq_ok_iff.mp hkey
          exact .mk _ _ _ _ _ hname hkeyname
      · exact absurd h (unexpected_ne_ok _ _)
    · exact absurd h (unexpected_ne_ok _ _)
  · intro h
    cases h with
    | mk p q key x v hname hkeyname =>
        rw [splitPair, if_pos hname, keyText_eq_ok_iff.mpr ⟨_, _, _, hkeyname, rfl⟩]
        rfl

/-- What is unexpected ends every computation. -/
theorem unexpected_bind {α β : Type} (e : Expr) (f : α → Except Fault β) :
    (unexpected e >>= f) = unexpected e := by
  cases e <;> rfl

/-- The key of a pair with what its value is read as. -/
def member {α : Type} (read : Expr → Except Fault α) (p : Expr) : Except Fault (Text × α) := do
  let (key, v) ← splitPair p
  let a ← read v
  return (key, a)

/-- A member is read exactly if it is a pair whose value is read. -/
theorem member_eq_ok_iff {α : Type} {read : Expr → Except Fault α} {p : Expr} {m : Text × α} :
    member read p = .ok m ↔ ∃ v, IsPair p m.1 v ∧ read v = .ok m.2 := by
  constructor
  · intro h
    obtain ⟨⟨key, v⟩, hpair, h⟩ := Except.bind_eq_ok_iff.mp h
    obtain ⟨a, ha, h⟩ := Except.bind_eq_ok_iff.mp h
    cases h
    exact ⟨v, splitPair_eq_ok_iff.mp hpair, ha⟩
  · intro h
    obtain ⟨v, hpair, ha⟩ := h
    exact Except.bind_eq_ok_iff.mpr ⟨(m.1, v), splitPair_eq_ok_iff.mpr hpair,
      Except.bind_eq_ok_iff.mpr ⟨m.2, ha, rfl⟩⟩

/-- A member has two children, or it is unexpected wherever members are read. -/
theorem member_cases (p : Expr) :
    (∃ t q k v, p = .node t q [k, v]) ∨
      (∀ entries es, decodeMembers entries (p :: es) = unexpected p) ∧
        (∀ es, printMembers (p :: es) = unexpected p) ∧ splitPair p = unexpected p :=
  match p with
  | .hole => .inr ⟨fun _ _ ↦ rfl, fun _ ↦ rfl, rfl⟩
  | .leaf _ _ _ _ => .inr ⟨fun _ _ ↦ rfl, fun _ ↦ rfl, rfl⟩
  | .node _ _ [] => .inr ⟨fun _ _ ↦ rfl, fun _ ↦ rfl, rfl⟩
  | .node _ _ [_] => .inr ⟨fun _ _ ↦ rfl, fun _ ↦ rfl, rfl⟩
  | .node t q [k, v] => .inl ⟨t, q, k, v, rfl⟩
  | .node _ _ (_ :: _ :: _ :: _) => .inr ⟨fun _ _ ↦ rfl, fun _ ↦ rfl, rfl⟩

/-- The first member is decoded before the others. -/
theorem decodeMembers_cons (entries : List (Text × Data)) (p : Expr) (es : List Expr) :
    decodeMembers entries (p :: es) =
      member decode p >>= fun m ↦ decodeMembers (Data.put entries m.1 m.2) es := by
  obtain ⟨t, q, k, v, rfl⟩ | ⟨hdecode, -, hsplit⟩ := member_cases p
  · rw [decodeMembers, member, splitPair]
    split
    · cases keyText k with
      | error fault => rfl
      | ok key =>
          show _ = (decode v >>= fun value ↦ .ok (key, value)) >>= _
          cases decode v <;> rfl
    · rw [unexpected_bind, unexpected_bind]
  · rw [hdecode, member, hsplit, unexpected_bind, unexpected_bind]

/-- The first member is printed before the others. -/
theorem printMembers_cons (p : Expr) (es : List Expr) :
    printMembers (p :: es) = member print p >>= fun m ↦
      (printMembers es).map fun members ↦
        (encodeString m.1 ++ utf8 ":" ++ m.2) :: members := by
  obtain ⟨t, q, k, v, rfl⟩ | ⟨-, hprint, hsplit⟩ := member_cases p
  · rw [printMembers, member, splitPair]
    split
    · cases keyText k with
      | error fault => rfl
      | ok key =>
          show _ = (print v >>= fun text ↦ .ok (key, text)) >>= _
          cases print v with
          | error fault => rfl
          | ok text => cases printMembers es <;> rfl
    · rw [unexpected_bind, unexpected_bind]
  · rw [hprint, member, hsplit, unexpected_bind, unexpected_bind]

/-- Entries with those of members put behind them, one after another. -/
def Data.putAll (entries members : List (Text × Data)) : List (Text × Data) :=
  members.foldl (fun out m ↦ put out m.1 m.2) entries

/-- Values are decoded one by one. -/
theorem decodeItems_eq_mapM (es : List Expr) : decodeItems es = es.mapM decode := by
  induction es with
  | nil => rfl
  | cons e es ih => rw [decodeItems, List.mapM_cons, ih]

/-- Values are printed one by one. -/
theorem printItems_eq_mapM (es : List Expr) : printItems es = es.mapM print := by
  induction es with
  | nil => rfl
  | cons e es ih => rw [printItems, List.mapM_cons, ih]

/-- Members are decoded one by one, and then put in order. -/
theorem decodeMembers_eq_mapM (entries : List (Text × Data)) (es : List Expr) :
    decodeMembers entries es = (es.mapM (member decode)).map (Data.putAll entries) := by
  induction es generalizing entries with
  | nil => rfl
  | cons p es ih =>
      rw [decodeMembers_cons, List.mapM_cons]
      cases member decode p with
      | error fault => rfl
      | ok m =>
          show decodeMembers (Data.put entries m.1 m.2) es = _
          rw [ih]
          cases es.mapM (member decode) <;> rfl

/-- Members are printed one by one. -/
theorem printMembers_eq_mapM (es : List Expr) :
    printMembers es = (es.mapM (member print)).map
      (List.map fun m ↦ encodeString m.1 ++ utf8 ":" ++ m.2) := by
  induction es with
  | nil => rfl
  | cons p es ih =>
      rw [printMembers_cons, List.mapM_cons, ih]
      cases member print p with
      | error fault => rfl
      | ok m => cases es.mapM (member print) <;> rfl

/-- Members are read exactly if each of them is a pair whose value is read. -/
theorem exists_members_iff {α : Type} {read : Expr → Except Fault α} {es : List Expr} :
    (∃ ms, es.mapM (member read) = .ok ms) ↔
      ∀ p ∈ es, ∃ key v, IsPair p key v ∧ ∃ a, read v = .ok a := by
  rw [Except.exists_mapM_iff]
  refine forall₂_congr fun p _ ↦ ?_
  constructor
  · intro h
    obtain ⟨m, hm⟩ := h
    obtain ⟨v, hpair, hv⟩ := member_eq_ok_iff.mp hm
    exact ⟨m.1, v, hpair, m.2, hv⟩
  · intro h
    obtain ⟨key, v, hpair, a, ha⟩ := h
    exact ⟨(key, a), member_eq_ok_iff.mpr ⟨v, hpair, ha⟩⟩

end Json

end Tagfold
