import Mathlib.Data.Finset.Card
import Tagfold.Proofs.Json.Values

/-!
# Repeated keys

Entries are put one by one: a new key goes to the end, and a known one keeps its place and takes the
value. So the keys of an object are those of its pairs, each at its first occurrence, and under each
of them stands the value of its last pair: `decode_objects`. Values that are overwritten are decoded
all the same, so that any pair can make an object fail, and with it everything around it.
-/

namespace Tagfold.Json

namespace Data

variable {entries : List (Text × Data)} {key : Text}

/-- Putting a value adds its key at the end, if it is new. -/
theorem map_fst_put (entries : List (Text × Data)) (key : Text) (value : Data) :
    (put entries key value).map Prod.fst =
      if key ∈ entries.map Prod.fst then entries.map Prod.fst
      else entries.map Prod.fst ++ [key] := by
  induction entries with
  | nil => rfl
  | cons entry rest ih =>
      obtain ⟨k, v⟩ := entry
      by_cases hk : k = key
      · simp [put, hk]
      · rw [put, if_neg hk, List.map_cons, ih]
        have hmem : key ∈ ((k, v) :: rest).map Prod.fst ↔ key ∈ rest.map Prod.fst := by
          simp [Ne.symm hk]
        simp only [hmem]
        split <;> rfl

/-- The first entry of a key is found. -/
theorem lookup_entry (k : Text) (v : Data) (rest : List (Text × Data)) (other : Text) :
    ((k, v) :: rest).lookup other = if other = k then some v else rest.lookup other := by
  rw [List.lookup_cons]
  by_cases h : other = k
  · rw [h, beq_self_eq_true, if_pos rfl]
  · rw [beq_false_of_ne h, if_neg h]

/-- Putting a value changes what stands under its key only. -/
theorem lookup_put (entries : List (Text × Data)) (key : Text) (value : Data) (other : Text) :
    (put entries key value).lookup other =
      if other = key then some value else entries.lookup other := by
  induction entries with
  | nil => rw [put, lookup_entry]
  | cons entry rest ih =>
      obtain ⟨k, v⟩ := entry
      rw [put]
      by_cases hk : k = key
      · rw [if_pos hk, lookup_entry, lookup_entry, ← hk]
        split <;> rfl
      · rw [if_neg hk, lookup_entry, lookup_entry, ih]
        by_cases h : other = k
        · rw [if_pos h, if_pos h, if_neg (h ▸ hk)]
        · rw [if_neg h, if_neg h]

/-- The keys are those put, each at its first place. -/
theorem map_fst_putAll {keys : List Text} (h : entries.map Prod.fst = keys.eraseDups)
    (members : List (Text × Data)) :
    (putAll entries members).map Prod.fst = (keys ++ members.map Prod.fst).eraseDups := by
  induction members generalizing entries keys with
  | nil => simpa [putAll] using h
  | cons m members ih =>
      have hstep : (put entries m.1 m.2).map Prod.fst = (keys ++ [m.1]).eraseDups := by
        rw [map_fst_put, eraseDups_concat, h]
        simp only [List.mem_eraseDups]
      show (putAll (put entries m.1 m.2) members).map Prod.fst = _
      rw [ih hstep, List.append_assoc]
      rfl

/-- No key is repeated. -/
theorem nodup_putAll (h : (entries.map Prod.fst).Nodup) (members : List (Text × Data)) :
    ((putAll entries members).map Prod.fst).Nodup := by
  induction members generalizing entries with
  | nil => exact h
  | cons m members ih =>
      have hnext : ((put entries m.1 m.2).map Prod.fst).Nodup := by
        rw [map_fst_put]
        split
        · exact h
        · next hnew =>
            apply List.nodup_middle.mpr
            rw [List.append_nil]
            exact List.nodup_cons.mpr ⟨hnew, h⟩
      exact ih hnext

/-- What stands under a key stays there as long as the key is not put. -/
theorem lookup_putAll_of_not_mem {members : List (Text × Data)} (h : key ∉ members.map Prod.fst) :
    (putAll entries members).lookup key = entries.lookup key := by
  induction members generalizing entries with
  | nil => rfl
  | cons m members ih =>
      obtain ⟨hfirst, hrest⟩ := not_or.mp (fun hmem ↦ h (List.mem_cons.mpr hmem))
      show (putAll (put entries m.1 m.2) members).lookup key = _
      rw [ih hrest, lookup_put, if_neg hfirst]

/-- Under each key stands the value that was put last. -/
theorem lookup_putAll_last (entries before : List (Text × Data)) (value : Data)
    {behind : List (Text × Data)} (h : key ∉ behind.map Prod.fst) :
    (putAll entries (before ++ (key, value) :: behind)).lookup key = some value := by
  rw [putAll, List.foldl_append, List.foldl_cons]
  show (putAll (put _ key value) behind).lookup key = _
  rw [lookup_putAll_of_not_mem h, lookup_put, if_pos rfl]

end Data

/-- The entries of an object with the given keys and values, in the order of its pairs: each key
stands once, where it occurs first, and has the data of its last value. -/
structure EntriesOf (pairs : List (Text × Expr)) (entries : List (Text × Data)) : Prop where
  keys : entries.map Prod.fst = (pairs.map Prod.fst).eraseDups
  distinct : (entries.map Prod.fst).Nodup
  size : entries.length = (pairs.map Prod.fst).toFinset.card
  last : ∀ before key v behind, pairs = before ++ (key, v) :: behind →
    key ∉ behind.map Prod.fst → ∃ d, decode v = .ok d ∧ entries.lookup key = some d

/-- The pair is read as the member: the key is the same, and the value is decoded. -/
def ReadAs (pair : Text × Expr) (m : Text × Data) : Prop :=
  pair.1 = m.1 ∧ decode pair.2 = .ok m.2

/-- Members that are decoded are pairs that are read as these members. -/
theorem exists_pairs {es : List Expr} {members : List (Text × Data)}
    (h : List.Forall₂ (fun p m ↦ member decode p = .ok m) es members) :
    ∃ pairs : List (Text × Expr), List.Forall₂ (fun p pair ↦ IsPair p pair.1 pair.2) es pairs ∧
      List.Forall₂ ReadAs pairs members := by
  induction h with
  | nil => exact ⟨[], .nil, .nil⟩
  | cons hm _ ih =>
      obtain ⟨pairs, hpairs, hread⟩ := ih
      obtain ⟨v, hpair, hv⟩ := member_eq_ok_iff.mp hm
      exact ⟨(_, v) :: pairs, .cons hpair hpairs, .cons ⟨rfl, hv⟩ hread⟩

section Entries

variable {pairs : List (Text × Expr)} {members : List (Text × Data)}

/-- The members have the keys of the pairs. -/
theorem map_fst_of_readAs (h : List.Forall₂ ReadAs pairs members) :
    members.map Prod.fst = pairs.map Prod.fst := by
  induction h with
  | nil => rfl
  | cons hm _ ih => rw [List.map_cons, List.map_cons, ih, hm.1]

/-- A pair between others is read as a member between others. -/
theorem exists_split_of_readAs {before behind : List (Text × Expr)} {pair : Text × Expr}
    (h : List.Forall₂ ReadAs (before ++ pair :: behind) members) :
    ∃ earlier m later, members = earlier ++ m :: later ∧ ReadAs pair m ∧
      List.Forall₂ ReadAs behind later := by
  have hbehind := List.forall₂_drop before.length h
  rw [List.drop_left] at hbehind
  obtain ⟨m, later, hm, hlater, hdrop⟩ := List.forall₂_cons_left_iff.mp hbehind
  refine ⟨members.take before.length, m, later, ?_, hm, hlater⟩
  rw [← hdrop, List.take_append_drop]

/-- Pairs that are read as members are an object with the entries that these make. -/
theorem entriesOf_putAll (h : List.Forall₂ ReadAs pairs members) :
    EntriesOf pairs (Data.putAll [] members) := by
  have hkeys : (Data.putAll [] members).map Prod.fst = (pairs.map Prod.fst).eraseDups := by
    have hnone : ([] : List (Text × Data)).map Prod.fst = ([] : List Text).eraseDups := rfl
    rw [Data.map_fst_putAll hnone, map_fst_of_readAs h, List.nil_append]
  have hdistinct : ((Data.putAll [] members).map Prod.fst).Nodup := by
    apply Data.nodup_putAll
    exact List.nodup_nil
  refine ⟨hkeys, hdistinct, ?_, ?_⟩
  · have hset : ((Data.putAll [] members).map Prod.fst).toFinset =
        (pairs.map Prod.fst).toFinset := by
      ext key
      rw [hkeys, List.mem_toFinset, List.mem_toFinset, List.mem_eraseDups]
    rw [← hset, List.toFinset_card_of_nodup hdistinct, List.length_map]
  · rintro before key v behind rfl hlast
    obtain ⟨earlier, ⟨key', d⟩, later, rfl, hread, hlater⟩ := exists_split_of_readAs h
    obtain ⟨rfl, hd⟩ : key = key' ∧ decode v = .ok d := hread
    rw [← map_fst_of_readAs hlater] at hlast
    exact ⟨d, hd, Data.lookup_putAll_last [] earlier d hlast⟩

end Entries

/-- What is decoded as a value of something that is decoded is decoded. -/
theorem Reaches.decodes {root e : Expr} (h : Reaches root e) (hroot : ∃ d, decode root = .ok d) :
    ∃ d, decode e = .ok d := by
  induction h with
  | refl => exact hroot
  | item hname hc _ ih => exact ih ((decode_follows.array hname).mp hroot _ hc)
  | member hname hp hpair _ ih =>
      obtain ⟨key, v, hpair', hv⟩ := (decode_follows.object hname).mp hroot _ hp
      obtain ⟨rfl, rfl⟩ := hpair.unique hpair'
      exact ih hv

/-- An object that is decoded has the entries of its pairs. -/
theorem exists_entries_of_decode {e : Expr} (hname : e.name = .ok objectName)
    (h : ∃ d, decode e = .ok d) :
    ∃ pairs entries, List.Forall₂ (fun p pair ↦ IsPair p pair.1 pair.2) e.children pairs ∧
      decode e = .ok (.object entries) ∧ EntriesOf pairs entries := by
  rw [decode_object hname, decodeMembers_eq_mapM] at h ⊢
  obtain ⟨members, hmembers⟩ := exists_map_iff.mp (exists_map_iff.mp h)
  obtain ⟨pairs, hpairs, hread⟩ := exists_pairs (Except.mapM_eq_ok_iff.mp hmembers)
  exact ⟨pairs, _, hpairs, by rw [hmembers]; rfl, entriesOf_putAll hread⟩

/-- A member fails exactly if it is no pair, or the value of the pair fails. -/
theorem not_exists_pair_iff {p : Expr} :
    (¬ ∃ key v, IsPair p key v ∧ ∃ d, decode v = .ok d) ↔
      (∀ key v, ¬ IsPair p key v) ∨ ∃ key v fault, IsPair p key v ∧ decode v = .error fault := by
  by_cases hpair : ∃ key v, IsPair p key v
  · obtain ⟨key, v, hpair⟩ := hpair
    constructor
    · intro h
      obtain ⟨fault, hfault⟩ := exists_error_iff.mpr fun hv ↦ h ⟨key, v, hpair, hv⟩
      exact .inr ⟨key, v, fault, hpair, hfault⟩
    · intro h hdecodes
      obtain hnone | ⟨key', w, fault, hpair', hfault⟩ := h
      · exact hnone key v hpair
      · obtain ⟨key'', w', hpair'', d, hd⟩ := hdecodes
        obtain ⟨-, rfl⟩ := hpair'.unique hpair''
        cases hd.symm.trans hfault
  · constructor
    · intro _
      exact .inl fun key v h ↦ hpair ⟨key, v, h⟩
    · intro _ h
      obtain ⟨key, v, h, -⟩ := h
      exact hpair ⟨key, v, h⟩

/-- Every object, at any depth of what is decoded, has each key of its pairs once, in the order of
first occurrence, with the data of the last value of the key. An object fails exactly if one of its
members is no pair or has a value that fails, even if the value would be overwritten, and then the
whole fails. -/
theorem decode_objects {root e : Expr} (hreach : Reaches root e)
    (hname : e.name = .ok objectName) :
    ((∃ d, decode root = .ok d) → ∃ pairs entries,
        List.Forall₂ (fun p pair ↦ IsPair p pair.1 pair.2) e.children pairs ∧
          decode e = .ok (.object entries) ∧ EntriesOf pairs entries) ∧
      ((∃ fault, decode e = .error fault) ↔ ∃ p ∈ e.children, (∀ key v, ¬ IsPair p key v) ∨
        ∃ key v fault, IsPair p key v ∧ decode v = .error fault) ∧
      ((∃ fault, decode e = .error fault) → ∃ fault, decode root = .error fault) := by
  refine ⟨fun hroot ↦ exists_entries_of_decode hname (hreach.decodes hroot), ?_, ?_⟩
  · rw [exists_error_iff, decode_follows.object hname]
    simp only [not_forall, ← not_exists_pair_iff, exists_prop]
  · rw [exists_error_iff, exists_error_iff]
    exact mt hreach.decodes

/-- In an array stands an object with a key that is repeated behind another one: the key comes
first, with its last value. -/
theorem decode_objects_repeated :
    ∃ root e : Expr, Reaches root e ∧ e.name = .ok objectName ∧ (∃ d, decode root = .ok d) ∧
      ∃ pairs : List (Text × Expr), pairs.map Prod.fst = [utf8 "a", utf8 "b", utf8 "a"] ∧
        List.Forall₂ (fun p pair ↦ IsPair p pair.1 pair.2) e.children pairs ∧
        decode e = .ok (.object [(utf8 "a", .scalar (.bool false)), (utf8 "b", .scalar .absent)]) ∧
        EntriesOf pairs [(utf8 "a", .scalar (.bool false)), (utf8 "b", .scalar .absent)] := by
  let object : Tree := .object ⟨1, 2⟩ [.mk ⟨1, 3⟩ (utf8 "a") (.constant ⟨1, 7⟩ .yes),
    .mk ⟨1, 12⟩ (utf8 "b") (.constant ⟨1, 16⟩ .null),
    .mk ⟨1, 21⟩ (utf8 "a") (.constant ⟨1, 25⟩ .no)]
  let array : Tree := .array ⟨1, 1⟩ [object]
  have hreach : Reaches (array.expr .empty) (object.expr .empty) :=
    .item rfl List.mem_cons_self (.refl _)
  have hdecode : decode (object.expr .empty) =
      .ok (.object [(utf8 "a", .scalar (.bool false)), (utf8 "b", .scalar .absent)]) :=
    object.decode_expr .empty
  obtain ⟨hentries, -, -⟩ := decode_objects hreach rfl
  obtain ⟨pairs, entries, hpairs, hok, hof⟩ := hentries ⟨_, array.decode_expr .empty⟩
  cases hdecode.symm.trans hok
  refine ⟨_, _, hreach, rfl, ⟨_, array.decode_expr .empty⟩, pairs, ?_, hpairs, hdecode, hof⟩
  have hkey (m : Member) {pair : Text × Expr}
      (h : IsPair (Tree.memberExpr .empty m) pair.1 pair.2) : pair.1 = m.key := by
    cases m
    exact (IsPair.unique (.mk _ _ _ _ _ rfl rfl) h).1
  obtain _ | ⟨hfirst, _ | ⟨hsecond, _ | ⟨hthird, ⟨⟩⟩⟩⟩ := hpairs
  simp only [List.map_cons, List.map_nil, hkey _ hfirst, hkey _ hsecond, hkey _ hthird]
  rfl

end Tagfold.Json
