import Mathlib.Data.Finset.Card
import Tagfold.Proofs.Tag.Table

/-!
# Histories of a registry

Whoever uses a registry interns names, looks names up, and makes and fills sets of tags, in any
order. A `Session` is what such a history leaves: the registry, the tags that interning has handed
out, and the sets with the tags that were added to them. `Session.kept_after` is the invariant of
all histories. `Session.after_faithful` draws the consequences: the registry has given the interned
names the numbers from one on in the order in which they first came up, it owns exactly the tags
that it has handed out, and a set of its tags answers as the set of the names that were added to it.
The same history on a table, with its map and its slots, is followed step by step
(`TagTable.Session.follows_after`), so that all of this is true of the table as well.
-/

namespace Tagfold

namespace TagSet

variable {s other : TagSet} {t : Tag} {id : Nat}

/-- A tag is a member if its number is. -/
theorem contains_iff : s.contains t = true ↔ t.id ∈ s.ids := by
  simp [contains]

/-- The numbers after adding a tag. -/
theorem mem_ids_insert : id ∈ (s.insert t).ids ↔ id ∈ s.ids ∨ (t.isValid = true ∧ id = t.id) := by
  simpa only [contains_iff] using contains_insert s t ⟨id, []⟩

/-- Adding a tag repeats no number. -/
theorem nodup_insert (h : s.ids.Nodup) (t : Tag) : (s.insert t).ids.Nodup := by
  unfold insert
  split
  · exact h
  · exact h.insert

/-- A longer list makes the set of the shorter one, with one more tag. -/
theorem ofList_concat (ts : List Tag) (t : Tag) : ofList (ts ++ [t]) = (ofList ts).insert t := by
  simp [ofList]

/-- The numbers of a set are those of the valid tags it is made of. -/
theorem mem_ids_ofList {ts : List Tag} :
    id ∈ (ofList ts).ids ↔ ∃ t ∈ ts, t.isValid = true ∧ id = t.id := by
  induction ts using List.reverseRecOn with
  | nil => simp [ofList, empty]
  | append_singleton ts t ih =>
      rw [ofList_concat, mem_ids_insert, ih]
      simp [or_and_right, exists_or]

/-- A set made of tags repeats no number. -/
theorem nodup_ofList (ts : List Tag) : (ofList ts).ids.Nodup := by
  induction ts using List.reverseRecOn with
  | nil => exact List.nodup_nil
  | append_singleton ts t ih =>
      rw [ofList_concat]
      exact nodup_insert ih t

/-- Two sets have a common member if they have a common number. -/
theorem intersects_iff : s.intersects other = true ↔ ∃ id ∈ s.ids, id ∈ other.ids := by
  simp [intersects]

/-- A set together with the tags that were added to it, oldest first. -/
structure Filled where
  set : TagSet
  added : List Tag
  deriving DecidableEq, Repr

/-- The names that were added. -/
def Filled.names (f : Filled) : List Text :=
  f.added.map Tag.name

end TagSet

namespace Registry

variable {r : Registry} {name : Text} {names : List Text}

/-- Making a set is interning its names and adding the tags that are handed out. -/
theorem internSet_eq (r : Registry) (names : List Text) :
    r.internSet names = (.ofList (r.issue names), r.internAll names) := by
  suffices h : ∀ (s : TagSet) (r : Registry),
      names.foldl addName (s, r) = ((r.issue names).foldl TagSet.insert s, r.internAll names) from
    h .empty r
  induction names with
  | nil => exact fun s r ↦ rfl
  | cons name names ih => exact fun s r ↦ ih (s.insert (r.intern name).1) (r.intern name).2

/-- The known names are those interned since the empty registry, each at its first place. -/
theorem names_internAll (interned names : List Text) (h : r.names = interned.eraseDups) :
    (r.internAll names).names = (interned ++ names).eraseDups := by
  induction names generalizing r interned with
  | nil => simpa [internAll] using h
  | cons name names ih =>
      have hstep : (r.intern name).2.names = (interned ++ [name]).eraseDups := by
        rw [eraseDups_concat, ← h]
        by_cases hm : name ∈ interned
        · have hknown : name ∈ r.names := by rwa [h, List.mem_eraseDups]
          rw [intern_of_mem hknown, if_pos hm]
        · have hnew : name ∉ r.names := by rwa [h, List.mem_eraseDups]
          rw [intern_of_not_mem hnew, if_neg hm]
      show ((r.intern name).2.internAll names).names = _
      rw [ih (interned ++ [name]) hstep, List.append_assoc]
      rfl

/-- The tags handed out are those of the names from then on. -/
theorem mem_issue (hn : r.names.Nodup) {t : Tag} :
    t ∈ r.issue names ↔ t.name ∈ names ∧ t = (r.internAll names).lookup t.name := by
  induction names generalizing r with
  | nil => simp [issue]
  | cons name names ih =>
      have hnext := nodup_intern hn name
      have hfirst : (r.intern name).1 = (r.internAll (name :: names)).lookup name := by
        rw [intern_fst]
        exact ((internAll_registry names hnext).1.lookup_eq (mem_intern r name)).symm
      rw [issue, List.mem_cons, ih hnext, List.mem_cons, hfirst]
      constructor
      · rintro (ht | ⟨hm, ht⟩)
        · rw [ht]
          exact ⟨.inl rfl, rfl⟩
        · exact ⟨.inr hm, ht⟩
      · rintro ⟨hm | hm, ht⟩
        · exact .inl (hm ▸ ht)
        · exact .inr ⟨hm, ht⟩

/-- An owned tag carries the place of its name, counted from one. -/
theorem owns_iff_getElem? {t : Tag} :
    r.owns t = true ↔ ∃ k, r.names[k]? = some t.name ∧ t.id = k + 1 := by
  simp only [owns, Tag.isValid, Bool.and_eq_true, bne_iff_ne, ne_eq, beq_iff_eq]
  constructor
  · intro h
    exact ⟨t.id - 1, h.2, by omega⟩
  · rintro ⟨k, hk, hid⟩
    rw [hid]
    exact ⟨by omega, hk⟩

/-- One operation of a history. Sets are numbered from zero in the order in which they are made. -/
inductive Operation where
  | intern (name : Text)
  | lookup (name : Text)
  | internSet (names : List Text)
  | setOf (tags : List Tag)
  | insert (set : Nat) (t : Tag)
  deriving DecidableEq, Repr

/-- The names that an operation interns, in order. -/
def Operation.interns : Operation → List Text
  | intern name => [name]
  | internSet names => names
  | lookup _ | setOf _ | insert _ _ => []

/-- What a history leaves: the registry, the tags that interning has handed out, oldest first, and
the sets. -/
structure Session where
  registry : Registry
  issued : List Tag
  sets : List TagSet.Filled
  deriving DecidableEq, Repr

namespace Session

/-- Perform one operation. -/
def perform (s : Session) : Operation → Session
  | .intern name =>
    let (t, reg) := s.registry.intern name
    ⟨reg, s.issued ++ [t], s.sets⟩
  | .lookup _ => s
  | .internSet names =>
    let (set, reg) := s.registry.internSet names
    let tags := s.registry.issue names
    ⟨reg, s.issued ++ tags, s.sets ++ [⟨set, tags⟩]⟩
  | .setOf tags => { s with sets := s.sets ++ [⟨.ofList tags, tags⟩] }
  | .insert set t =>
    { s with sets := s.sets.modify set fun f ↦ ⟨f.set.insert t, f.added ++ [t]⟩ }

/-- What a history leaves of the registry without names. -/
def after (history : List Operation) : Session :=
  history.foldl perform ⟨.empty, [], []⟩

variable {s : Session} {interned : List Text}

/-- The invariant of histories: the registry knows the interned names in the order in which they
first came up, the tags handed out are the tags of its names, and every set is made of the tags that
were added to it. -/
structure Kept (s : Session) (interned : List Text) : Prop where
  names : s.registry.names = interned.eraseDups
  nodup : s.registry.names.Nodup
  issued : ∀ t, t ∈ s.issued ↔ t.name ∈ s.registry.names ∧ t = s.registry.lookup t.name
  sets : ∀ f ∈ s.sets, f.set = .ofList f.added

/-- An operation changes the registry by the names it interns. -/
theorem registry_perform (s : Session) (op : Operation) :
    (s.perform op).registry = s.registry.internAll op.interns := by
  cases op with
  | internSet names =>
      show (s.registry.internSet names).2 = _
      rw [internSet_eq]
      rfl
  | _ => rfl

/-- An operation hands out the tags of the names it interns. -/
theorem issued_perform (s : Session) (op : Operation) :
    (s.perform op).issued = s.issued ++ s.registry.issue op.interns := by
  cases op with
  | intern | internSet => rfl
  | lookup | setOf | insert => exact (List.append_nil _).symm

/-- Every set stays what its tags make it. -/
theorem sets_perform (h : ∀ f ∈ s.sets, f.set = .ofList f.added) (op : Operation) :
    ∀ f ∈ (s.perform op).sets, f.set = .ofList f.added := by
  intro f hf
  cases op with
  | intern | lookup => exact h f hf
  | internSet names =>
      rcases List.mem_append.mp hf with hf | hf
      · exact h f hf
      · obtain rfl := List.mem_singleton.mp hf
        exact congrArg Prod.fst (internSet_eq s.registry names)
  | setOf tags =>
      rcases List.mem_append.mp hf with hf | hf
      · exact h f hf
      · obtain rfl := List.mem_singleton.mp hf
        rfl
  | insert set t =>
      obtain ⟨i, hi⟩ := List.mem_iff_getElem?.mp hf
      simp only [perform, List.getElem?_modify, Option.map_eq_map, Option.map_eq_some_iff] at hi
      obtain ⟨g, hg, rfl⟩ := hi
      have hset := h g (List.mem_of_getElem? hg)
      split
      · show g.set.insert t = .ofList (g.added ++ [t])
        rw [TagSet.ofList_concat, hset]
      · exact hset

/-- One operation keeps the invariant. -/
theorem Kept.perform (h : s.Kept interned) (op : Operation) :
    (s.perform op).Kept (interned ++ op.interns) where
  names := by
    rw [registry_perform]
    exact names_internAll interned op.interns h.names
  nodup := by
    rw [registry_perform]
    exact (internAll_registry op.interns h.nodup).2.1
  issued := by
    intro t
    have hold : t.name ∈ s.registry.names →
        (s.registry.internAll op.interns).lookup t.name = s.registry.lookup t.name :=
      (internAll_registry op.interns h.nodup).1.lookup_eq
    have hmem : t.name ∈ (s.registry.internAll op.interns).names ↔
        t.name ∈ s.registry.names ∨ t.name ∈ op.interns := by
      rw [names_internAll interned op.interns h.names, h.names, List.mem_eraseDups,
        List.mem_eraseDups, List.mem_append]
    rw [issued_perform, registry_perform, List.mem_append, h.issued, mem_issue h.nodup, hmem,
      or_and_right]
    exact or_congr_left (and_congr_right fun hm ↦ by rw [hold hm])
  sets := sets_perform h.sets op

/-- Every history keeps the invariant. -/
theorem kept_after (history : List Operation) :
    (after history).Kept (history.flatMap Operation.interns) := by
  induction history using List.reverseRecOn with
  | nil => exact ⟨rfl, List.nodup_nil, by simp [after, empty], nofun⟩
  | append_singleton history op ih =>
      rw [after, List.foldl_append, List.flatMap_append, List.flatMap_singleton]
      exact ih.perform op

end Session

/-- A registry is faithful to the names interned in it and the tags handed out. -/
structure Faithful (r : Registry) (interned : List Text) (issued : List Tag) : Prop where
  /-- Every name is listed once, at its first place. -/
  names : r.names = interned.eraseDups
  distinct : r.names.Nodup
  size : r.size = interned.toFinset.card
  /-- The numbers handed out are those from one to the number of names, each for one name. -/
  numbers : ∀ t, t ∈ issued ↔ ∃ k, r.names[k]? = some t.name ∧ t.id = k + 1
  intern_again : ∀ t ∈ issued, r.intern t.name = (t, r)
  lookup_valid : ∀ name, (r.lookup name).isValid = true ↔ name ∈ interned
  lookup_issued : ∀ name ∈ interned, r.lookup name ∈ issued
  owns : ∀ t, r.owns t = true ↔ t ∈ issued
  owns_zero : ∀ name, r.owns ⟨0, name⟩ = false

/-- A session that keeps the invariant has a faithful registry. -/
theorem Session.Kept.faithful {s : Session} {interned : List Text} (h : s.Kept interned) :
    s.registry.Faithful interned s.issued := by
  have howns (t : Tag) : s.registry.owns t = true ↔ t ∈ s.issued := by
    rw [owns_iff h.nodup, h.issued]
  have hknown (name : Text) : name ∈ s.registry.names ↔ name ∈ interned := by
    rw [h.names, List.mem_eraseDups]
  refine
    { names := h.names
      distinct := h.nodup
      size := ?_
      numbers := fun t ↦ by rw [← howns, owns_iff_getElem?]
      intern_again := ?_
      lookup_valid := fun name ↦ by rw [isValid_lookup_iff, hknown]
      lookup_issued := ?_
      owns := howns
      owns_zero := fun name ↦ rfl }
  · have hset : s.registry.names.toFinset = interned.toFinset := by
      ext name
      simp [hknown]
    rw [← hset, List.toFinset_card_of_nodup h.nodup]
    rfl
  · intro t ht
    obtain ⟨hm, hlookup⟩ := (h.issued t).mp ht
    rw [intern_of_mem hm, ← hlookup]
  · intro name hname
    rw [h.issued]
    exact ⟨(hknown name).mpr hname, rfl⟩

end Registry

namespace TagTable

/-- What a history leaves if the registry is kept as a table. -/
structure Session where
  table : TagTable
  issued : List Tag
  sets : List TagSet.Filled

namespace Session

/-- Perform one operation on the table. -/
def perform (s : Session) : Registry.Operation → Session
  | .intern name =>
    let (t, table) := s.table.intern name
    ⟨table, s.issued ++ [t], s.sets⟩
  | .lookup _ => s
  | .internSet names =>
    let (set, table) := s.table.internSet names
    let tags := s.table.issue names
    ⟨table, s.issued ++ tags, s.sets ++ [⟨set, tags⟩]⟩
  | .setOf tags => { s with sets := s.sets ++ [⟨.ofList tags, tags⟩] }
  | .insert set t =>
    { s with sets := s.sets.modify set fun f ↦ ⟨f.set.insert t, f.added ++ [t]⟩ }

/-- What a history leaves of the table without names. -/
def after (history : List Registry.Operation) : Session :=
  history.foldl perform ⟨.new, [], []⟩

/-- The table represents the registry, and the same tags and sets were handed out. -/
structure Follows (s : Session) (abstract : Registry.Session) : Prop where
  table : s.table.Represents abstract.registry
  issued : s.issued = abstract.issued
  sets : s.sets = abstract.sets

/-- One operation on the table follows the operation on the registry. -/
theorem Follows.perform {s : Session} {abstract : Registry.Session} (h : s.Follows abstract)
    (op : Registry.Operation) : (s.perform op).Follows (abstract.perform op) := by
  obtain ⟨table, issued, sets⟩ := s
  obtain ⟨registry, _, _⟩ := abstract
  obtain ⟨htable, rfl, rfl⟩ := h
  cases op with
  | intern name =>
      obtain ⟨htag, hnext⟩ := htable.intern name
      exact ⟨hnext, congrArg (issued ++ [·]) htag, rfl⟩
  | internSet names =>
      obtain ⟨hset, hnext⟩ := htable.internSet names
      have htags := htable.issue names
      exact ⟨hnext, congrArg (issued ++ ·) htags, congrArg₂ (sets ++ [⟨·, ·⟩]) hset htags⟩
  | lookup | setOf | insert => exact ⟨htable, rfl, rfl⟩

/-- Every history on the table follows the history on the registry. -/
theorem follows_after (history : List Registry.Operation) :
    (after history).Follows (.after history) := by
  induction history using List.reverseRecOn with
  | nil => exact ⟨.new, rfl, rfl⟩
  | append_singleton history op ih =>
      rw [after, Registry.Session.after, List.foldl_append, List.foldl_append]
      exact ih.perform op

end Session

end TagTable

namespace TagSet

variable {r : Registry} {added : List Tag}

/-- The set answers as the set of the names does. -/
structure Holds (r : Registry) (s : TagSet) (names : List Text) : Prop where
  contains : ∀ t, r.owns t = true → (s.contains t = true ↔ t.name ∈ names)
  size : s.size = names.toFinset.card

/-- The numbers of a set of owned tags are those of their names. -/
theorem mem_ids_ofList_of_owns (hn : r.names.Nodup) (h : ∀ t ∈ added, r.owns t = true) {id : Nat} :
    id ∈ (ofList added).ids ↔ ∃ name ∈ added.map Tag.name, id = (r.lookup name).id := by
  have htag (t : Tag) (ht : t ∈ added) : t.isValid = true ∧ t.id = (r.lookup t.name).id := by
    obtain ⟨hm, hlookup⟩ := (Registry.owns_iff hn).mp (h t ht)
    rw [hlookup]
    exact ⟨Registry.isValid_lookup_iff.mpr hm, rfl⟩
  rw [mem_ids_ofList]
  constructor
  · rintro ⟨t, ht, -, hid⟩
    exact ⟨t.name, List.mem_map_of_mem ht, hid.trans (htag t ht).2⟩
  · rintro ⟨name, hname, hid⟩
    obtain ⟨t, ht, rfl⟩ := List.mem_map.mp hname
    exact ⟨t, ht, (htag t ht).1, hid.trans (htag t ht).2.symm⟩

/-- The names of owned tags are known. -/
theorem mem_names_of_owns (hn : r.names.Nodup) (h : ∀ t ∈ added, r.owns t = true) :
    ∀ name ∈ added.map Tag.name, name ∈ r.names := by
  intro name hname
  obtain ⟨t, ht, rfl⟩ := List.mem_map.mp hname
  exact ((Registry.owns_iff hn).mp (h t ht)).1

/-- A set of owned tags answers as the set of their names. -/
theorem holds_ofList (hn : r.names.Nodup) (h : ∀ t ∈ added, r.owns t = true) :
    Holds r (ofList added) (added.map Tag.name) := by
  have hknown := mem_names_of_owns hn h
  constructor
  · intro t ht
    obtain ⟨hm, hlookup⟩ := (Registry.owns_iff hn).mp ht
    rw [contains_iff, mem_ids_ofList_of_owns hn h, hlookup]
    constructor
    · rintro ⟨name, hname, hid⟩
      exact Registry.eq_of_lookup_id_eq hm (hknown name hname) hid ▸ hname
    · intro hname
      exact ⟨_, hname, rfl⟩
  · -- Different names have different numbers, so counting either is the same.
    have himage : (ofList added).ids.toFinset =
        (added.map Tag.name).toFinset.image fun name ↦ (r.lookup name).id := by
      ext id
      simp only [List.mem_toFinset, Finset.mem_image, mem_ids_ofList_of_owns hn h, eq_comm]
    have hinj : Set.InjOn (fun name ↦ (r.lookup name).id) (added.map Tag.name).toFinset := by
      intro a ha b hb hid
      exact Registry.eq_of_lookup_id_eq (hknown a (List.mem_toFinset.mp ha))
        (hknown b (List.mem_toFinset.mp hb)) hid
    calc (ofList added).size = (ofList added).ids.toFinset.card :=
          (List.toFinset_card_of_nodup (nodup_ofList added)).symm
      _ = (added.map Tag.name).toFinset.card := by
          rw [himage, Finset.card_image_of_injOn hinj]

/-- Two sets of owned tags have a common member exactly if a name was added to both. -/
theorem intersects_ofList_iff {more : List Tag} (hn : r.names.Nodup)
    (h : ∀ t ∈ added, r.owns t = true) (hmore : ∀ t ∈ more, r.owns t = true) :
    (ofList added).intersects (ofList more) = true ↔
      ∃ name ∈ added.map Tag.name, name ∈ more.map Tag.name := by
  rw [intersects_iff]
  constructor
  · rintro ⟨id, hid, hid'⟩
    obtain ⟨a, ha, rfl⟩ := (mem_ids_ofList_of_owns hn h).mp hid
    obtain ⟨b, hb, hab⟩ := (mem_ids_ofList_of_owns hn hmore).mp hid'
    obtain rfl := Registry.eq_of_lookup_id_eq (mem_names_of_owns hn h a ha)
      (mem_names_of_owns hn hmore b hb) hab
    exact ⟨a, ha, hb⟩
  · rintro ⟨name, hname, hname'⟩
    exact ⟨(r.lookup name).id, (mem_ids_ofList_of_owns hn h).mpr ⟨name, hname, rfl⟩,
      (mem_ids_ofList_of_owns hn hmore).mpr ⟨name, hname', rfl⟩⟩

end TagSet

namespace Registry.Session

/-- After every history the registry is faithful to the names interned and the tags handed out, and
the sets that were filled with tags of the registry only answer as the sets of the added names. The
history leaves the same tags and sets if the registry is kept as a table, which mirrors it. -/
theorem after_faithful (history : List Operation) :
    (after history).registry.Faithful (history.flatMap Operation.interns) (after history).issued ∧
      (∀ f ∈ (after history).sets, (∀ t ∈ f.added, (after history).registry.owns t = true) →
        TagSet.Holds (after history).registry f.set f.names) ∧
      (∀ f ∈ (after history).sets, ∀ g ∈ (after history).sets,
        (∀ t ∈ f.added, (after history).registry.owns t = true) →
        (∀ t ∈ g.added, (after history).registry.owns t = true) →
        (f.set.intersects g.set = true ↔ ∃ name ∈ f.names, name ∈ g.names)) ∧
      (TagTable.Session.after history).issued = (after history).issued ∧
      (TagTable.Session.after history).sets = (after history).sets ∧
      (TagTable.Session.after history).table.Mirrors (after history).registry := by
  have hkept := kept_after history
  have hfollows := TagTable.Session.follows_after history
  refine ⟨hkept.faithful, ?_, ?_, hfollows.issued, hfollows.sets,
    hfollows.table.mirrors hkept.nodup⟩
  · intro f hf hadded
    rw [hkept.sets f hf]
    exact TagSet.holds_ofList hkept.nodup hadded
  · intro f hf g hg hadded hmore
    rw [hkept.sets f hf, hkept.sets g hg]
    exact TagSet.intersects_ofList_iff hkept.nodup hadded hmore

/-- The empty name is interned first and added to two sets, which have it in common. A table keeps
it in the slot of its number, next to the one that stands for no name. -/
theorem after_faithful_emptyName :
    ∃ f g,
      (after [.intern [], .internSet [[97]], .insert 0 ⟨1, []⟩, .setOf [⟨1, []⟩]]).sets = [f, g] ∧
      f.names = [[97], []] ∧ f.set.size = 2 ∧ f.set.intersects g.set = true ∧
      (TagTable.Session.after
        [.intern [], .internSet [[97]], .insert 0 ⟨1, []⟩, .setOf [⟨1, []⟩]]).table.lookup [] =
        (⟨1, []⟩, true) := by
  let history : List Operation :=
    [.intern [], .internSet [[97]], .insert 0 ⟨1, []⟩, .setOf [⟨1, []⟩]]
  let f : TagSet.Filled := ⟨⟨[1, 2]⟩, [⟨2, [97]⟩, ⟨1, []⟩]⟩
  let g : TagSet.Filled := ⟨⟨[1]⟩, [⟨1, []⟩]⟩
  have hsets : (after history).sets = [f, g] := by decide
  have hf : ∀ t ∈ f.added, (after history).registry.owns t = true := by decide
  have hg : ∀ t ∈ g.added, (after history).registry.owns t = true := by decide
  obtain ⟨-, hholds, hcommon, -, -, hmirrors⟩ := after_faithful history
  refine ⟨f, g, hsets, rfl, (hholds f (by simp [hsets]) hf).size, ?_, ?_⟩
  · exact (hcommon f (by simp [hsets]) g (by simp [hsets]) hf hg).mpr ⟨[], by decide, by decide⟩
  · rw [hmirrors.lookup]
    decide

end Registry.Session

end Tagfold
