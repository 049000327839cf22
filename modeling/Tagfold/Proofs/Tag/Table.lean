import Tagfold.Proofs.Tag.Registry
import Tagfold.Tag.Table

/-!
# Tables represent registries

A table represents a registry if its map knows the names of the registry under their numbers and its
slots hold these names behind the empty one. Every operation on the table gives what the operation
on the registry gives and leaves tables that represent it again. `Represents.mirrors` says what can
be seen of this: the map and the slots are inverse to each other, and all questions are answered as
the registry answers them.
-/

namespace Tagfold.TagTable

variable {t : TagTable} {r : Registry} {name : Text}

/-- One name of a set: the set and the table behind it. -/
def addName (acc : TagSet × TagTable) (name : Text) : TagSet × TagTable :=
  (acc.1.insert (acc.2.intern name).1, (acc.2.intern name).2)

/-- The table knows what the registry knows. -/
structure Represents (t : TagTable) (r : Registry) : Prop where
  ids : ∀ name id, t.ids[name]? = some id ↔ name ∈ r.names ∧ id = (r.lookup name).id
  slots : t.slots.toList = [] :: r.names

/-- An owned tag has a slot of its own, which holds its name. -/
theorem owns_iff {tag : Tag} :
    t.owns tag = true ↔ tag.id ≠ 0 ∧ t.slots[tag.id]? = some tag.name := by
  by_cases hlt : tag.id < t.slots.size <;> simp [owns, hlt]

namespace Represents

/-- The new table represents the empty registry. -/
theorem new : TagTable.new.Represents .empty where
  ids := by simp [TagTable.new, Registry.empty]
  slots := rfl

/-- There is one slot more than there are names. -/
theorem size_slots (h : t.Represents r) : t.slots.size = r.size + 1 := by
  rw [← Array.length_toList, h.slots]
  rfl

/-- The first slot stands for no name. -/
theorem slots_zero (h : t.Represents r) : t.slots[0]? = some [] := by
  rw [← Array.getElem?_toList, h.slots]
  rfl

/-- The slots behind the first one hold the names. -/
theorem slots_succ (h : t.Represents r) (k : Nat) : t.slots[k + 1]? = r.names[k]? := by
  rw [← Array.getElem?_toList, h.slots]
  rfl

/-- The map has the number of a known name. -/
theorem ids_of_mem (h : t.Represents r) (hm : name ∈ r.names) :
    t.ids[name]? = some (r.lookup name).id :=
  (h.ids name _).mpr ⟨hm, rfl⟩

/-- The map has no number for another name. -/
theorem ids_of_not_mem (h : t.Represents r) (hm : name ∉ r.names) : t.ids[name]? = none :=
  Option.eq_none_iff_forall_ne_some.mpr fun id hid ↦ hm ((h.ids name id).mp hid).1

/-- Names are looked up as in the registry. -/
theorem lookup (h : t.Represents r) (name : Text) :
    t.lookup name = (r.lookup name, (r.lookup name).isValid) := by
  by_cases hm : name ∈ r.names
  · rw [TagTable.lookup, h.ids_of_mem hm, Registry.isValid_lookup_iff.mpr hm]
    rfl
  · rw [TagTable.lookup, h.ids_of_not_mem hm, Registry.lookup_of_not_mem hm]
    rfl

/-- Adding a name that is not known at the end of both tables. -/
theorem push (h : t.Represents r) (hm : name ∉ r.names) :
    Represents ⟨t.ids.insert name t.slots.size, t.slots.push name⟩ ⟨r.names ++ [name]⟩ where
  ids := by
    intro other id
    have hext : (Registry.mk (r.names ++ [name])).Extends r := List.prefix_append _ _
    have hnew : (Registry.mk (r.names ++ [name])).lookup name = ⟨t.slots.size, name⟩ := by
      have htag := Registry.intern_fst r name
      rw [Registry.intern_of_not_mem hm] at htag
      rw [← htag, h.size_slots]
    rw [Std.HashMap.getElem?_insert, List.mem_append, List.mem_singleton]
    by_cases hname : name = other
    · subst hname
      simp [hnew, eq_comm]
    · rw [if_neg (by simpa using hname), h.ids, or_iff_left (Ne.symm hname)]
      exact and_congr_right fun hother ↦ by rw [hext.lookup_eq hother]
  slots := by rw [Array.toList_push, h.slots, List.cons_append]

/-- Interning hands out the tag that the registry hands out, and the table stays in step. -/
theorem intern (h : t.Represents r) (name : Text) :
    (t.intern name).1 = (r.intern name).1 ∧ (t.intern name).2.Represents (r.intern name).2 := by
  by_cases hm : name ∈ r.names
  · have hknown : t.lookup name = (r.lookup name, true) := by
      rw [h.lookup, Registry.isValid_lookup_iff.mpr hm]
    rw [TagTable.intern, hknown, Registry.intern_of_mem hm]
    exact ⟨rfl, h⟩
  · have hunknown : t.lookup name = (⟨0, name⟩, false) := by
      rw [h.lookup, Registry.lookup_of_not_mem hm]
      rfl
    rw [TagTable.intern, hunknown, h.ids_of_not_mem hm, Registry.intern_of_not_mem hm]
    have htag : Tag.mk t.slots.size name = ⟨r.size + 1, name⟩ := by rw [h.size_slots]
    exact ⟨htag, h.push hm⟩

/-- A set of names is made as in the registry. -/
theorem internSet (h : t.Represents r) (names : List Text) :
    (t.internSet names).1 = (r.internSet names).1 ∧
      (t.internSet names).2.Represents (r.internSet names).2 := by
  suffices hfold : ∀ (s : TagSet) (t : TagTable) (r : Registry), t.Represents r →
      (names.foldl addName (s, t)).1 = (names.foldl Registry.addName (s, r)).1 ∧
        (names.foldl addName (s, t)).2.Represents (names.foldl Registry.addName (s, r)).2 from
    hfold .empty t r h
  induction names with
  | nil => exact fun s t r h ↦ ⟨rfl, h⟩
  | cons name names ih =>
      intro s t r h
      obtain ⟨htag, hnext⟩ := h.intern name
      rw [List.foldl_cons, List.foldl_cons, addName, Registry.addName, htag]
      exact ih _ _ _ hnext

/-- The tags of names are handed out as by the registry. -/
theorem issue (h : t.Represents r) (names : List Text) : t.issue names = r.issue names := by
  induction names generalizing t r with
  | nil => rfl
  | cons name names ih =>
      obtain ⟨htag, hnext⟩ := h.intern name
      rw [TagTable.issue, Registry.issue, htag, ih hnext]

/-- The same tags are owned: slot zero, which holds a name too, stands for no tag. -/
theorem owns (h : t.Represents r) (tag : Tag) : t.owns tag = r.owns tag := by
  obtain ⟨id, name⟩ := tag
  cases id with
  | zero => rfl
  | succ k =>
      rw [Bool.eq_iff_iff, owns_iff, h.slots_succ]
      simp [Registry.owns, Tag.isValid]

/-- The names are counted without the first slot. -/
theorem size (h : t.Represents r) : t.size = r.size := by
  rw [TagTable.size, h.size_slots, Nat.add_sub_cancel]

/-- The names are listed without the first slot. -/
theorem names (h : t.Represents r) : t.names = r.names := by
  rw [TagTable.names, h.slots]
  rfl

/-- The map and the slots are inverse to each other, the first slot apart. -/
theorem ids_iff_slots (h : t.Represents r) (hn : r.names.Nodup) (name : Text) (id : Nat) :
    t.ids[name]? = some id ↔ id ≠ 0 ∧ t.slots[id]? = some name := by
  calc t.ids[name]? = some id
    _ ↔ name ∈ r.names ∧ id = (r.lookup name).id := h.ids name id
    _ ↔ name ∈ r.names ∧ Tag.mk id name = r.lookup name :=
      and_congr_right fun _ ↦ by simp [Registry.lookup]
    _ ↔ r.owns ⟨id, name⟩ = true := (Registry.owns_iff hn (t := ⟨id, name⟩)).symm
    _ ↔ t.owns ⟨id, name⟩ = true := by rw [h.owns]
    _ ↔ id ≠ 0 ∧ t.slots[id]? = some name := owns_iff

end Represents

/-- What can be seen of a table is what the registry shows: map and slots agree, the first slot
stands for no name, and every question has the answer of the registry. -/
structure Mirrors (t : TagTable) (r : Registry) : Prop where
  ids_iff_slots : ∀ name id, t.ids[name]? = some id ↔ id ≠ 0 ∧ t.slots[id]? = some name
  slots_zero : t.slots[0]? = some []
  lookup : ∀ name, t.lookup name = (r.lookup name, (r.lookup name).isValid)
  owns : ∀ tag, t.owns tag = r.owns tag
  size : t.size = r.size
  names : t.names = r.names

/-- A table that represents a registry mirrors it. -/
theorem Represents.mirrors (h : t.Represents r) (hn : r.names.Nodup) : t.Mirrors r where
  ids_iff_slots := h.ids_iff_slots hn
  slots_zero := h.slots_zero
  lookup := h.lookup
  owns := h.owns
  size := h.size
  names := h.names

end Tagfold.TagTable
