import Tagfold.Tag

/-!
# Registries grow and keep their tags

A registry only ever grows at its end, so a tag that was handed out once stays the tag of its name.
Within a registry without repeated names, numbers and names determine each other.
`contains_internSet` draws the consequence for sets: a set made from names accepts an owned tag
exactly if the name of the tag is one of them, however much the registry has grown since.
-/

namespace Tagfold

/-- Without repetitions, an element at the end is new, or it does not count. -/
theorem eraseDups_concat {α : Type} [BEq α] [LawfulBEq α] (l : List α) (a : α) :
    (l ++ [a]).eraseDups = if a ∈ l then l.eraseDups else l.eraseDups ++ [a] := by
  rw [List.eraseDups_append]
  by_cases h : a ∈ l
  · simp [List.removeAll, h]
  · simp [List.removeAll, h, List.eraseDups_cons]

/-- Membership after adding a tag. -/
theorem TagSet.contains_insert (s : TagSet) (t u : Tag) :
    (s.insert t).contains u = true ↔ s.contains u = true ∨ (t.isValid = true ∧ u.id = t.id) := by
  unfold insert contains Tag.isValid
  split
  · next h => simp [h]
  · next h => simp [h, List.mem_insert_iff, or_comm]

namespace Registry

variable {r r' : Registry} {name : Text}

/-- One registry continues another: it knows the same names under the same numbers, and maybe more.
-/
def Extends (r' r : Registry) : Prop := r.names <+: r'.names

/-- Every registry continues itself. -/
theorem Extends.refl (r : Registry) : r.Extends r := List.prefix_refl _

/-- Continuations can be continued. -/
theorem Extends.trans {r₁ r₂ r₃ : Registry} (h₁ : r₃.Extends r₂) (h₂ : r₂.Extends r₁) :
    r₃.Extends r₁ := List.IsPrefix.trans h₂ h₁

/-- A name once known stays known. -/
theorem Extends.mem (h : r'.Extends r) (hm : name ∈ r.names) : name ∈ r'.names :=
  h.subset hm

/-- The tag of a known name carries its place among the names. -/
theorem lookup_of_mem (hm : name ∈ r.names) : r.lookup name = ⟨r.names.idxOf name + 1, name⟩ := by
  obtain ⟨i, hi⟩ := Option.isSome_iff_exists.mp (List.isSome_idxOf?.mpr hm)
  have hidx : r.names.idxOf name = i := by
    rw [List.idxOf?_eq_some_iff] at hi
    obtain ⟨hlt, hat, hfirst⟩ := hi
    rw [List.idxOf, List.findIdx_eq hlt]
    exact ⟨by simpa using hat, fun j hj ↦ by simpa using hfirst j hj⟩
  simp [lookup, hi, hidx]

/-- The tag of another name is invalid. -/
theorem lookup_of_not_mem (hm : name ∉ r.names) : r.lookup name = ⟨0, name⟩ := by
  simp [lookup, List.idxOf?_eq_none_iff.mpr hm]

/-- The tag of a name is valid exactly if the name is known. -/
theorem isValid_lookup_iff : (r.lookup name).isValid = true ↔ name ∈ r.names := by
  constructor
  · intro h
    by_cases hm : name ∈ r.names
    · exact hm
    · simp [lookup_of_not_mem hm, Tag.isValid] at h
  · intro hm
    simp [lookup_of_mem hm, Tag.isValid]

/-- Interning a known name changes nothing. -/
theorem intern_of_mem (hm : name ∈ r.names) : r.intern name = (r.lookup name, r) := by
  simp [intern, isValid_lookup_iff.mpr hm]

/-- Interning a new name adds it at the end. -/
theorem intern_of_not_mem (hm : name ∉ r.names) :
    r.intern name = (⟨r.size + 1, name⟩, ⟨r.names ++ [name]⟩) := by
  have h : (r.lookup name).isValid = false := by
    rw [Bool.eq_false_iff, Ne, isValid_lookup_iff]
    exact hm
  simp [intern, h]

/-- Interning continues the registry. -/
theorem extends_intern (r : Registry) (name : Text) : (r.intern name).2.Extends r := by
  by_cases hm : name ∈ r.names
  · rw [intern_of_mem hm]
    exact Extends.refl r
  · rw [intern_of_not_mem hm]
    exact List.prefix_append _ _

/-- An interned name is known. -/
theorem mem_intern (r : Registry) (name : Text) : name ∈ (r.intern name).2.names := by
  by_cases hm : name ∈ r.names
  · rwa [intern_of_mem hm]
  · rw [intern_of_not_mem hm]
    simp

/-- Interning repeats no name. -/
theorem nodup_intern (hn : r.names.Nodup) (name : Text) : (r.intern name).2.names.Nodup := by
  by_cases hm : name ∈ r.names
  · rwa [intern_of_mem hm]
  · rw [intern_of_not_mem hm, List.nodup_append]
    refine ⟨hn, by simp, ?_⟩
    rintro a ha b hb rfl
    exact hm (by simpa using List.mem_singleton.mp hb ▸ ha)

/-- A known name has the same tag in every continuation. -/
theorem Extends.lookup_eq (h : r'.Extends r) (hm : name ∈ r.names) :
    r'.lookup name = r.lookup name := by
  rw [lookup_of_mem hm, lookup_of_mem (h.mem hm)]
  obtain ⟨more, hmore⟩ := h
  rw [← hmore, List.idxOf_append, if_pos hm]

/-- The tag handed out by interning is the tag of the name from then on. -/
theorem intern_fst (r : Registry) (name : Text) :
    (r.intern name).1 = (r.intern name).2.lookup name := by
  by_cases hm : name ∈ r.names
  · rw [intern_of_mem hm]
  · rw [intern_of_not_mem hm, lookup_of_mem (by simp), List.idxOf_append, if_neg hm]
    simp [size]

/-- The tag handed out by interning has the name. -/
theorem name_intern (r : Registry) (name : Text) : (r.intern name).1.name = name := by
  rw [intern_fst]
  rfl

/-- Known names with the same number are the same. -/
theorem eq_of_lookup_id_eq {a b : Text} (ha : a ∈ r.names) (hb : b ∈ r.names)
    (h : (r.lookup a).id = (r.lookup b).id) : a = b := by
  rw [lookup_of_mem ha, lookup_of_mem hb] at h
  have hidx : r.names.idxOf a = r.names.idxOf b := by simpa using h
  have hla := List.idxOf_lt_length_of_mem ha
  have hlb := List.idxOf_lt_length_of_mem hb
  calc a = r.names[r.names.idxOf a] := (List.getElem_idxOf hla).symm
    _ = r.names[r.names.idxOf b] := by simp only [hidx]
    _ = b := List.getElem_idxOf hlb

/-- The tag of a known name is owned. -/
theorem owns_lookup (hm : name ∈ r.names) : r.owns (r.lookup name) = true := by
  have hlt := List.idxOf_lt_length_of_mem hm
  rw [lookup_of_mem hm]
  simp [owns, Tag.isValid, List.getElem?_eq_getElem hlt]

/-- A registry without repetitions owns exactly the tags of its names. -/
theorem owns_iff (hn : r.names.Nodup) {t : Tag} :
    r.owns t = true ↔ t.name ∈ r.names ∧ t = r.lookup t.name := by
  constructor
  · intro h
    simp only [owns, Tag.isValid, Bool.and_eq_true, bne_iff_ne, ne_eq, beq_iff_eq] at h
    obtain ⟨hid, hat⟩ := h
    obtain ⟨hlt, hget⟩ := List.getElem?_eq_some_iff.mp hat
    have hm : t.name ∈ r.names := hget ▸ List.getElem_mem hlt
    refine ⟨hm, ?_⟩
    have hidx : r.names.idxOf t.name = t.id - 1 := by
      rw [← hget]
      exact hn.idxOf_getElem _ hlt
    rw [lookup_of_mem hm, hidx]
    have : t.id - 1 + 1 = t.id := by omega
    rw [this]
  · rintro ⟨hm, ht⟩
    rw [ht]
    exact owns_lookup hm

/-- One name of a set: the set and the registry behind it. -/
def addName (acc : TagSet × Registry) (name : Text) : TagSet × Registry :=
  (acc.1.insert (acc.2.intern name).1, (acc.2.intern name).2)

/-- A set is made name by name. -/
theorem internSet_eq_foldl (r : Registry) (names : List Text) :
    r.internSet names = names.foldl addName (TagSet.empty, r) := rfl

/-- Making a set continues the registry, which then knows the names and repeats none. -/
theorem foldl_addName_registry (names : List Text) (s : TagSet) (r : Registry)
    (hn : r.names.Nodup) :
    (names.foldl addName (s, r)).2.Extends r ∧ (names.foldl addName (s, r)).2.names.Nodup ∧
      ∀ name ∈ names, name ∈ (names.foldl addName (s, r)).2.names := by
  induction names generalizing s r with
  | nil => exact ⟨Extends.refl r, hn, by simp⟩
  | cons name names ih =>
      obtain ⟨hext, hnodup, hmem⟩ :=
        ih (s.insert (r.intern name).1) (r.intern name).2 (nodup_intern hn name)
      refine ⟨hext.trans (extends_intern r name), hnodup, ?_⟩
      intro a ha
      rcases List.mem_cons.mp ha with rfl | ha
      · exact hext.mem (mem_intern r a)
      · exact hmem a ha

/-- Adding names to a set adds their numbers, which are the same in every later state of the
registry. -/
theorem contains_foldl_addName_iff (names : List Text) (s : TagSet) {r r' : Registry}
    (hn : r.names.Nodup) (hext : r'.Extends (names.foldl addName (s, r)).2) (t : Tag) :
    (names.foldl addName (s, r)).1.contains t = true ↔
      s.contains t = true ∨ ∃ name ∈ names, t.id = (r'.lookup name).id := by
  induction names generalizing s r with
  | nil => simp
  | cons name names ih =>
      have hrest := ih (s.insert (r.intern name).1) (nodup_intern hn name) hext
      have hstep : r'.Extends (r.intern name).2 :=
        Extends.trans hext (foldl_addName_registry names _ _ (nodup_intern hn name)).1
      have htag : (r.intern name).1 = r'.lookup name := by
        rw [intern_fst, hstep.lookup_eq (mem_intern r name)]
      have hvalid : (r'.lookup name).isValid = true :=
        isValid_lookup_iff.mpr (hstep.mem (mem_intern r name))
      rw [List.foldl_cons, addName, hrest, TagSet.contains_insert, htag]
      simp [hvalid, or_assoc]

/-- The tags that interning names one after another hands out. -/
def issue (r : Registry) : List Text → List Tag
  | [] => []
  | name :: names => (r.intern name).1 :: issue (r.intern name).2 names

/-- An owned tag has the number of a known name exactly if it has that name. -/
theorem id_eq_lookup_iff (hn : r.names.Nodup) {t : Tag} (ht : r.owns t = true)
    (hname : name ∈ r.names) : t.id = (r.lookup name).id ↔ t.name = name := by
  obtain ⟨hm, htl⟩ := (owns_iff hn).mp ht
  constructor
  · intro h
    rw [htl] at h
    exact eq_of_lookup_id_eq hm hname h
  · intro h
    rw [htl, h]

/-- Names are added to the members that were there before. -/
theorem contains_foldl_addName (names : List Text) (s : TagSet) {r r' : Registry}
    (hn : r.names.Nodup) (hn' : r'.names.Nodup)
    (hext : r'.Extends (names.foldl addName (s, r)).2) {t : Tag} (ht : r'.owns t = true) :
    (names.foldl addName (s, r)).1.contains t = true ↔
      s.contains t = true ∨ t.name ∈ names := by
  -- Sets compare numbers; within the later registry these stand for names.
  have hid : ∀ name ∈ names, t.id = (r'.lookup name).id ↔ t.name = name := fun name hname ↦
    id_eq_lookup_iff hn' ht (hext.mem ((foldl_addName_registry names s r hn).2.2 name hname))
  have hnames : (∃ name ∈ names, t.id = (r'.lookup name).id) ↔ t.name ∈ names := by
    constructor
    · rintro ⟨name, hname, h⟩
      rwa [(hid name hname).mp h]
    · intro hname
      exact ⟨t.name, hname, (hid _ hname).mpr rfl⟩
  rw [contains_foldl_addName_iff names s hn hext, hnames]

/-- A set made from names accepts a tag exactly if it has the number of one of them, in every later
state of the registry. -/
theorem contains_internSet_iff (hn : r.names.Nodup) {names : List Text}
    (hext : r'.Extends (r.internSet names).2) (t : Tag) :
    (r.internSet names).1.contains t = true ↔ ∃ name ∈ names, t.id = (r'.lookup name).id := by
  rw [internSet_eq_foldl] at hext ⊢
  rw [contains_foldl_addName_iff names TagSet.empty hn hext]
  simp [TagSet.empty, TagSet.contains]

/-- A set made from names accepts an owned tag exactly if its name is one of them, in every later
state of the registry. -/
theorem contains_internSet (hn : r.names.Nodup) {names : List Text} (hn' : r'.names.Nodup)
    (hext : r'.Extends (r.internSet names).2) {t : Tag} (ht : r'.owns t = true) :
    (r.internSet names).1.contains t = true ↔ t.name ∈ names := by
  rw [internSet_eq_foldl] at hext ⊢
  rw [contains_foldl_addName names TagSet.empty hn hn' hext ht]
  simp [TagSet.empty, TagSet.contains]

/-- Interning many names continues the registry, which then knows them and repeats none. -/
theorem internAll_registry (names : List Text) (hn : r.names.Nodup) :
    (r.internAll names).Extends r ∧ (r.internAll names).names.Nodup ∧
      ∀ name ∈ names, name ∈ (r.internAll names).names := by
  induction names generalizing r with
  | nil => exact ⟨Extends.refl r, hn, by simp⟩
  | cons name names ih =>
      obtain ⟨hext, hnodup, hmem⟩ := ih (nodup_intern hn name)
      refine ⟨Extends.trans hext (extends_intern r name), hnodup, ?_⟩
      intro a ha
      rcases List.mem_cons.mp ha with rfl | ha
      · exact Extends.mem hext (mem_intern r a)
      · exact hmem a ha

/-- Behind an interned name, every continuation knows the name and has its tag. -/
theorem Extends.of_intern {r₁ : Registry} {t : Tag} (h : r'.Extends r₁)
    (hintern : r.intern name = (t, r₁)) :
    t = r'.lookup name ∧ name ∈ r'.names ∧ r'.Extends r := by
  have hfst : (r.intern name).1 = t := by rw [hintern]
  have hsnd : (r.intern name).2 = r₁ := by rw [hintern]
  rw [← hsnd] at h
  refine ⟨?_, h.mem (mem_intern r name), h.trans (extends_intern r name)⟩
  rw [← hfst, intern_fst, h.lookup_eq (mem_intern r name)]

end Registry

end Tagfold
