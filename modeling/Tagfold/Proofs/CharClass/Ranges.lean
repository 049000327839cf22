import Tagfold.Proofs.CharClass.Matching
import Tagfold.Proofs.Text.Utf8

/-!
# Classes of characters and ranges

A class such as `[a-z0-9_]` lists characters of words and ranges of them between brackets. Every
such class can be compiled, and it contains the listed characters and those of the listed ranges,
whatever character is asked for (`exists_compile_class`).
-/

namespace Tagfold.CharClass

/-- An item of a class: a character, or all characters from one to another. -/
inductive Item where
  | char (c : Char)
  | range (low high : Char)
  deriving DecidableEq, Repr

namespace Item

/-- How an item is written. -/
def spelling : Item → List Char
  | char c => [c]
  | range low high => [low, '-', high]

/-- The code points of an item. -/
def codes : Item → CodeSet
  | char c => CodeSet.range c.toNat c.toNat
  | range low high => CodeSet.range low.toNat high.toNat

/-- The character is one of the item. -/
def contains (c : Char) : Item → Bool
  | char d => d == c
  | range low high => low ≤ c && c ≤ high

/-- The item is written with characters of words, and a range is not the wrong way round. -/
def Plain : Item → Prop
  | char c => isWordCode c.toNat = true
  | range low high =>
    isWordCode low.toNat = true ∧ isWordCode high.toNat = true ∧ low.toNat ≤ high.toNat

end Item

/-- How a class is written. -/
def spellClass (items : List Item) : List Char :=
  '[' :: (items.flatMap Item.spelling ++ [']'])

/-- The code points of a class that is read with the given flags. -/
def codesOf (f : Flags) (items : List Item) : CodeSet := fun code ↦
  items.any fun item ↦ f.apply item.codes code

variable {c : Char} {cs : List Char} {item : Item} {items : List Item} {f : Flags}

/-- A character of a word has no meaning of its own in a class. -/
theorem ne_of_isWordCode (h : isWordCode c.toNat = true) :
    c ≠ ']' ∧ c ≠ '[' ∧ c ≠ '^' ∧ c ≠ '-' ∧ c ≠ '\\' := by
  refine ⟨?_, ?_, ?_, ?_, ?_⟩ <;> rintro rfl <;> revert h <;> decide

/-- A character of a word is read as itself. -/
theorem setChar?_of_isWordCode (h : isWordCode c.toNat = true) :
    setChar? (c :: cs) = some (c.toNat, cs) := by
  obtain ⟨-, -, -, -, hescape⟩ := ne_of_isWordCode h
  simp [setChar?]

/-- A character of a word begins a character or a range, and no named class. -/
theorem setItem?_of_isWordCode (h : isWordCode c.toNat = true) :
    setItem? f (c :: cs) = setRange? f (c :: cs) := by
  obtain ⟨-, hopen, -, -, hescape⟩ := ne_of_isWordCode h
  rw [setItem?]
  · exact fun rest heq ↦ hopen (List.cons.inj heq).1
  · exact fun rest heq ↦ hescape (List.cons.inj heq).1

/-- An item is read up to its end if no hyphen follows. -/
theorem setItem?_spelling (h : item.Plain) (hrest : cs.head? ≠ some '-') :
    setItem? f (item.spelling ++ cs) = some (f.apply item.codes, cs) := by
  cases item with
  | char c =>
      show setItem? f (c :: cs) = _
      rw [setItem?_of_isWordCode h]
      simp only [setRange?, setChar?_of_isWordCode h, Option.bind_eq_bind, Option.bind_some]
      split
      · exact absurd rfl hrest
      · rfl
  | range low high =>
      obtain ⟨hlow, hhigh, hle⟩ := h
      have hclose := (ne_of_isWordCode hhigh).1
      show setItem? f (low :: '-' :: high :: cs) = _
      rw [setItem?_of_isWordCode hlow]
      simp [setRange?, setChar?_of_isWordCode hlow, setChar?_of_isWordCode hhigh, hclose,
        Nat.not_lt.mpr hle, Item.codes]

/-- An item begins with a character of a word. -/
theorem exists_spelling_eq_cons (h : item.Plain) :
    ∃ c cs, item.spelling = c :: cs ∧ isWordCode c.toNat = true := by
  cases item with
  | char c => exact ⟨c, [], rfl, h⟩
  | range low high => exact ⟨low, ['-', high], rfl, h.1⟩

/-- The text of items and a closing bracket does not begin with a hyphen or a caret. -/
theorem head?_spelling (hplain : ∀ item ∈ items, item.Plain) {d : Char}
    (hd : (items.flatMap Item.spelling ++ ']' :: cs).head? = some d) : d ≠ '-' ∧ d ≠ '^' := by
  cases items with
  | nil =>
      obtain rfl : ']' = d := by simpa using hd
      decide
  | cons item items =>
      obtain ⟨c, more, hspelled, hword⟩ := exists_spelling_eq_cons (hplain item List.mem_cons_self)
      obtain rfl : c = d := by simpa [hspelled] using hd
      obtain ⟨-, -, hcaret, hhyphen, -⟩ := ne_of_isWordCode hword
      exact ⟨hhyphen, hcaret⟩

/-- Items are read up to the closing bracket. -/
theorem setItems?_spelling {fuel : Nat} (hplain : ∀ item ∈ items, item.Plain)
    (hfuel : items.length < fuel) (first : Bool) (hfirst : first = true → items ≠ []) (s : CodeSet)
    (cs : List Char) :
    setItems? f fuel first s (items.flatMap Item.spelling ++ ']' :: cs) =
      some (s.union (codesOf f items), cs) := by
  induction items generalizing fuel first s with
  | nil =>
      obtain ⟨fuel, rfl⟩ := Nat.exists_eq_succ_of_ne_zero (Nat.ne_of_gt hfuel)
      cases first with
      | false =>
          have hnone : s.union (codesOf f []) = s := funext fun c ↦ Bool.or_false (s c)
          rw [hnone]
          rfl
      | true => exact absurd rfl (hfirst rfl)
  | cons item items ih =>
      obtain ⟨fuel, rfl⟩ := Nat.exists_eq_succ_of_ne_zero (Nat.ne_of_gt (Nat.zero_lt_of_lt hfuel))
      have hitem := hplain item List.mem_cons_self
      have hitems : ∀ item ∈ items, item.Plain := fun i hi ↦ hplain i (List.mem_cons_of_mem _ hi)
      have hrest : (items.flatMap Item.spelling ++ ']' :: cs).head? ≠ some '-' := fun h ↦
        (head?_spelling hitems h).1 rfl
      have hread := setItem?_spelling (f := f) hitem hrest
      have hunion : (s.union (f.apply item.codes)).union (codesOf f items) =
          s.union (codesOf f (item :: items)) := funext fun c ↦ Bool.or_assoc ..
      obtain ⟨c, more, hspelled, hword⟩ := exists_spelling_eq_cons hitem
      have hclose := (ne_of_isWordCode hword).1
      rw [List.flatMap_cons, List.append_assoc]
      rw [hspelled, List.cons_append] at hread ⊢
      rw [setItems?, hread, ← hunion]
      · exact ih hitems (Nat.lt_of_succ_lt_succ hfuel) false nofun _
      · exact fun rest heq ↦ absurd (List.cons.inj heq).1 hclose

/-- There is a character for every item. -/
theorem length_le_length_spelling (hplain : ∀ item ∈ items, item.Plain) :
    items.length ≤ (items.flatMap Item.spelling).length := by
  induction items with
  | nil => exact Nat.le_refl 0
  | cons item items ih =>
      obtain ⟨c, more, hspelled, -⟩ := exists_spelling_eq_cons (hplain item List.mem_cons_self)
      have hmore := ih fun i hi ↦ hplain i (List.mem_cons_of_mem _ hi)
      simp only [List.flatMap_cons, hspelled, List.length_append, List.length_cons]
      omega

/-- The set of a class is read up to its closing bracket. -/
theorem bracketed?_spelling (hplain : ∀ item ∈ items, item.Plain) (hne : items ≠ [])
    (cs : List Char) :
    bracketed? f (items.flatMap Item.spelling ++ ']' :: cs) = some (codesOf f items, cs) := by
  have hcaret : ∀ rest, items.flatMap Item.spelling ++ ']' :: cs ≠ '^' :: rest := fun rest heq ↦
    (head?_spelling hplain (congrArg List.head? heq)).2 rfl
  have hfuel : items.length < (items.flatMap Item.spelling ++ ']' :: cs).length + 1 := by
    have := length_le_length_spelling hplain
    simp only [List.length_append]
    omega
  have hitems := setItems?_spelling (f := f) hplain hfuel true (fun _ ↦ hne) (fun _ ↦ false) cs
  rw [bracketed?, hitems]
  · rfl
  · exact hcaret

/-- The pattern of a class between its anchors. -/
def classPattern (items : List Item) : Pattern :=
  .both (.check .textStart) (.both (.both (.one (codesOf {} items)) .empty)
    (.both (.check .textEnd) .empty))

/-- The items of an anchored class are read one by one. -/
theorem readItems?_spellClass (hplain : ∀ item ∈ items, item.Plain) (hne : items ≠ [])
    (fuel : Nat) :
    readItems? (fuel + 5) .initial
        ('^' :: '(' :: '?' :: ':' :: '[' :: (items.flatMap Item.spelling ++ ']' :: [')', '$'])) =
      some ⟨[], [], [.check .textEnd, .both (.one (codesOf {} items)) .empty, .check .textStart],
        {}, false⟩ := by
  -- Five items: the start, the opening of the group, the class, the end of the group, and the end.
  have hbracketed := bracketed?_spelling (f := {}) hplain hne [')', '$']
  simp [readItems?, readItem?, flagGroup?, ReadState.initial, ReadState.push, ReadState.openGroup,
    hbracketed, ReadState.closeGroup?, ReadState.pattern, ReadState.joined]

/-- A class is read as its pattern. -/
theorem anchored?_spellClass (hplain : ∀ item ∈ items, item.Plain) (hne : items ≠ []) :
    anchored? (Utf8.encodeAll (spellClass items)) = some (classPattern items) := by
  have hspelled : "^(?:".toList ++ spellClass items ++ ")$".toList =
      '^' :: '(' :: '?' :: ':' :: '[' :: (items.flatMap Item.spelling ++ ']' :: [')', '$']) := by
    simp [spellClass]
  have hlength : ('^' :: '(' :: '?' :: ':' :: '[' ::
      (items.flatMap Item.spelling ++ ']' :: [')', '$'])).length =
        (items.flatMap Item.spelling).length + 3 + 5 := by
    simp only [List.length_cons, List.length_append, List.length_nil]
  rw [anchored?, Utf8.chars?_encodeAll, Option.bind_eq_bind, Option.bind_some, hspelled,
    readPattern?, hlength, readItems?_spellClass hplain hne]
  rfl

/-- An item has the code points of its characters. -/
theorem codes_toNat (item : Item) (c : Char) : item.codes c.toNat = item.contains c := by
  cases item with
  | char d =>
      have hbetween : (d.toNat ≤ c.toNat ∧ c.toNat ≤ d.toNat) ↔ d = c := by
        rw [← Nat.le_antisymm_iff]
        exact Char.toNat_inj
      rw [Bool.eq_iff_iff]
      simp [Item.codes, CodeSet.range, Item.contains, hbetween]
  | range low high => rfl

/-- A class of characters and ranges is compiled, and it contains the characters of its items. -/
theorem exists_compile_class (hplain : ∀ item ∈ items, item.Plain) (hne : items ≠ []) :
    ∃ p, compile (Utf8.encodeAll (spellClass items)) = .ok p ∧
      ∀ c, containsChar p c = items.any (·.contains c) := by
  refine ⟨classPattern items, by rw [compile, anchored?_spellClass hplain hne], fun c ↦ ?_⟩
  rw [Bool.eq_iff_iff, containsChar, classPattern, Pattern.matchesChar_anchored]
  simp [Pattern.Leads, codesOf, Flags.apply, codes_toNat]

end Tagfold.CharClass
