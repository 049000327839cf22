import Mathlib.Data.List.Basic
import Tagfold.Tag

/-!
# Registries as tables

A registry is kept as two tables that answer each other: a map from the known names to their
numbers, and a row of slots with the name of each number. No tag has the number zero, so slot zero
is taken from the start. It holds the empty name, which is not known for that: like any other name
it gets a slot of its own when it is interned.
-/

namespace Tagfold

/-- The numbers of the known names, and the names of the numbers with the slot that stands for no
tag in front. -/
structure TagTable where
  ids : Std.HashMap Text Nat
  slots : Array Text

namespace TagTable

/-- The table without names. -/
def new : TagTable := ⟨∅, #[[]]⟩

/-- The tag of a name and whether the name is known. The tag is invalid if it is not. -/
def lookup (t : TagTable) (name : Text) : Tag × Bool :=
  match t.ids[name]? with
  | some id => (⟨id, name⟩, true)
  | none => (⟨0, name⟩, false)

/-- The tag of a name, which gets the next slot if it is not known. The map is asked a second time
because the first answer is given before the table is held for writing. -/
def intern (t : TagTable) (name : Text) : Tag × TagTable :=
  let (tag, found) := t.lookup name
  if found then (tag, t) else
    match t.ids[name]? with
    | some id => (⟨id, name⟩, t)
    | none => (⟨t.slots.size, name⟩, ⟨t.ids.insert name t.slots.size, t.slots.push name⟩)

/-- The tag was handed out by this table. -/
def owns (t : TagTable) (tag : Tag) : Bool :=
  tag.id != 0 && if h : tag.id < t.slots.size then t.slots[tag.id] == tag.name else false

/-- The number of known names. -/
def size (t : TagTable) : Nat :=
  t.slots.size - 1

/-- The known names in the order in which they were interned. -/
def names (t : TagTable) : List Text :=
  t.slots.toList.drop 1

/-- The set of the tags of the names, which become known. -/
def internSet (t : TagTable) (names : List Text) : TagSet × TagTable :=
  names.foldl
    (fun (s, t) name ↦
      let (tag, t) := t.intern name
      (s.insert tag, t))
    (TagSet.empty, t)

/-- The tags that interning names one after another hands out. -/
def issue (t : TagTable) : List Text → List Tag
  | [] => []
  | name :: names => (t.intern name).1 :: issue (t.intern name).2 names

end TagTable

end Tagfold
