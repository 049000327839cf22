import Tagfold.Text.Basic

/-!
# Tags

A tag is an interned label: a number together with the name it was given to. A registry hands out
numbers from one in the order in which names are first seen and never forgets a name, so that within
one registry equal numbers mean equal names. A set of tags is a finite set of numbers.
-/

namespace Tagfold

/-- A label for a kind of expression. The number zero marks an invalid tag. -/
structure Tag where
  id : Nat
  name : Text
  deriving DecidableEq, Repr

namespace Tag

/-- The invalid tag without a name. -/
def zero : Tag := ⟨0, []⟩

/-- The tag was handed out by some registry. -/
def isValid (t : Tag) : Bool :=
  t.id != 0

end Tag

/-- A finite set of tags of one registry, by number. -/
structure TagSet where
  ids : List Nat
  deriving DecidableEq, Repr

namespace TagSet

/-- The set without tags. -/
def empty : TagSet := ⟨[]⟩

/-- Add a tag; the invalid tag is never a member. -/
def insert (s : TagSet) (t : Tag) : TagSet :=
  if t.id = 0 then s else ⟨s.ids.insert t.id⟩

/-- The set of the listed tags. -/
def ofList (ts : List Tag) : TagSet :=
  ts.foldl insert empty

/-- The tag is a member. -/
def contains (s : TagSet) (t : Tag) : Bool :=
  s.ids.contains t.id

/-- The number of members. -/
def size (s : TagSet) : Nat :=
  s.ids.length

/-- The two sets have a common member. -/
def intersects (s other : TagSet) : Bool :=
  s.ids.any other.ids.contains

end TagSet

/-- The names that were given tags, in the order of their numbers. -/
structure Registry where
  names : List Text
  deriving DecidableEq, Repr, Inhabited

namespace Registry

/-- The registry without names. -/
def empty : Registry := ⟨[]⟩

/-- The number of names. -/
def size (r : Registry) : Nat :=
  r.names.length

/-- The tag of a name. It is invalid if the name is not known. -/
def lookup (r : Registry) (name : Text) : Tag :=
  ⟨((r.names.idxOf? name).map (· + 1)).getD 0, name⟩

/-- The tag of a name, which becomes known. -/
def intern (r : Registry) (name : Text) : Tag × Registry :=
  let t := r.lookup name
  if t.isValid then (t, r) else (⟨r.size + 1, name⟩, ⟨r.names ++ [name]⟩)

/-- Make the names known, from left to right. -/
def internAll (r : Registry) (names : List Text) : Registry :=
  names.foldl (fun r name ↦ (r.intern name).2) r

/-- The tag was handed out by this registry. -/
def owns (r : Registry) (t : Tag) : Bool :=
  t.isValid && r.names[t.id - 1]? == some t.name

/-- The set of the tags of the names, which become known. -/
def internSet (r : Registry) (names : List Text) : TagSet × Registry :=
  names.foldl
    (fun (s, r) name ↦
      let (t, r) := r.intern name
      (s.insert t, r))
    (TagSet.empty, r)

end Registry

end Tagfold
