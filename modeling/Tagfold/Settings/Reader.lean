import Tagfold.Settings.Scalars

/-!
# Reading documents

A document is a mapping, written with one entry a line or between braces. Lists are written with a
hyphen before each item or between brackets. An entry can be given an anchor and used again under its
name. Only the first document of a text is read, and what follows a mapping between braces is not
looked at. Anything nested deeper than a list of scalars is not a settings document.
-/

namespace Tagfold.Settings

/-- The entries that were given anchors, newest first. -/
abbrev Anchors := List (List Char × Setting)

/-- The character may occur in the name of an anchor. -/
def isAnchorChar (c : Char) : Bool :=
  c.isAlphanum || c == '_' || c == '-'

/-- The name of an anchor and the cursor behind it. -/
def anchorName? (c : Cursor) : Option (List Char × Cursor) :=
  let name := c.rest.takeWhile isAnchorChar
  let c := c.drop name.length
  let ends := endsWord c.rest || c.rest.head?.any ("?:,]\x7d%@".toList.contains ·)
  if name.isEmpty || !ends then none else some (name, c)

/-- What stands before an entry: an anchor for it, and whether it is marked as a text. -/
structure Properties where
  anchor : Option (List Char)
  marked : Bool

/-- The properties at the cursor, whether a new entry could start behind them, and the cursor. -/
def properties? (inBrackets : Bool) : (fuel : Nat) → Properties → (fresh : Bool) → Cursor →
    Option (Properties × Bool × Cursor)
  | 0, _, _, _ => none
  | fuel + 1, p, fresh, c =>
    let behind (c : Cursor) : Bool × Cursor :=
      if inBrackets then (false, c.toFlowToken) else c.toToken false
    match c.rest with
    | '&' :: _ =>
      if p.anchor.isSome then none
      else do
        let (name, c) ← anchorName? (c.drop 1)
        let (fresh, c) := behind c
        properties? inBrackets fuel { p with anchor := some name } fresh c
    | '!' :: rest =>
      if p.marked then none
      else
        let (fresh, c) := behind (c.drop (1 + (rest.takeWhile (!isGap ·)).length))
        properties? inBrackets fuel { p with marked := true } fresh c
    | _ => some (p, fresh, c)

/-- No properties. -/
def Properties.none : Properties := ⟨.none, false⟩

/-- There is a property. -/
def Properties.any (p : Properties) : Bool :=
  p.anchor.isSome || p.marked

/-- The scalar as it is marked. -/
def Properties.mark (p : Properties) (s : Scalar) : Scalar :=
  { s with quoted := s.quoted || p.marked }

/-- Remember an entry under its anchor. -/
def Properties.remember (p : Properties) (s : Setting) (as : Anchors) : Anchors :=
  match p.anchor with
  | some name => (name, s) :: as
  | .none => as

/-- The entry that an alias stands for, and the cursor behind it. -/
def alias? (as : Anchors) (c : Cursor) : Option (Setting × Cursor) := do
  let (name, c) ← anchorName? (c.drop 1)
  return (← as.lookup name, c)

/-- A scalar inside brackets with its properties, or an alias of one. A scalar may be missing behind
properties only. -/
def flowScalar? (as : Anchors) (indent : Nat) (c : Cursor) : Option (Scalar × Anchors × Cursor) := do
  let (p, _, c) ← properties? true 3 .none false c
  match c.rest with
  | '*' :: _ =>
    if p.any then .none
    else
      match ← alias? as c with
      | (.scalar s, c) => return (s, as, c)
      | _ => .none
  | rest =>
    if p.any && rest.head?.any (flowIndicators.contains ·) then
      let s := p.mark .missing
      return (s, p.remember (.scalar s) as, c)
    let (s, _, c) ← scalar? true indent c
    let s := p.mark s
    return (s, p.remember (.scalar s) as, c)

/-- The items of a list behind its opening bracket. -/
def flowItems? (indent : Nat) : (fuel : Nat) → Anchors → List Scalar → Cursor →
    Option (List Scalar × Anchors × Cursor)
  | 0, _, _, _ => .none
  | fuel + 1, as, items, c => do
    let c := c.toFlowToken
    if c.rest.head? == some ']' then return (items.reverse, as, c.drop 1)
    let (s, as, c) ← flowScalar? as indent c
    let c := c.toFlowToken
    match c.rest with
    | ',' :: _ => flowItems? indent fuel as (s :: items) (c.drop 1)
    | ']' :: _ => return ((s :: items).reverse, as, c.drop 1)
    | _ => .none

/-- The value of an entry between braces: nothing, a list, or a scalar. -/
def flowValue? (as : Anchors) (indent : Nat) (c : Cursor) : Option (Setting × Anchors × Cursor) := do
  if c.rest.head? == some ',' || c.rest.head? == some '}' then
    return (.scalar .missing, as, c)
  let (p, _, after) ← properties? true 3 .none false c
  match after.rest with
  | '[' :: _ =>
    let (items, as, c) ← flowItems? indent (after.rest.length + 1) as [] (after.drop 1)
    return (.list items, p.remember (.list items) as, c)
  | '*' :: _ =>
    if p.any then .none
    else
      let (s, c) ← alias? as after
      return (s, as, c)
  | _ =>
    let (s, as, c) ← flowScalar? as indent c
    return (.scalar s, as, c)

/-- The entries of a mapping behind its opening brace. -/
def flowEntries? (indent : Nat) : (fuel : Nat) → Anchors → Document → Cursor →
    Option (Document × Cursor)
  | 0, _, _, _ => .none
  | fuel + 1, as, entries, c => do
    let c := c.toFlowToken
    if c.rest.head? == some '}' then return (entries.reverse, c.drop 1)
    let (key, as, c) ← flowScalar? as indent c
    let c := c.toFlowToken
    let (value, as, c) ←
      if c.rest.head? == some ':' then flowValue? as indent (c.drop 1).toFlowToken
      else some (.scalar .missing, as, c)
    let c := c.toFlowToken
    match c.rest with
    | ',' :: _ => flowEntries? indent fuel as ((key, value) :: entries) (c.drop 1)
    | '}' :: _ => return (((key, value) :: entries).reverse, c.drop 1)
    | _ => .none

/-- The key of an entry up to its colon, on one line. -/
def key? (as : Anchors) (indent : Nat) (c : Cursor) : Option (Scalar × Anchors × Cursor) := do
  let (p, fresh, start) ← properties? false 3 .none false c
  if fresh then .none
  let (s, behind) ←
    match start.rest with
    | '*' :: _ =>
      if p.any then .none
      else
        match ← alias? as start with
        | (.scalar s, c) => some (s, c)
        | _ => .none
    | '|' :: _ => .none
    | '>' :: _ => .none
    | _ => (scalar? false indent start).map fun (s, _, c) ↦ (p.mark s, c)
  let passed := start.rest.take (start.rest.length - behind.rest.length)
  let blanks := (behind.rest.takeWhile isBlank).length
  let colon := behind.drop blanks
  if passed.any isBreak || !colon.atIndicator ':' then .none
  else return (s, p.remember (.scalar s) as, colon.drop 1)

/-- The scalar or list at the cursor, in an entry whose lines are indented by at least the given
column; also whether a new entry could start behind it. -/
def content? (as : Anchors) (p : Properties) (indent : Nat) (c : Cursor) :
    Option (Setting × Anchors × Bool × Cursor) :=
  match c.rest with
  | '[' :: _ => do
    let (items, as, c) ← flowItems? indent (c.rest.length + 1) as [] (c.drop 1)
    return (.list items, p.remember (.list items) as, false, c)
  | '*' :: _ =>
    if p.any then .none
    else do
      let (s, c) ← alias? as c
      return (s, as, false, c)
  | _ => do
    let (s, fresh, c) ← scalar? false indent c
    let s := p.mark s
    return (.scalar s, p.remember (.scalar s) as, fresh, c)

/-- The items of a list whose hyphens stand in the given column; items that stand for nothing are
kept. The cursor that is returned stands at the next token. -/
def blockItems? (col : Nat) : (fuel : Nat) → Anchors → List Scalar → Cursor →
    Option (List Scalar × Anchors × Cursor)
  | 0, _, _, _ => .none
  | fuel + 1, as, items, c => do
    let (fresh, start) := (c.drop 1).toToken true
    let newLine := ((c.drop 1).rest.take ((c.drop 1).rest.length - start.rest.length)).any isBreak
    let (s, as, fresh, c) ←
      if start.atEnd || (newLine && start.col ≤ col) then
        some (Scalar.missing, as, fresh, start)
      else do
        let (p, _, behind) ← properties? false 3 .none fresh start
        if p.any && (behind.atEnd || behind.col ≤ col) then
          let s := p.mark .missing
          some (s, p.remember (.scalar s) as, true, behind)
        else
          match ← content? as p (col + 1) behind with
          | (.scalar s, as, fresh, c) => some (s, as, fresh, c)
          | _ => .none
    let (fresh, c) := c.toToken fresh
    if c.atEnd || c.col < col then return ((s :: items).reverse, as, c)
    if !fresh || col < c.col then .none
    if c.atIndicator '-' then blockItems? col fuel as (s :: items) c
    else return ((s :: items).reverse, as, c)

/-- The value of an entry whose key stands in the given column, with the cursor behind the colon. The
cursor that is returned stands at the next token; also whether a new entry could start there. -/
def value? (col : Nat) (as : Anchors) (c : Cursor) : Option (Setting × Anchors × Bool × Cursor) := do
  let (fresh, start) := c.toToken false
  let (p, fresh, start) ← properties? false 3 .none fresh start
  let s := p.mark .missing
  let nothing := (Setting.scalar s, p.remember (.scalar s) as, true, start)
  if start.atEnd then return nothing
  if fresh && start.atIndicator '-' && col ≤ start.col then
    let (items, as, c) ← blockItems? start.col (start.rest.length + 1) as [] start
    if col < start.col && c.col == start.col && !c.atEnd then .none
    return (.list items, p.remember (.list items) as, true, c)
  if fresh && start.col ≤ col then return nothing
  let (s, as, fresh, c) ← content? as p (col + 1) start
  let (fresh, c) := c.toToken fresh
  return (s, as, fresh, c)

/-- A token can start here. -/
def startsToken (c : Cursor) : Bool :=
  !c.rest.head?.any fun ch ↦ ch == '\t' || ch == '@' || ch.toNat == 96 || ch == '%'

/-- The entries of a mapping whose keys stand in the given column. -/
def blockEntries? (col : Nat) : (fuel : Nat) → Anchors → Document → Cursor → Option Document
  | 0, _, _, _ => .none
  | fuel + 1, as, entries, c => do
    let (key, as, c) ← key? as (col + 1) c
    let (value, as, fresh, c) ← value? col as c
    let entries := (key, value) :: entries
    if c.atEnd then return entries.reverse
    if !fresh || col < c.col then .none
    if c.col < col then if startsToken c then return entries.reverse else .none
    blockEntries? col fuel as entries c

/-- The document at the cursor: a mapping, or a scalar that stands for nothing. The flag tells
whether a mapping of one entry a line could start here. -/
def root? (fresh : Bool) (c : Cursor) : Option Document :=
  match c.rest with
  | '{' :: _ =>
    match flowEntries? 0 (c.rest.length + 1) [] [] (c.drop 1) with
    | some (entries, c) =>
      let (_, c) := c.toToken false
      if c.atIndicator ':' || !startsToken c then .none else some entries
    | .none => .none
  | _ =>
    if (key? [] (c.col + 1) c).isSome then
      if fresh then blockEntries? c.col (c.rest.length + 1) [] [] c else .none
    else do
      let (p, _, c) ← properties? false 3 .none fresh c
      let (s, _, c) ← if c.atEnd then some (.missing, true, c) else scalar? false 0 c
      let (_, c) := c.toToken true
      if (p.mark s).isNull && !c.atIndicator ':' && startsToken c then some [] else .none

/-- The settings of the first document of a text. -/
def read? (t : Text) : Option Document := do
  let cs ← Utf8.chars? t
  let cs := if cs.head?.any isOrderMark then cs.tail else cs
  if !cs.all isAllowed then .none
  let (_, c) := (Cursor.mk (unifyBreaks cs) 0).toToken true
  if c.rest.isEmpty then .none
  else if c.atMarker then
    if c.rest.head? == some '-' then
      let (fresh, c) := (c.drop 3).toToken false
      if c.atEnd then some [] else root? fresh c
    else .none
  else root? true c

end Tagfold.Settings
