import Tagfold.CharClass.Pattern
import Tagfold.Issue
import Tagfold.Unicode.Script

/-!
# Character classes

A character class is a pattern for a single character, such as `[a-z0-9_]` or `\p{L}`. It is put
between anchors as a text and the whole is read as a pattern, so that a class which closes the group
around it changes what the anchors apply to.

The notation of patterns: literals and escapes, bracketed sets with ranges and named classes, Unicode
properties, groups with flags, alternatives, and repetitions. A repetition may not be repeated
directly, and counts go up to a thousand. A pattern that is not written by these rules has no
reading.

The reader takes one item at a time and keeps the unfinished groups on a stack; every item takes at
least one character, so that the length of the pattern bounds their number.
-/

namespace Tagfold.CharClass

/-- How the following items are read. -/
structure Flags where
  /-- Letters stand for both cases. -/
  ignoreCase : Bool := false
  /-- Line ends count as ends for the assertions `^` and `$`. -/
  multiLine : Bool := false
  /-- A dot also matches a newline. -/
  dotAll : Bool := false
  deriving DecidableEq, Repr

/-- The set itself, or with both cases of its letters. -/
def Flags.apply (f : Flags) (s : CodeSet) : CodeSet :=
  if f.ignoreCase then s.caseless else s

/-- The value of a non-empty run of hexadecimal digits that is a code point. -/
def hexCode? (cs : List Char) : Option Nat := do
  let digits ← cs.mapM Utf8.hexDigit?
  let code := digits.foldl (fun n d ↦ 16 * n + d) 0
  if digits.isEmpty ∨ Unicode.lastCodePoint < code then none else some code

/-- The character is an octal digit. -/
def isOctal (c : Char) : Bool := '0' ≤ c && c ≤ '7'

/-- The value of a run of octal digits. -/
def octalCode (cs : List Char) : Nat :=
  cs.foldl (fun n c ↦ 8 * n + (c.toNat - 48)) 0

/-- The code points of the one-letter escapes. -/
def letterEscapes : List (Char × Nat) :=
  [('a', 7), ('f', 12), ('n', 10), ('r', 13), ('t', 9), ('v', 11)]

/-- The code point of the escape behind a backslash, and the rest. -/
def escape? : List Char → Option (Nat × List Char)
  | [] => none
  | 'x' :: '{' :: rest =>
    match rest.dropWhile (· ≠ '}') with
    | _ :: behind => (hexCode? (rest.takeWhile (· ≠ '}'))).map (·, behind)
    | [] => none
  | 'x' :: a :: b :: rest => (hexCode? [a, b]).map (·, rest)
  | c :: rest =>
    if isOctal c then
      let more := (rest.take 2).takeWhile isOctal
      if c ≠ '0' ∧ more.isEmpty then none
      else some (octalCode (c :: more), rest.drop more.length)
    else
      match letterEscapes.lookup c with
      | some code => some (code, rest)
      | none => if c.toNat < 0x80 ∧ !c.isAlphanum then some (c.toNat, rest) else none

/-- A union of ranges. -/
def ranges (rs : Unicode.Ranges) : CodeSet := rs.contains

/-- The ASCII classes that are named between brackets and colons. -/
def asciiClasses : List (String × Unicode.Ranges) :=
  [("alnum", [(48, 57), (65, 90), (97, 122)]), ("alpha", [(65, 90), (97, 122)]), ("ascii", [(0, 127)]),
    ("blank", [(9, 9), (32, 32)]), ("cntrl", [(0, 31), (127, 127)]), ("digit", [(48, 57)]),
    ("graph", [(33, 126)]), ("lower", [(97, 122)]), ("print", [(32, 126)]),
    ("punct", [(33, 47), (58, 64), (91, 96), (123, 126)]), ("space", [(9, 13), (32, 32)]),
    ("upper", [(65, 90)]), ("word", [(48, 57), (65, 90), (95, 95), (97, 122)]),
    ("xdigit", [(48, 57), (65, 70), (97, 102)])]

/-- The classes of the escapes `\d`, `\s` and `\w`. -/
def letterClasses : List (Char × Unicode.Ranges) :=
  [('d', [(48, 57)]), ('s', [(9, 10), (12, 13), (32, 32)]),
    ('w', [(48, 57), (65, 90), (95, 95), (97, 122)])]

/-- The complement if the flag is set. -/
def negateIf (negate : Bool) (s : CodeSet) : CodeSet :=
  if negate then s.complement else s

/-- The class of a letter behind a backslash; a capital letter negates. -/
def letterClass? (f : Flags) (c : Char) : Option CodeSet :=
  (letterClasses.lookup c.toLower).map fun rs ↦ negateIf c.isUpper (f.apply (ranges rs))

/-- The code points with a Unicode property: a general category, a script, or any at all. -/
def property? (name : String) : Option CodeSet :=
  if name = "Any" then some (CodeSet.range 0 Unicode.lastCodePoint)
  else if Unicode.Category.names.contains name then some (Unicode.Category.belongs name)
  else (Unicode.Script.find? name).map ranges

/-- The class of a property with a given name; a leading caret negates. -/
def namedProperty? (f : Flags) (negate : Bool) (name : List Char) : Option CodeSet :=
  match name with
  | '^' :: name =>
    (property? (String.ofList name)).map fun s ↦ negateIf (!negate) (f.apply s)
  | name => (property? (String.ofList name)).map fun s ↦ negateIf negate (f.apply s)

/-- The class of a property behind `\p` or `\P`, and the rest. -/
def unicodeClass? (f : Flags) (negate : Bool) : List Char → Option (CodeSet × List Char)
  | [] => none
  | '{' :: rest =>
    match rest.dropWhile (· ≠ '}') with
    | _ :: behind => (namedProperty? f negate (rest.takeWhile (· ≠ '}'))).map (·, behind)
    | [] => none
  | c :: rest => (namedProperty? f negate [c]).map (·, rest)

/-- The class behind a backslash if one stands there: `none` if it is not a class, and no class
inside if it is a bad one. -/
def classEscape? (f : Flags) : List Char → Option (Option (CodeSet × List Char))
  | 'p' :: rest => some (unicodeClass? f false rest)
  | 'P' :: rest => some (unicodeClass? f true rest)
  | c :: rest => (letterClass? f c).map fun s ↦ some (s, rest)
  | [] => none

/-- Split at the first colon that a closing bracket follows. -/
def splitColon : List Char → Option (List Char × List Char)
  | ':' :: ']' :: rest => some ([], rest)
  | c :: rest => (splitColon rest).map fun (name, behind) ↦ (c :: name, behind)
  | [] => none

/-- The named ASCII class behind an opening bracket and a colon, if the name is ended. -/
def asciiClass? (f : Flags) (cs : List Char) : Option (Option (CodeSet × List Char)) :=
  (splitColon cs).map fun (name, rest) ↦
    let (negate, name) :=
      match name with
      | '^' :: name => (true, name)
      | name => (false, name)
    (asciiClasses.lookup (String.ofList name)).map fun rs ↦
      (negateIf negate (f.apply (ranges rs)), rest)

/-- One character of a bracketed set, and the rest. -/
def setChar? : List Char → Option (Nat × List Char)
  | [] => none
  | '\\' :: rest => escape? rest
  | c :: rest => some (c.toNat, rest)

/-- A character or a range of a bracketed set, and the rest. -/
def setRange? (f : Flags) (cs : List Char) : Option (CodeSet × List Char) := do
  let (low, rest) ← setChar? cs
  match rest with
  | '-' :: c :: behind =>
    if c = ']' then return (f.apply (CodeSet.range low low), rest)
    let (high, rest) ← setChar? (c :: behind)
    if high < low then none else return (f.apply (CodeSet.range low high), rest)
  | _ => return (f.apply (CodeSet.range low low), rest)

/-- One item of a bracketed set, and the rest. -/
def setItem? (f : Flags) (cs : List Char) : Option (CodeSet × List Char) :=
  let named :=
    match cs with
    | '[' :: ':' :: rest => asciiClass? f rest
    | '\\' :: rest => classEscape? f rest
    | _ => none
  match named with
  | some found => found
  | none => setRange? f cs

/-- The items of a bracketed set up to the closing bracket, which is an item if it comes first. -/
def setItems? (f : Flags) : (fuel : Nat) → (first : Bool) → CodeSet → List Char →
    Option (CodeSet × List Char)
  | 0, _, _, _ => none
  | fuel + 1, first, s, cs =>
    match cs, first with
    | ']' :: rest, false => some (s, rest)
    | _, _ => do
      let (item, rest) ← setItem? f cs
      setItems? f fuel false (s.union item) rest

/-- The set behind an opening bracket, and the rest. -/
def bracketed? (f : Flags) (cs : List Char) : Option (CodeSet × List Char) :=
  let (negate, cs) :=
    match cs with
    | '^' :: cs => (true, cs)
    | cs => (false, cs)
  (setItems? f (cs.length + 1) true (fun _ ↦ false) cs).map fun (s, rest) ↦ (negateIf negate s, rest)

/-- The number at the head, without leading zeros, and the rest. -/
def count? (cs : List Char) : Option (Nat × List Char) :=
  let digits := cs.takeWhile Char.isDigit
  match digits with
  | [] => none
  | '0' :: _ :: _ => none
  | _ => some (digits.foldl (fun n c ↦ 10 * n + (c.toNat - 48)) 0, cs.drop digits.length)

/-- The bounds behind an opening brace up to the closing one, and the rest. -/
def bounds? (cs : List Char) : Option (Nat × Option Nat × List Char) := do
  let (least, rest) ← count? cs
  match rest with
  | '}' :: rest => return (least, some least, rest)
  | ',' :: '}' :: rest => return (least, none, rest)
  | ',' :: rest =>
    match ← count? rest with
    | (most, '}' :: rest) => return (least, some most, rest)
    | _ => none
  | _ => none

/-- A group that is not closed yet: the alternatives and the items before it, newest first, and the
flags to return to. -/
structure Frame where
  alternatives : List Pattern
  items : List Pattern
  flags : Flags

/-- What has been read: the open groups, and the alternatives and items of the innermost one. -/
structure ReadState where
  frames : List Frame
  alternatives : List Pattern
  items : List Pattern
  flags : Flags
  /-- The last item was a repetition. -/
  repeated : Bool

namespace ReadState

/-- Before the first item. -/
def initial : ReadState := ⟨[], [], [], {}, false⟩

/-- Add an item. -/
def push (s : ReadState) (p : Pattern) : ReadState :=
  { s with items := p :: s.items, repeated := false }

/-- Add a literal code point. -/
def literal (s : ReadState) (code : Nat) : ReadState :=
  s.push (.one (s.flags.apply (CodeSet.range code code)))

/-- The items joined. -/
def joined (items : List Pattern) : Pattern :=
  items.foldl (fun p q ↦ .both q p) .empty

/-- Close the current alternative. -/
def alternate (s : ReadState) : ReadState :=
  { s with alternatives := joined s.items :: s.alternatives, items := [], repeated := false }

/-- The pattern of the innermost group. -/
def pattern (s : ReadState) : Pattern :=
  s.alternatives.foldl (fun p q ↦ .either q p) (joined s.items)

/-- Open a group with the given flags inside. -/
def openGroup (s : ReadState) (inside : Flags) : ReadState :=
  ⟨⟨s.alternatives, s.items, s.flags⟩ :: s.frames, [], [], inside, false⟩

/-- Close the innermost group. -/
def closeGroup? (s : ReadState) : Option ReadState :=
  match s.frames with
  | [] => none
  | frame :: frames =>
    some ⟨frames, frame.alternatives, s.pattern :: frame.items, frame.flags, false⟩

/-- Repeat the last item, which must be there and not be a repetition. A question mark behind a
repetition only prefers fewer ones. -/
def repeatLast? (s : ReadState) (least : Nat) (most : Option Nat) (cs : List Char) :
    Option (ReadState × List Char) :=
  let rest :=
    match cs with
    | '?' :: rest => rest
    | rest => rest
  match s.items with
  | [] => none
  | p :: items =>
    let p := Pattern.repeated p least most
    if s.repeated ∨ ¬ p.repeatsWithin 1000 then none
    else some ({ s with items := p :: items, repeated := true }, rest)

end ReadState

/-- The name of a group is made of word characters and is not empty. -/
def isGroupName (cs : List Char) : Bool :=
  !cs.isEmpty && cs.all fun c ↦ isWordCode c.toNat

/-- A named group behind its opening angle bracket. -/
def namedGroup? (s : ReadState) (cs : List Char) : Option (ReadState × List Char) :=
  match cs.dropWhile (· ≠ '>') with
  | _ :: rest => if isGroupName (cs.takeWhile (· ≠ '>')) then some (s.openGroup s.flags, rest) else none
  | [] => none

/-- Set or clear a flag named by a letter; the flag `U` only prefers fewer repetitions. -/
def Flags.set? (f : Flags) (c : Char) (value : Bool) : Option Flags :=
  match c with
  | 'i' => some { f with ignoreCase := value }
  | 'm' => some { f with multiLine := value }
  | 's' => some { f with dotAll := value }
  | 'U' => some f
  | _ => none

/-- Flags behind `(?`, for a new group or for the rest of the current one. -/
def flagGroup? (s : ReadState) (f : Flags) (value seen : Bool) :
    List Char → Option (ReadState × List Char)
  | [] => none
  | ':' :: rest => if value ∨ seen then some (s.openGroup f, rest) else none
  | ')' :: rest => if value ∨ seen then some ({ s with flags := f, repeated := false }, rest) else none
  | '-' :: rest => if value then flagGroup? s f false false rest else none
  | c :: rest => do
    flagGroup? s (← f.set? c value) value true rest

/-- The literal characters behind `\Q`, up to `\E`, and the rest. -/
def quotedRun : List Char → List Char × List Char
  | '\\' :: 'E' :: rest => ([], rest)
  | c :: rest =>
    let (run, behind) := quotedRun rest
    (c :: run, behind)
  | [] => ([], [])

/-- The item behind a backslash. -/
def readEscape? (s : ReadState) (cs : List Char) : Option (ReadState × List Char) :=
  match cs with
  | 'A' :: rest => some (s.push (.check .textStart), rest)
  | 'z' :: rest => some (s.push (.check .textEnd), rest)
  | 'b' :: rest => some (s.push (.check .wordBoundary), rest)
  | 'B' :: rest => some (s.push (.check .noWordBoundary), rest)
  | 'Q' :: rest =>
    let (run, behind) := quotedRun rest
    some (run.foldl (fun s c ↦ s.literal c.toNat) { s with repeated := false }, behind)
  | cs =>
    match classEscape? s.flags cs with
    | some found => found.map fun (set, rest) ↦ (s.push (.one set), rest)
    | none => (escape? cs).map fun (code, rest) ↦ (s.literal code, rest)

/-- Take one item of a pattern. -/
def readItem? (s : ReadState) (c : Char) (cs : List Char) : Option (ReadState × List Char) :=
  match c with
  | '(' =>
    match cs with
    | '?' :: 'P' :: '<' :: rest => namedGroup? s rest
    | '?' :: '<' :: rest => namedGroup? s rest
    | '?' :: rest => flagGroup? s s.flags true false rest
    | rest => some (s.openGroup s.flags, rest)
  | ')' => s.closeGroup?.map (·, cs)
  | '|' => some (s.alternate, cs)
  | '^' => some (s.push (.check (if s.flags.multiLine then .lineStart else .textStart)), cs)
  | '$' => some (s.push (.check (if s.flags.multiLine then .lineEnd else .textEnd)), cs)
  | '.' =>
    let newline := CodeSet.range 10 10
    some (s.push (.one (if s.flags.dotAll then fun _ ↦ true else newline.complement)), cs)
  | '[' => (bracketed? s.flags cs).map fun (set, rest) ↦ (s.push (.one set), rest)
  | '*' => s.repeatLast? 0 none cs
  | '+' => s.repeatLast? 1 none cs
  | '?' => s.repeatLast? 0 (some 1) cs
  | '{' =>
    match bounds? cs with
    | none => some (s.literal c.toNat, cs)
    | some (least, most, rest) =>
      if 1000 < least ∨ most.any (fun m ↦ 1000 < m || m < least) then none
      else s.repeatLast? least most rest
  | '\\' => readEscape? s cs
  | c => some (s.literal c.toNat, cs)

/-- Take all items of a pattern. -/
def readItems? : (fuel : Nat) → ReadState → List Char → Option ReadState
  | _, s, [] => some s
  | 0, _, _ => none
  | fuel + 1, s, c :: cs => do
    let (s, rest) ← readItem? s c cs
    readItems? fuel s rest

/-- The pattern that a text spells. -/
def readPattern? (cs : List Char) : Option Pattern := do
  let s ← readItems? cs.length .initial cs
  if s.frames.isEmpty then some s.pattern else none

/-- The pattern of a class between its anchors. -/
def anchored? (spelling : Text) : Option Pattern := do
  let cs ← Utf8.chars? spelling
  readPattern? ("^(?:".toList ++ cs ++ ")$".toList)

/-- The characters of a class. -/
def compile (spelling : Text) : Except Issue Pattern :=
  match anchored? spelling with
  | some p => .ok p
  | none => .error (.wrapped (utf8 "bad character class " ++ spelling.quoted) .withheld)

/-- The class contains the character with the given number; numbers of no character count as the
replacement character. -/
def containsCode (p : Pattern) (code : Int) : Bool :=
  p.matchesChar (Utf8.ofCode code).toNat

/-- The class contains the character. -/
def containsChar (p : Pattern) (c : Char) : Bool :=
  p.matchesChar c.toNat

end Tagfold.CharClass
