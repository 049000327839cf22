import Tagfold.Settings.Basic
import Tagfold.Settings.Cursor

/-!
# Scalars of a document

A scalar is plain, quoted with single or double quotes, or a block that follows a bar or an angle
bracket. Lines of plain and quoted scalars are folded: a line break becomes a space, and of several
line breaks the first one is dropped. Blocks keep their line breaks or fold them by rules of their
own.
-/

namespace Tagfold.Settings

/-- What a run of blanks and line breaks inside a scalar stands for. -/
def foldGap (run : List Char) : List Char :=
  match run.filter isBreak with
  | [] => run
  | first :: more =>
    if first ≠ '\n' then first :: more
    else if more.isEmpty then [' ']
    else more

/-- Some line behind a break starts with a tab before the given column. -/
def hasEarlyTab (indent : Nat) : (broken : Bool) → (col : Nat) → List Char → Bool
  | _, _, [] => false
  | broken, col, c :: rest =>
    if isBreak c then hasEarlyTab indent true 0 rest
    else (broken && c == '\t' && col < indent) || hasEarlyTab indent broken (col + 1) rest

/-- The characters that no plain scalar starts with. -/
def indicators : List Char :=
  "-?:,[]\x7b\x7d#&*!|>'\"%@".toList ++ [Char.ofNat 96]

/-- The characters that end a plain scalar inside brackets. -/
def flowIndicators : List Char :=
  ",[]\x7b\x7d".toList

/-- A plain scalar starts here. -/
def startsPlain (inBrackets : Bool) : List Char → Bool
  | [] => false
  | c :: rest =>
    (!isGap c && !indicators.contains c) || (c == '-' && !endsWord rest) ||
      (!inBrackets && (c == '?' || c == ':') && !endsWord rest)

/-- The number of characters of the next word of a plain scalar. -/
def wordLength (inBrackets : Bool) : List Char → Nat
  | [] => 0
  | c :: rest =>
    if isGap c || (c == ':' && endsWord rest) ||
        (inBrackets && (flowIndicators.contains c || (c == '?' && endsWord rest))) then 0
    else 1 + wordLength inBrackets rest

/-- The rest of a plain scalar behind a word of it. Words on further lines must not stand before the
given column. -/
def plainTail (inBrackets : Bool) (indent : Nat) :
    (fuel : Nat) → (text : List Char) → Cursor → Option (List Char × Bool × Cursor)
  | 0, _, _ => none
  | fuel + 1, text, c =>
    let run := c.rest.takeWhile isGap
    let next := c.drop run.length
    let fresh := run.any isBreak
    let n := wordLength inBrackets next.rest
    if hasEarlyTab indent false c.col run then none
    else if run.isEmpty || next.atMarker || next.rest.head? == some '#' || n == 0 ||
        (!inBrackets && next.col < indent) then some (text, fresh, next)
    else
      plainTail inBrackets indent fuel (text ++ foldGap run ++ next.rest.take n) (next.drop n)

/-- A plain scalar, whether a new entry could start behind it, and the cursor there. -/
def plain? (inBrackets : Bool) (indent : Nat) (c : Cursor) : Option (Scalar × Bool × Cursor) :=
  if startsPlain inBrackets c.rest then
    let n := max 1 (wordLength inBrackets c.rest)
    (plainTail inBrackets indent (c.rest.length + 1) (c.rest.take n) (c.drop n)).map
      fun (text, fresh, c) ↦ (⟨text, false⟩, fresh, c)
  else none

/-- The rest of a scalar in single quotes. -/
def singleQuoted : (fuel : Nat) → (text : List Char) → Cursor → Option (List Char × Cursor)
  | 0, _, _ => none
  | fuel + 1, text, c =>
    if c.atMarker then none
    else
      match c.rest with
      | [] => none
      | '\'' :: '\'' :: _ => singleQuoted fuel (text ++ ['\'']) (c.drop 2)
      | '\'' :: _ => some (text, c.drop 1)
      | ch :: _ =>
        if isGap ch then
          let run := c.rest.takeWhile isGap
          singleQuoted fuel (text ++ foldGap run) (c.drop run.length)
        else singleQuoted fuel (text ++ [ch]) (c.drop 1)

/-- The code points of the one-letter escapes. -/
def escapes : List (Char × Nat) :=
  [('0', 0), ('a', 7), ('b', 8), ('t', 9), ('\t', 9), ('n', 10), ('v', 11), ('f', 12), ('r', 13),
    ('e', 27), (' ', 32), ('"', 34), ('\'', 39), ('\\', 92), ('N', 0x85), ('_', 0xA0), ('L', 0x2028),
    ('P', 0x2029)]

/-- The number of hexadecimal digits behind an escape letter. -/
def escapeWidths : List (Char × Nat) :=
  [('x', 2), ('u', 4), ('U', 8)]

/-- The character written with exactly the given number of hexadecimal digits. -/
def hexChar? (width : Nat) (cs : List Char) : Option Char := do
  let digits ← (cs.take width).mapM Utf8.hexDigit?
  let code := digits.foldl (fun n d ↦ 16 * n + d) 0
  if digits.length = width ∧ code.isValidChar then some (Char.ofNat code) else none

/-- The character of the escape behind a backslash, and the number of characters it takes. -/
def escapeChar? : List Char → Option (Char × Nat)
  | [] => none
  | c :: rest =>
    match escapes.lookup c, escapeWidths.lookup c with
    | some code, _ => some (Char.ofNat code, 1)
    | none, some width => (hexChar? width rest).map (·, width + 1)
    | none, none => none

/-- The rest of a scalar in double quotes. -/
def doubleQuoted : (fuel : Nat) → (text : List Char) → Cursor → Option (List Char × Cursor)
  | 0, _, _ => none
  | fuel + 1, text, c =>
    if c.atMarker then none
    else
      match c.rest with
      | [] => none
      | '"' :: _ => some (text, c.drop 1)
      | '\\' :: rest =>
        if rest.head?.any isBreak then
          let run := (rest.drop 1).takeWhile isGap
          doubleQuoted fuel (text ++ run.filter isBreak) (c.drop (2 + run.length))
        else
          match escapeChar? rest with
          | some (ch, n) => doubleQuoted fuel (text ++ [ch]) (c.drop (1 + n))
          | none => none
      | ch :: _ =>
        if isGap ch then
          let run := c.rest.takeWhile isGap
          doubleQuoted fuel (text ++ foldGap run) (c.drop run.length)
        else doubleQuoted fuel (text ++ [ch]) (c.drop 1)

/-- What happens to the line breaks at the end of a block. -/
inductive Chomping where
  | strip
  | clip
  | keep
  deriving DecidableEq, Repr

/-- The header of a block: its chomping, an indentation if given, and the number of characters. -/
def blockHeader? (cs : List Char) : Option (Chomping × Option Nat × Nat) :=
  let chomping? : Char → Option Chomping
    | '+' => some .keep
    | '-' => some .strip
    | _ => none
  let digit? (c : Char) : Option Nat := if c.isDigit then some (c.toNat - 48) else none
  let (chomping, indent, n) : Option Chomping × Option Nat × Nat :=
    match cs with
    | a :: b :: _ =>
      match chomping? a, digit? a with
      | some ch, _ => (some ch, digit? b, if (digit? b).isSome then 2 else 1)
      | none, some d => (chomping? b, some d, if (chomping? b).isSome then 2 else 1)
      | none, none => (none, none, 0)
    | [a] =>
      match chomping? a, digit? a with
      | some ch, _ => (some ch, none, 1)
      | none, some d => (none, some d, 1)
      | none, none => (none, none, 0)
    | [] => (none, none, 0)
  let rest := cs.drop n
  let blanks := (rest.takeWhile isBlank).length
  let comment :=
    if (rest.drop blanks).head? == some '#' then
      ((rest.drop blanks).takeWhile (!isBreak ·)).length
    else 0
  let ends :=
    match rest.drop (blanks + comment) with
    | [] => some 0
    | c :: _ => if isBreak c then some 1 else none
  if indent = some 0 then none
  else ends.map fun e ↦ (chomping.getD .clip, indent, n + blanks + comment + e)

/-- Move over the indentation of a block and its empty lines: the breaks of those lines, the largest
column met, and the cursor. Without a known indentation it is zero. -/
def blockBreaks (indent : Nat) : (fuel : Nat) → (breaks : List Char) → (widest : Nat) → Cursor →
    Option (List Char × Nat × Cursor)
  | 0, _, _, _ => none
  | fuel + 1, breaks, widest, c =>
    let spaces := (c.rest.takeWhile (· == ' ')).length
    let c := c.drop (if indent = 0 then spaces else min spaces (indent - c.col))
    let widest := max widest c.col
    match c.rest with
    | [] => some (breaks, widest, c)
    | ch :: _ =>
      if ch == '\t' && (indent = 0 || c.col < indent) then none
      else if isBreak ch then blockBreaks indent fuel (breaks ++ [ch]) widest (c.drop 1)
      else some (breaks, widest, c)

/-- The lines of a block: the text, the last line break, the breaks of empty lines behind it, and the
cursor. -/
def blockLines (literal : Bool) (indent : Nat) : (fuel : Nat) → (text lead trail : List Char) →
    (afterBlank : Bool) → Cursor → Option (List Char × List Char × List Char × Cursor)
  | 0, _, _, _, _, _ => none
  | fuel + 1, text, lead, trail, afterBlank, c =>
    if c.col ≠ indent || c.rest.isEmpty then some (text, lead, trail, c)
    else
      let blank := c.rest.head?.any isBlank
      let joint :=
        if !literal && !afterBlank && !blank && lead == ['\n'] then
          if trail.isEmpty then [' '] else []
        else lead
      let line := c.rest.takeWhile (!isBreak ·)
      let c := c.drop line.length
      let lead := c.rest.take 1
      match blockBreaks indent (c.rest.length + 1) [] 0 (c.drop 1) with
      | none => none
      | some (trail', _, c) =>
        blockLines literal indent fuel (text ++ joint ++ trail ++ line) lead trail' blank c

/-- A block scalar behind its bar or angle bracket, in an entry whose lines are indented by at least
the given column. -/
def block? (literal : Bool) (least : Nat) (c : Cursor) : Option (Scalar × Bool × Cursor) := do
  let (chomping, increment, n) ← blockHeader? c.rest
  let c := c.drop n
  let known := (increment.map (least - 1 + ·)).getD 0
  let (trail, widest, c) ← blockBreaks known (c.rest.length + 1) [] 0 c
  let indent := if known = 0 then max (max widest least) 1 else known
  let (text, lead, trail, c) ← blockLines literal indent (c.rest.length + 1) [] [] trail false c
  let kept :=
    match chomping with
    | .strip => []
    | .clip => lead
    | .keep => lead ++ trail
  return (⟨text ++ kept, true⟩, true, c)

/-- The scalar at the cursor, whether a new entry could start behind it, and the cursor there. -/
def scalar? (inBrackets : Bool) (indent : Nat) (c : Cursor) : Option (Scalar × Bool × Cursor) :=
  let fuel := c.rest.length + 1
  match c.rest with
  | '\'' :: _ => (singleQuoted fuel [] (c.drop 1)).map fun (text, c) ↦ (⟨text, true⟩, false, c)
  | '"' :: _ => (doubleQuoted fuel [] (c.drop 1)).map fun (text, c) ↦ (⟨text, true⟩, false, c)
  | '|' :: _ => if inBrackets then none else block? true indent (c.drop 1)
  | '>' :: _ => if inBrackets then none else block? false indent (c.drop 1)
  | _ => plain? inBrackets indent c

end Tagfold.Settings
