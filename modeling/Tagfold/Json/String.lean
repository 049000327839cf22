import Tagfold.Text.Utf8

/-!
# JSON strings

Decoding takes a literal with its quotes to the text it denotes, encoding goes the other way. White
space around the literal is skipped, and the word `null` denotes the empty text. A control byte may
not stand before the first backslash; behind a backslash every byte but a quote and a backslash
stands for itself. Two escapes that spell a surrogate pair denote one character, and a surrogate on
its own denotes the replacement character.
-/

namespace Tagfold.Json

/-- Spaces, tabs, line feeds and carriage returns. -/
def isBlank (b : UInt8) : Bool :=
  b == 32 || b == 9 || b == 10 || b == 13

/-- The byte that a one-letter escape stands for. -/
def simpleEscape? (b : UInt8) : Option UInt8 :=
  [(34, 34), (92, 92), (47, 47), (98, 8), (102, 12), (110, 10), (114, 13), (116, 9)].lookup b

/-- The number written with four hexadecimal digits, and the rest. -/
def fourHex? : Text → Option (Nat × Text)
  | a :: b :: c :: d :: rest => do
    let a ← Text.hexValue? a
    let b ← Text.hexValue? b
    let c ← Text.hexValue? c
    let d ← Text.hexValue? d
    return (((a * 16 + b) * 16 + c) * 16 + d, rest)
  | _ => none

/-- The number is a surrogate. -/
def isSurrogate (n : Nat) : Bool :=
  0xD800 ≤ n && n ≤ 0xDFFF

/-- The bytes of one code unit, a surrogate as the replacement character. -/
def unitBytes (n : Nat) : Text :=
  Utf8.encode (if isSurrogate n then Utf8.replacement else Char.ofNat n)

/-- The bytes of a surrogate and the code unit behind it: of one character if they are a pair. -/
def pairBytes (high low : Nat) : Text :=
  if high < 0xDC00 ∧ 0xDC00 ≤ low ∧ low ≤ 0xDFFF then
    Utf8.encode (Char.ofNat (0x10000 + (high - 0xD800) * 0x400 + (low - 0xDC00)))
  else unitBytes high ++ unitBytes low

/-- The bytes of a code unit given by its number, or of it and the unit that is escaped next if it is
a surrogate, and the rest. -/
def unicodeEscape? (t : Text) : Option (Text × Text) := do
  let (high, rest) ← fourHex? t
  if isSurrogate high then
    match rest with
    | 92 :: 117 :: behind =>
      let (low, rest) ← fourHex? behind
      return (pairBytes high low, rest)
    | _ => return (unitBytes high, rest)
  else return (unitBytes high, rest)

/-- The bytes of the escape behind a backslash, and the rest. -/
def escape? : Text → Option (Text × Text)
  | [] => none
  | b :: rest =>
    if b = 117 then unicodeEscape? rest else (simpleEscape? b).map fun x ↦ ([x], rest)

/-- Four digits are taken. -/
theorem length_of_fourHex? {t rest : Text} {n : Nat} (h : fourHex? t = some (n, rest)) :
    rest.length < t.length := by
  unfold fourHex? at h
  split at h
  · simp only [Option.bind_eq_bind, Option.bind_eq_some_iff, Option.pure_def, Option.some.injEq,
      Prod.mk.injEq] at h
    obtain ⟨_, _, _, _, _, _, _, _, _, rfl⟩ := h
    simp only [List.length_cons]
    omega
  · simp at h

/-- An escape by number takes at least one byte. -/
theorem length_of_unicodeEscape? {t rest bytes : Text}
    (h : unicodeEscape? t = some (bytes, rest)) : rest.length < t.length := by
  simp only [unicodeEscape?, Option.bind_eq_bind, Option.bind_eq_some_iff, Prod.exists] at h
  obtain ⟨high, mid, hhigh, h⟩ := h
  have hmid := length_of_fourHex? hhigh
  split at h
  · split at h
    · simp only [Option.bind_eq_some_iff, Prod.exists, Option.pure_def, Option.some.injEq,
        Prod.mk.injEq] at h
      obtain ⟨low, last, hlow, _, rfl⟩ := h
      have := length_of_fourHex? hlow
      simp only [List.length_cons] at hmid
      omega
    · simp only [Option.pure_def, Option.some.injEq, Prod.mk.injEq] at h
      rw [← h.2]
      exact hmid
  · simp only [Option.pure_def, Option.some.injEq, Prod.mk.injEq] at h
    rw [← h.2]
    exact hmid

/-- An escape takes at least one byte. -/
theorem length_of_escape? {t rest bytes : Text} (h : escape? t = some (bytes, rest)) :
    rest.length < t.length := by
  unfold escape? at h
  split at h
  · simp at h
  · next b tail =>
    split at h
    · exact Nat.lt_succ_of_lt (length_of_unicodeEscape? h)
    · simp only [Option.map_eq_some_iff, Prod.mk.injEq] at h
      obtain ⟨_, _, _, rfl⟩ := h
      simp

/-- Read up to the closing quote with escapes: the text, behind the bytes already read in reverse
order, and the rest. -/
def readEscaped (read : Text) : Text → Option (Text × Text)
  | [] => none
  | b :: rest =>
    if b = 34 then some (read.reverse, rest)
    else if b = 92 then
      match _h : escape? rest with
      | none => none
      | some (bytes, rest') => readEscaped (bytes.reverse ++ read) rest'
    else readEscaped (b :: read) rest
termination_by t => t.length
decreasing_by
  · have := length_of_escape? _h
    simp only [List.length_cons]
    omega
  · simp

/-- No control byte stands before the first backslash, quote or end. -/
def startsClean : Text → Bool
  | [] => true
  | b :: rest => b == 34 || b == 92 || (32 ≤ b && startsClean rest)

/-- Only blanks follow, or blanks and a zero byte with anything behind it. -/
def endsClean (t : Text) : Bool :=
  match t.dropWhile isBlank with
  | [] => true
  | b :: _ => b == 0

/-- The text that a literal denotes. -/
def decodeString? (raw : Text) : Option Text :=
  match raw.dropWhile isBlank with
  | 110 :: 117 :: 108 :: 108 :: rest => if endsClean rest then some [] else none
  | 34 :: body =>
    if startsClean body then
      match readEscaped [] body with
      | some (value, rest) => if endsClean rest then some value else none
      | none => none
    else none
  | _ => none

/-- The spelling of a byte in a literal. -/
def encodeByte (b : UInt8) : Text :=
  if b = 34 ∨ b = 92 then [92, b]
  else if b = 10 then utf8 "\\n"
  else if b = 13 then utf8 "\\r"
  else if b = 9 then utf8 "\\t"
  else if b < 32 then utf8 "\\u" ++ Text.hex 4 b.toNat
  else [b]

/-- The literal of a text, with its quotes. -/
def encodeString (t : Text) : Text :=
  34 :: (t.flatMap encodeByte ++ [34])

end Tagfold.Json
