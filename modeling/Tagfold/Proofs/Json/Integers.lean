import Tagfold.Proofs.Decimal.Nearest
import Tagfold.Proofs.Json.Printing
import Tagfold.Proofs.Json.Recognition
import Tagfold.Proofs.Reduction.Classification

/-!
# Integers of any size

A run of digits is a leaf as long as its number is rounded to a finite double. The leaf keeps the
number itself up to 64 bits and only the nearest double beyond, and yet it is always printed
exactly: `Language.classify_digits`. Of a 64-bit integer the value is printed, and of a double the
digits of the token.
-/

namespace Tagfold.Json

open Text Double

/-- The value keeps a number: itself if it fits into 64 bits, and otherwise the nearest double. -/
inductive Keeps (n : Nat) : Value → Prop where
  | int {i : Int64} : n < 2 ^ 63 → i.toInt = n → Keeps n (.int i)
  | double {d : Double} : 2 ^ 63 ≤ n → d.Nearest n → Keeps n (.double d)

/-- A numeral is kept by its value. -/
theorem Numeral.keeps_value (n : Numeral) : Keeps (digitsValue n.text) n.value := by
  by_cases h : digitsValue n.text < 2 ^ 63
  · rw [Numeral.value, if_pos h]
    exact .int h (Int64.toInt_ofNat_of_lt h)
  · have hfinite : nearestRank (digitsValue n.text) 1 < infiniteRank := by
      rw [nearestRank_lt_infiniteRank_iff Nat.one_pos, Nat.mul_one]
      exact n.inRange
    have hnearest := nearest_nearestRank Nat.one_pos hfinite
    rw [Nat.cast_one, div_one] at hnearest
    rw [Numeral.value, if_neg h]
    exact .double (Nat.le_of_not_lt h) hnearest

namespace Language

variable {report : Bool} {l : Language} {t : Token}

/-- A run of digits from the overflow bound on is refused as out of range. -/
theorem Built.refuses_digits (hl : l.Built) (hkind : t.kind = .word) (hne : t.text ≠ [])
    (hdigits : Digits t.text) (h : overflowBound ≤ digitsValue t.text) :
    ∃ i, l.grammar.parser.Refuses t (.integerRange t i) := by
  have hnumeral := Number.isNumeral_iff.mpr ⟨hne, hdigits⟩
  obtain ⟨i, hi⟩ := Number.exists_integer_eq_error hnumeral h
  refine ⟨i, fun reg ↦ ?_⟩
  simp only [Parser.classifyToken, hkind, Parser.wordLeaf, hl.isIdentifier, hnumeral, hi,
    Bool.false_eq_true, if_false, if_true]

/-- A word of digits is classified as an integer below the overflow bound, whatever its length and
its leading zeros are, and refused as out of range from the bound on. The integer keeps the spelling
and the number, and it is printed as the numeral of the number. -/
theorem classify_digits (hl : build report = .ok l) (reg : Registry) (hkind : t.kind = .word)
    (hne : t.text ≠ []) (hdigits : Digits t.text) :
    (digitsValue t.text < overflowBound →
      ∃ tag v, l.grammar.parser.classify reg [t] = (.ok [.leaf tag t.pos v t.text], reg) ∧
        tag.name = integerTagName ∧ Keeps (digitsValue t.text) v) ∧
      ((∃ e, (l.grammar.parser.classify reg [t]).1 = .error e ∧
          e.report.code = Kind.integerRange.code) ↔ overflowBound ≤ digitsValue t.text) ∧
      ∀ leaves, (l.grammar.parser.classify reg [t]).1 = .ok leaves →
        ∃ leaf printed, leaves = [leaf] ∧ print leaf = .ok printed ∧
          Canonical (digitsValue t.text) printed := by
  have hbuilt := built_of_build hl
  rcases Nat.lt_or_ge (digitsValue t.text) overflowBound with hrange | hrange
  · let n : Numeral := ⟨t.text, Number.isNumeral_iff.mpr ⟨hne, hdigits⟩, hrange⟩
    have hleaf := hbuilt.classifyToken_numeral (n := n) (t := t) ⟨hkind, rfl⟩ reg
    have hclassify : l.grammar.parser.classify reg [t] =
        (.ok [(Tree.integer t.pos n).expr l.registry], reg) := by
      simp only [Parser.classify, Parser.classifyOnto, hleaf, List.reverse_singleton]
    rw [hclassify]
    refine ⟨fun _ ↦ ⟨_, _, rfl, rfl, n.keeps_value⟩, ?_, ?_⟩
    · simp [Nat.not_le.mpr hrange]
    · intro leaves hleaves
      cases hleaves
      exact ⟨_, _, rfl, (Tree.integer t.pos n).print_expr l.registry, canonical_iff.mpr rfl⟩
  · obtain ⟨i, hrefuses⟩ := hbuilt.refuses_digits hkind hne hdigits hrange
    have hclassify : (l.grammar.parser.classify reg [t]).1 = .error (.integerRange t i) :=
      Parser.classify_eq_error_iff.mpr ⟨[], t, [], rfl, by simp, hrefuses⟩
    refine ⟨fun h ↦ absurd h (Nat.not_lt.mpr hrange), ?_, ?_⟩
    · exact ⟨fun _ ↦ hrange, fun _ ↦ ⟨_, hclassify, rfl⟩⟩
    · intro leaves hleaves
      cases hleaves.symm.trans hclassify

/-- Two leading zeros before the least number that does not fit into 64 bits: the leaf has the
nearest double, and is printed exactly. -/
theorem classify_digits_leading_zeros :
    ∃ l, build true = .ok l ∧ ∃ tag d,
      l.grammar.parser.classify l.registry
          [⟨.word, utf8 "009223372036854775808", utf8 "in", 0, ⟨1, 1⟩⟩] =
        (.ok [.leaf tag ⟨1, 1⟩ (.double d) (utf8 "009223372036854775808")], l.registry) ∧
      d.Nearest (9223372036854775808 : Nat) ∧
      print (.leaf tag ⟨1, 1⟩ (.double d) (utf8 "009223372036854775808")) =
        .ok (utf8 "9223372036854775808") := by
  obtain ⟨l, hl⟩ := exists_build true
  have hvalue : digitsValue (utf8 "009223372036854775808") = 9223372036854775808 := by
    decide +kernel
  obtain ⟨hleaf, -, hprinted⟩ := classify_digits hl l.registry
    (t := ⟨.word, utf8 "009223372036854775808", utf8 "in", 0, ⟨1, 1⟩⟩) rfl (List.cons_ne_nil _ _)
    (List.all_eq_true.mp rfl)
  simp only [hvalue] at hleaf hprinted
  obtain ⟨tag, v, hclassify, -, hkeeps⟩ := hleaf (by decide +kernel)
  cases hkeeps with
  | int hsmall => exact absurd hsmall (by decide)
  | @double d _ hnearest =>
      obtain ⟨leaf, printed, hleaves, hprint, hcanonical⟩ :=
        hprinted _ (congrArg Prod.fst hclassify)
      obtain rfl := List.head_eq_of_cons_eq hleaves
      have hnumeral : Canonical 9223372036854775808 (utf8 "9223372036854775808") :=
        ⟨List.all_eq_true.mp rfl, List.cons_ne_nil _ _, by decide +kernel, by decide⟩
      rw [canonical_iff.mp hcanonical, ← canonical_iff.mp hnumeral] at hprint
      exact ⟨l, hl, tag, d, hclassify, hnearest, hprint⟩

end Language

end Tagfold.Json
