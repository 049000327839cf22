import Tagfold.Decimal.Literal
import Tagfold.Proofs.Decimal.Rounding
import Tagfold.Proofs.Text.Numeral

/-!
# Reading runs of digits

A run of digits, and two runs of digits around a point, are read as the double nearest to the number
they denote, and they are out of range exactly from the overflow bound on: `readDouble_digits` and
`readDouble_point`. Since a fraction adds less than one to a whole number, a number with a fraction
is in range as soon as its whole part is. So below the bound a numeral has a value
(`Number.integer_of_lt`), and from the bound on it has none (`Number.exists_integer_eq_error`).
-/

namespace Tagfold.Literal

open Text Double

/-- The value of a digit among the digits of base ten. -/
theorem digitIn?_ten {b : UInt8} (h : isDigit b = true) : digitIn? 10 b = some (digitValue b) := by
  have hlt := digitValue_lt h
  have hhex : hexValue? b = some (b.toNat - 48) := by
    unfold hexValue?
    rw [if_pos (by simpa [isDigit] using h)]
  simp only [digitValue] at hlt ⊢
  simp [digitIn?, hhex, Option.filter, hlt]

/-- A digit is neither an underscore nor a point. -/
theorem digit_ne_mark {b : UInt8} (h : isDigit b = true) : b ≠ 95 ∧ b ≠ 46 := by
  have := isDigit_iff.mp h
  constructor <;> rintro rfl <;> simp at this

/-- The mantissa behind a run of digits. -/
def Mantissa.push (m : Mantissa) (t : Text) : Mantissa where
  value := m.value * 10 ^ t.length + digitsValue t
  places := if m.point then m.places + t.length else m.places
  point := m.point
  digits := m.digits || !t.isEmpty

/-- Digits are taken into the mantissa. -/
theorem readMantissa_digits {t : Text} (ht : Digits t) (m : Mantissa) (rest : Text) :
    readMantissa 10 m (t ++ rest) = readMantissa 10 (m.push t) rest := by
  induction t generalizing m with
  | nil => simp [Mantissa.push, digitsValue]
  | cons b t ih =>
      have hb := ht b List.mem_cons_self
      obtain ⟨hunderscore, hpoint⟩ := digit_ne_mark hb
      rw [List.cons_append, readMantissa, if_neg hunderscore, if_neg hpoint, digitIn?_ten hb]
      dsimp only
      rw [ih fun a ha ↦ ht a (List.mem_cons_of_mem _ ha)]
      congr 1
      simp only [Mantissa.push, digitsValue_cons, List.length_cons, List.isEmpty_cons,
        Bool.not_false, Bool.or_true, Bool.true_or, Mantissa.mk.injEq, and_true]
      refine ⟨by rw [Nat.pow_succ]; ring, ?_⟩
      split <;> omega

section FirstDigit

variable {b : UInt8} (hb : isDigit b = true)

include hb

/-- Digits have no case. -/
theorem lower_of_isDigit : lower b = b := by
  have hbyte := isDigit_iff.mp hb
  unfold lower
  rw [if_neg]
  simp only [Bool.and_eq_true, decide_eq_true_eq, UInt8.le_iff_toNat_le, UInt8.toNat_ofNat]
  omega

/-- A text that starts with a digit has no sign. -/
theorem splitSign_of_isDigit (t : Text) : splitSign (b :: t) = (false, b :: t) := by
  have hbyte := isDigit_iff.mp hb
  unfold splitSign
  split
  · next h => cases h; simp at hbyte
  · next h => cases h; simp at hbyte
  · rfl

/-- A text that starts with a digit names no value. -/
theorem special?_of_isDigit (t : Text) : special? (b :: t) = none := by
  have hname : ∀ x xs, isDigit x = false → (b :: t).map lower ≠ x :: xs := by
    intro x xs hx h
    rw [List.map_cons, lower_of_isDigit hb] at h
    rw [(List.cons.inj h).1, hx] at hb
    cases hb
  have hnan : (b :: t).map lower ≠ utf8 "nan" := hname 110 [97, 110] (by decide)
  have hinf : (b :: t).map lower ≠ utf8 "inf" := hname 105 [110, 102] (by decide)
  have hinfinity : (b :: t).map lower ≠ utf8 "infinity" :=
    hname 105 [110, 102, 105, 110, 105, 116, 121] (by decide)
  unfold special?
  simp only [splitSign_of_isDigit hb]
  rw [if_neg hnan, if_neg (not_or.mpr ⟨hinf, hinfinity⟩)]

end FirstDigit

/-- A text with only digits and points behind its first byte has no hexadecimal mark. -/
theorem hexBody?_eq_none {b : UInt8} {t : Text} (ht : ∀ x ∈ t, isDigit x = true ∨ x = 46) :
    hexBody? (b :: t) = none := by
  unfold hexBody?
  split
  · next x c rest h =>
      have hx : isDigit x = true ∨ x = 46 := ht x (by rw [(List.cons.inj h).2]; simp)
      rw [if_neg]
      rcases hx with hx | rfl
      · rw [lower_of_isDigit hx]
        rintro rfl
        cases hx
      · decide
  · rfl

/-- A text of digits and points that starts with a digit is read as it stands: it has no sign, no
hexadecimal mark, no exponent and no underscores, and it is no name. -/
theorem readDouble_of_readMantissa {b : UInt8} {t : Text} {m : Mantissa} (hb : isDigit b = true)
    (ht : ∀ x ∈ t, isDigit x = true ∨ x = 46) (hm : readMantissa 10 {} (b :: t) = (m, []))
    (hdigits : m.digits = true) : readDouble (b :: t) = rounded false m 10 10 0 := by
  have hclean : (b :: t).contains 95 = false := by
    rw [List.contains_eq_mem, decide_eq_false_iff_not]
    intro h
    rcases List.mem_cons.mp h with h | h
    · exact (digit_ne_mark hb).1 h.symm
    · rcases ht 95 h with h | h
      · exact absurd h (by decide)
      · exact absurd h (by decide)
  unfold readDouble
  simp only [special?_of_isDigit hb, splitSign_of_isDigit hb, hexBody?_eq_none ht,
    Option.isSome_none, Bool.false_eq_true, if_false, Option.getD_none, hm, hdigits, hclean,
    Bool.not_false, Bool.true_or, Bool.and_self, if_true]

/-- A run of digits is read as the double nearest to its value. -/
theorem readDouble_digits {t : Text} (ht : Digits t) (hne : t ≠ []) :
    readDouble t =
      if digitsValue t < overflowBound then .ok (.number false (nearestRank (digitsValue t) 1))
      else .error .outOfRange := by
  obtain ⟨b, rest, rfl⟩ := List.exists_cons_of_ne_nil hne
  have hm : readMantissa 10 {} (b :: rest) = (Mantissa.push {} (b :: rest), []) := by
    have h := readMantissa_digits ht {} []
    rwa [List.append_nil] at h
  rw [readDouble_of_readMantissa (ht b List.mem_cons_self)
    (fun x hx ↦ .inl (ht x (List.mem_cons_of_mem _ hx))) hm (by simp [Mantissa.push])]
  have hiff := nearestRank_lt_infiniteRank_iff (n := digitsValue (b :: rest)) Nat.one_pos
  rw [Nat.mul_one] at hiff
  simp [rounded, Mantissa.push, hiff]

/-- Two runs of digits around a point are read as the double nearest to the number they denote. -/
theorem readDouble_point {a b : Text} (ha : Digits a) (hne : a ≠ []) (hb : Digits b) :
    readDouble (a ++ utf8 "." ++ b) =
      if digitsValue (a ++ b) < overflowBound * 10 ^ b.length then
        .ok (.number false (nearestRank (digitsValue (a ++ b)) (10 ^ b.length)))
      else .error .outOfRange := by
  have hpoint : utf8 "." = [46] := rfl
  rw [hpoint, List.append_assoc, List.singleton_append]
  obtain ⟨c, rest, rfl⟩ := List.exists_cons_of_ne_nil hne
  have hm : readMantissa 10 {} (c :: rest ++ 46 :: b) =
      (Mantissa.push { Mantissa.push {} (c :: rest) with point := true } b, []) := by
    rw [readMantissa_digits ha, readMantissa, if_neg (by decide), if_pos rfl]
    have h := readMantissa_digits hb { Mantissa.push {} (c :: rest) with point := true } []
    rw [List.append_nil] at h
    simpa [Mantissa.push, readMantissa] using h
  have hbytes : ∀ x ∈ rest ++ 46 :: b, isDigit x = true ∨ x = 46 := by
    intro x hx
    rcases List.mem_append.mp hx with hx | hx
    · exact .inl (ha x (List.mem_cons_of_mem _ hx))
    · rcases List.mem_cons.mp hx with rfl | hx
      · exact .inr rfl
      · exact .inl (hb x hx)
  rw [List.cons_append] at hm ⊢
  rw [readDouble_of_readMantissa (ha c List.mem_cons_self) hbytes hm (by simp [Mantissa.push])]
  have hiff := nearestRank_lt_infiniteRank_iff (n := digitsValue (c :: rest ++ b))
    (d := 10 ^ b.length) (Nat.pow_pos (by omega))
  rw [digitsValue_append] at hiff ⊢
  simp [rounded, Mantissa.push, hiff]

/-- A fraction does not take a number out of range. -/
theorem digitsValue_append_lt_overflowBound {a b : Text} (hb : Digits b)
    (h : digitsValue a < overflowBound) : digitsValue (a ++ b) < overflowBound * 10 ^ b.length := by
  have hlt := digitsValue_lt hb
  calc digitsValue (a ++ b) = digitsValue a * 10 ^ b.length + digitsValue b :=
        digitsValue_append a b
    _ < (digitsValue a + 1) * 10 ^ b.length := by rw [Nat.succ_mul]; omega
    _ ≤ overflowBound * 10 ^ b.length := Nat.mul_le_mul_right _ h

end Tagfold.Literal

namespace Tagfold.Number

open Text Double

variable {t : Text}

/-- A numeral is a run of digits that is not empty. -/
theorem isNumeral_iff : isNumeral t = true ↔ t ≠ [] ∧ Digits t := by
  simp [isNumeral, Digits]

/-- A numeral in the range of doubles is a 64-bit integer if it fits, and the nearest double
otherwise. -/
theorem integer_of_lt (ht : isNumeral t = true) (h : digitsValue t < overflowBound) :
    integer t = .ok (if digitsValue t < 2 ^ 63 then .int (Int64.ofNat (digitsValue t))
      else .double (.number false (nearestRank (digitsValue t) 1))) := by
  obtain ⟨hne, hdigits⟩ := isNumeral_iff.mp ht
  have hread : Literal.readDouble t = .ok (.number false (nearestRank (digitsValue t) 1)) := by
    rw [Literal.readDouble_digits hdigits hne, if_pos h]
  by_cases hsmall : digitsValue t < 2 ^ 63
  · simp only [integer, if_pos hsmall]
  · simp only [integer, if_neg hsmall, double, hread]
    rfl

/-- From the overflow bound on, a numeral has no value. -/
theorem exists_integer_eq_error (ht : isNumeral t = true) (h : overflowBound ≤ digitsValue t) :
    ∃ i, integer t = .error i := by
  obtain ⟨hne, hdigits⟩ := isNumeral_iff.mp ht
  have hbig : ¬ digitsValue t < 2 ^ 63 := by
    have := two_pow_hundred_le_overflowBound
    omega
  have hread : Literal.readDouble t = .error .outOfRange := by
    rw [Literal.readDouble_digits hdigits hne, if_neg (Nat.not_lt.mpr h)]
  simp only [integer, if_neg hbig, double, hread]
  exact ⟨_, rfl⟩

end Tagfold.Number
