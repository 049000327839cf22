import Mathlib.Data.List.TakeWhile
import Tagfold.Proofs.Decimal.Shortest
import Tagfold.Proofs.Json.Printing

/-!
# Printed numbers

An integer is printed as the numeral of its number. A decimal is printed as two numerals around a
point, whatever its exponent is, and these are read back as the same double: `exists_decimal`.
-/

namespace Tagfold.Json

open Text Double

/-- The numeral of a number in the range of doubles. -/
def Numeral.ofNat (n : Nat) (h : n < overflowBound) : Numeral where
  text := Text.decimal n
  isNumeral := Number.isNumeral_iff.mpr ⟨decimal_ne_nil n, digits_decimal n⟩
  inRange := by rwa [digitsValue_decimal]

/-- A run of digits without the zeros at its end, and how many these are. -/
theorem exists_trimmed {t : Text} (hpos : 0 < digitsValue t) :
    ∃ j, t = (t.reverse.dropWhile (· == 48)).reverse ++ List.replicate j 48 ∧
      (t.reverse.dropWhile (· == 48)).reverse ≠ [] := by
  have hzeros : t.reverse.takeWhile (· == 48) =
      List.replicate (t.reverse.takeWhile (· == 48)).length 48 := by
    refine List.eq_replicate_iff.mpr ⟨rfl, fun b hb ↦ ?_⟩
    simpa using List.mem_takeWhile_imp hb
  have hsplit : t = (t.reverse.dropWhile (· == 48)).reverse ++
      List.replicate (t.reverse.takeWhile (· == 48)).length 48 := by
    rw [← List.reverse_replicate, ← hzeros, ← List.reverse_append,
      List.takeWhile_append_dropWhile, List.reverse_reverse]
  refine ⟨_, hsplit, fun hnil ↦ ?_⟩
  rw [hnil, List.nil_append] at hsplit
  rw [hsplit, digitsValue_replicate_zero] at hpos
  exact Nat.lt_irrefl 0 hpos

/-- The text, with a fraction added if it has no point, is a whole part and a fraction around a
point that denote `n` times a power of ten, and the fraction is at most `n`. -/
structure Around (n : Nat) (e : Int) (t a b : Text) : Prop where
  text : (if t.contains 46 then t else t ++ utf8 ".0") = a ++ utf8 "." ++ b
  whole : Digits a ∧ a ≠ []
  fraction : Digits b ∧ b ≠ []
  value : digitsValue (a ++ b) * 10 ^ (-e).toNat = n * 10 ^ e.toNat * 10 ^ b.length
  le : digitsValue b ≤ n

/-- A zero is a run of digits. -/
theorem digits_zero : Digits (utf8 "0") ∧ utf8 "0" ≠ [] :=
  ⟨digits_replicate_zero 1, List.cons_ne_nil _ _⟩

section Positional

variable {t : Text} {j : Nat} {e : Int}

/-- The exponents that make a number a fraction with the given number of digits. -/
theorem scale_eq {k : Nat} (h : (k : Int) = -(j + e)) (n : Nat) :
    n * 10 ^ (-e).toNat = n * 10 ^ j * 10 ^ e.toNat * 10 ^ k := by
  have hpow : 10 ^ (-e).toNat = 10 ^ j * 10 ^ e.toNat * 10 ^ k := by
    rw [← Nat.pow_add, ← Nat.pow_add]
    congr 1
    omega
  rw [hpow, ← Nat.mul_assoc, ← Nat.mul_assoc]

/-- A decimal below one is a zero before the point, and all digits behind it. -/
theorem around_below (ht : Digits t) (hne : t ≠ []) {k : Nat}
    (hk : (k : Int) = -(t.length + j + e)) :
    Around (digitsValue t * 10 ^ j) e (utf8 "0." ++ Layout.zeros k ++ t) (utf8 "0")
      (Layout.zeros k ++ t) := by
  have hzeros : digitsValue (Layout.zeros k ++ t) = digitsValue t := by
    rw [digitsValue_append, Layout.zeros, digitsValue_replicate_zero, Nat.zero_mul, Nat.zero_add]
  refine ⟨rfl, digits_zero, ⟨(digits_replicate_zero k).append ht, by simp [hne]⟩, ?_, ?_⟩
  · have hone : digitsValue (utf8 "0") = 0 := rfl
    rw [digitsValue_append, hone, Nat.zero_mul, Nat.zero_add, hzeros]
    apply scale_eq
    simp only [Layout.zeros, List.length_append, List.length_replicate]
    omega
  · rw [hzeros]
    exact Nat.le_mul_of_pos_right _ (Nat.pow_pos (by omega))

/-- A whole number gets a zero behind the point. -/
theorem around_whole (ht : Digits t) (hne : t ≠ []) {k : Nat} (hk : (k : Int) = j + e) :
    Around (digitsValue t * 10 ^ j) e (t ++ Layout.zeros k) (t ++ Layout.zeros k) (utf8 "0") := by
  have hdigits : Digits (t ++ Layout.zeros k) := ht.append (digits_replicate_zero k)
  have hpoint : ¬ (t ++ Layout.zeros k).contains 46 = true := by
    rw [List.contains_iff_mem]
    intro hmem
    cases hdigits 46 hmem
  refine ⟨?_, ⟨hdigits, by simp [hne]⟩, digits_zero, ?_, Nat.zero_le _⟩
  · rw [if_neg hpoint, List.append_assoc _ (utf8 ".")]
    rfl
  · have hzero : digitsValue (utf8 "0") = 0 := rfl
    have hpow : 10 ^ k * 10 ^ (-e).toNat = 10 ^ j * 10 ^ e.toNat := by
      rw [← Nat.pow_add, ← Nat.pow_add]
      congr 1
      omega
    rw [digitsValue_append, digitsValue_append, hzero, Layout.zeros, digitsValue_replicate_zero,
      List.length_replicate, Nat.add_zero, Nat.add_zero, Nat.mul_right_comm,
      Nat.mul_assoc _ (10 ^ k), hpow, Nat.mul_assoc _ (10 ^ j)]

/-- Digits are cut at their point. -/
theorem around_between (ht : Digits t) {k : Nat} (hpos : 0 < k) (hlt : k < t.length)
    (hk : (k : Int) = t.length + j + e) :
    Around (digitsValue t * 10 ^ j) e (t.take k ++ utf8 "." ++ t.drop k) (t.take k) (t.drop k) := by
  have hsplit := List.take_append_drop k t
  refine ⟨?_, ⟨fun b hb ↦ ht b (List.mem_of_mem_take hb), ?_⟩,
    ⟨fun b hb ↦ ht b (List.mem_of_mem_drop hb), ?_⟩, ?_, ?_⟩
  · rw [if_pos]
    rw [List.contains_iff_mem]
    exact List.mem_append_left _ (List.mem_append_right _ (by decide))
  · apply List.ne_nil_of_length_pos
    rw [List.length_take]
    omega
  · apply List.ne_nil_of_length_pos
    rw [List.length_drop]
    omega
  · rw [hsplit]
    apply scale_eq
    rw [List.length_drop]
    omega
  · calc digitsValue (t.drop k) ≤ digitsValue (t.take k ++ t.drop k) := by
          rw [digitsValue_append]
          exact Nat.le_add_left _ _
      _ = digitsValue t := by rw [hsplit]
      _ ≤ digitsValue t * 10 ^ j := Nat.le_mul_of_pos_right _ (Nat.pow_pos (by omega))

/-- The digits of a scaled number, with the zeros at the end left out. -/
theorem exists_ofScaled {n : Nat} (hn : 0 < n) (e : Int) :
    ∃ (t : Text) (j : Nat), Decimal.ofScaled n e = ⟨t, t.length + j + e⟩ ∧ Digits t ∧ t ≠ [] ∧
      digitsValue t * 10 ^ j = n := by
  obtain ⟨j, hsplit, hne⟩ := exists_trimmed (t := Text.decimal n) (by rwa [digitsValue_decimal])
  refine ⟨_, j, ?_, ?_, hne, ?_⟩
  · have hlength := congrArg List.length hsplit
    rw [List.length_append, List.length_replicate] at hlength
    simp only [Decimal.ofScaled, Decimal.mk.injEq, true_and]
    omega
  · intro b hb
    apply digits_decimal n b
    rw [hsplit]
    exact List.mem_append_left _ hb
  · have hvalue := digitsValue_decimal n
    rwa [hsplit, digitsValue_append, digitsValue_replicate_zero, List.length_replicate,
      Nat.add_zero] at hvalue

/-- A scaled number that is written without a power of ten is digits around a point. -/
theorem exists_around {n : Nat} (hn : 0 < n) (e : Int) :
    ∃ a b, Around n e (Layout.positional (Decimal.ofScaled n e)) a b := by
  obtain ⟨t, j, hscaled, ht, hne, rfl⟩ := exists_ofScaled hn e
  rw [hscaled, Layout.positional]
  simp only
  split_ifs with hpoint hwhole
  · exact ⟨_, _, around_below ht hne (by omega)⟩
  · exact ⟨_, _, around_whole ht hne (by omega)⟩
  · exact ⟨_, _, around_between ht (by omega) (by omega) (by omega)⟩

end Positional

/-- Digits around a point that denote a number which is rounded to a finite double are two numerals,
and are read as that double. -/
theorem Around.exists_numerals {n : Nat} {e : Int} {t a b : Text} (h : Around n e t a b)
    (hn : n < overflowBound) (hfinite : Decimal.rankOfScaled n e < infiniteRank) :
    ∃ m k : Numeral, (if t.contains 46 then t else t ++ utf8 ".0") = m.text ++ utf8 "." ++ k.text ∧
      m.withFraction k = .number false (Decimal.rankOfScaled n e) := by
  have hpow : ∀ k, 0 < 10 ^ k := fun k ↦ Nat.pow_pos (by omega)
  have hrank : nearestRank (digitsValue (a ++ b)) (10 ^ b.length) = Decimal.rankOfScaled n e :=
    nearestRank_congr (hpow _) (hpow _) h.value
  have hwhole : digitsValue a < overflowBound := by
    have hbound := (nearestRank_lt_infiniteRank_iff (hpow _)).mp (hrank ▸ hfinite)
    rw [digitsValue_append] at hbound
    exact Nat.lt_of_mul_lt_mul_right (lt_of_le_of_lt (Nat.le_add_right _ _) hbound)
  refine ⟨⟨a, Number.isNumeral_iff.mpr ⟨h.whole.2, h.whole.1⟩, hwhole⟩,
    ⟨b, Number.isNumeral_iff.mpr ⟨h.fraction.2, h.fraction.1⟩, lt_of_le_of_lt h.le hn⟩,
    h.text, ?_⟩
  rw [Numeral.withFraction, hrank]

/-- A finite double is printed as two numerals around a point, which are read as that double. -/
theorem exists_decimal {rank : Nat} (h : rank < infiniteRank) :
    ∃ a b : Numeral, decimalText (.number false rank) = a.text ++ utf8 "." ++ b.text ∧
      a.withFraction b = .number false rank := by
  by_cases hzero : rank = 0
  · subst hzero
    let zero : Numeral := ⟨utf8 "0", rfl, by decide +kernel⟩
    refine ⟨zero, zero, rfl, ?_⟩
    rw [Numeral.withFraction]
    exact congrArg (Double.number false) (nearestRank_zero (by decide))
  · obtain ⟨n, e, hshortest, hrank, hn⟩ := Decimal.shortest_spec (Nat.pos_of_ne_zero hzero)
    have hpos : 0 < n := by
      rcases Nat.eq_zero_or_pos n with rfl | hpos
      · rw [Decimal.rankOfScaled, Nat.zero_mul, nearestRank_zero (Nat.pow_pos (by omega))] at hrank
        exact absurd hrank.symm hzero
      · exact hpos
    have hrange : n < overflowBound := by
      have := two_pow_hundred_le_overflowBound
      omega
    obtain ⟨a, b, haround⟩ := exists_around hpos e
    have hrender : Layout.plain.render (.number false rank) =
        Layout.positional (Decimal.ofScaled n e) := by
      simp only [Layout.render, Layout.plain, if_neg (Nat.not_le.mpr h), if_neg hzero, hshortest,
        if_true, Bool.false_eq_true, if_false, List.nil_append]
    obtain ⟨m, k, htext, hvalue⟩ := haround.exists_numerals hrange (hrank ▸ h)
    refine ⟨m, k, ?_, hvalue.trans (by rw [hrank])⟩
    rw [decimalText, hrender]
    exact htext

end Tagfold.Json
