import Mathlib.Data.Nat.Log
import Tagfold.Decimal.Layout
import Tagfold.Proofs.Decimal.Rounding
import Tagfold.Proofs.Text.Numeral

/-!
# Shortest digits read back

Seventeen digits are enough for every double: on the decimal grid with sixteen digits behind the
leading one, the nearest decimal is close enough to be rounded back. So the search never needs the
full expansion, and what it finds has at most seventeen digits: `shortest_spec`.
-/

namespace Tagfold

namespace Double

variable {n d : Nat}

/-- Zero is rounded to rank zero. -/
theorem nearestRank_zero (hd : 0 < d) : nearestRank 0 d = 0 := by
  rw [nearestRank_eq_of_binade (s := 0) hd (.inl rfl)]
  · have := roundQuotient_le (k := 0) (d := d * 2 ^ 0) (by simpa using hd)
      (by simpa using hd : 2 * (0 * unitsInOne) < _)
    omega
  · rw [Nat.zero_mul]
    positivity

/-- Powers of ten with large exponents exceed the units in one. -/
theorem unitsInOne_le_mul {k n : Nat} (hk : 1074 ≤ 3 * k) (hn : 0 < n) :
    unitsInOne ≤ n * 10 ^ k := by
  obtain ⟨j, hj⟩ := Nat.exists_eq_add_of_le hk
  have hdigits : (2 ^ 3) ^ k ≤ 10 ^ k := Nat.pow_le_pow_left (by omega) k
  rw [← Nat.pow_mul, hj, Nat.pow_add] at hdigits
  calc unitsInOne ≤ unitsInOne * 2 ^ j := Nat.le_mul_of_pos_right _ (Nat.two_pow_pos j)
    _ ≤ 10 ^ k := by rwa [unitsInOne]
    _ ≤ n * 10 ^ k := Nat.le_mul_of_pos_left _ hn

/-- A positive rank has units. -/
theorem units_pos {rank : Nat} (h : 0 < rank) : 0 < units rank := by
  obtain ⟨s, m, hrank, hunits, -, hnormal⟩ := exists_mantissa rank
  have hm : 0 < m := by
    rcases hnormal with rfl | hnormal
    · omega
    · omega
  rw [hunits]
  positivity

end Double

namespace Decimal

open Double

/-- The leading exponent is that of the greatest power of ten that is not above the magnitude. -/
theorem leadingExponent_spec {rank : Nat} (h : 0 < rank) :
    ∃ k : Nat, leadingExponent rank = k - 400 ∧
      10 ^ k * unitsInOne ≤ units rank * 10 ^ 400 ∧
      units rank * 10 ^ 400 < 10 ^ (k + 1) * unitsInOne := by
  have hbig : unitsInOne ≤ units rank * 10 ^ 400 := unitsInOne_le_mul (by omega) (units_pos h)
  have hpos : units rank * 10 ^ 400 / unitsInOne ≠ 0 :=
    (Nat.div_pos hbig unitsInOne_pos).ne'
  generalize hvalue : units rank * 10 ^ 400 / unitsInOne = value at hpos
  have hlow := Nat.pow_log_le_self 10 hpos
  have hhigh := Nat.lt_pow_succ_log_self (b := 10) (by omega) value
  refine ⟨Nat.log 10 value, ?_, ?_, ?_⟩
  · rw [leadingExponent, hvalue, Text.length_decimal hlow hhigh]
    omega
  · rw [← Nat.le_div_iff_mul_le unitsInOne_pos, hvalue]
    exact hlow
  · rw [← Nat.div_lt_iff_lt_mul unitsInOne_pos, hvalue]
    exact hhigh

/-- The magnitude in steps of a decimal grid: the grid with `i` digits behind the leading one has
from `10 ^ i` to `10 ^ (i + 1)` of them. -/
theorem grid_bounds {rank k m : Nat} (hlow : 10 ^ k * unitsInOne ≤ units rank * 10 ^ m)
    (hhigh : units rank * 10 ^ m < 10 ^ (k + 1) * unitsInOne) {i : Nat} {e : Int}
    (he : e = k - m - i) :
    10 ^ i * (unitsInOne * 10 ^ e.toNat) ≤ units rank * 10 ^ (-e).toNat ∧
      units rank * 10 ^ (-e).toNat < 10 ^ (i + 1) * (unitsInOne * 10 ^ e.toNat) := by
  have hscale : 10 ^ e.toNat * (10 ^ i * 10 ^ m) = 10 ^ (-e).toNat * 10 ^ k := by
    rw [← Nat.pow_add, ← Nat.pow_add, ← Nat.pow_add]
    congr 1
    omega
  constructor
  · apply Nat.le_of_mul_le_mul_right _ (Nat.pow_pos (by omega) : 0 < 10 ^ m)
    calc 10 ^ i * (unitsInOne * 10 ^ e.toNat) * 10 ^ m
        = unitsInOne * (10 ^ e.toNat * (10 ^ i * 10 ^ m)) := by ring
      _ = 10 ^ k * unitsInOne * 10 ^ (-e).toNat := by rw [hscale]; ring
      _ ≤ units rank * 10 ^ m * 10 ^ (-e).toNat := Nat.mul_le_mul_right _ hlow
      _ = units rank * 10 ^ (-e).toNat * 10 ^ m := by ring
  · apply Nat.lt_of_mul_lt_mul_right (a := 10 ^ m)
    calc units rank * 10 ^ (-e).toNat * 10 ^ m
        = units rank * 10 ^ m * 10 ^ (-e).toNat := by ring
      _ < 10 ^ (k + 1) * unitsInOne * 10 ^ (-e).toNat :=
          Nat.mul_lt_mul_of_pos_right hhigh (Nat.pow_pos (by omega))
      _ = 10 * unitsInOne * (10 ^ (-e).toNat * 10 ^ k) := by rw [Nat.pow_succ]; ring
      _ = 10 ^ (i + 1) * (unitsInOne * 10 ^ e.toNat) * 10 ^ m := by
          rw [← hscale, Nat.pow_succ]
          ring

/-- On a grid with sixteen digits behind the leading one, the nearest decimal reads back. -/
theorem rankOfScaled_roundQuotient {rank : Nat} {e : Int}
    (h : 10 ^ 16 * (unitsInOne * 10 ^ e.toNat) ≤ units rank * 10 ^ (-e).toNat) :
    rankOfScaled (roundQuotient (units rank * 10 ^ (-e).toNat) (unitsInOne * 10 ^ e.toNat)) e =
      rank := by
  have hstep : 0 < unitsInOne * 10 ^ e.toNat :=
    Nat.mul_pos unitsInOne_pos (Nat.pow_pos (by omega))
  obtain ⟨hupper, hlower⟩ := roundQuotient_close (units rank * 10 ^ (-e).toNat) hstep
  have hunits : roundQuotient (units rank * 10 ^ (-e).toNat) (unitsInOne * 10 ^ e.toNat) *
      10 ^ e.toNat * unitsInOne =
        roundQuotient (units rank * 10 ^ (-e).toNat) (unitsInOne * 10 ^ e.toNat) *
          (unitsInOne * 10 ^ e.toNat) := by ring
  -- The error is at most half a step, and two steps times `10 ^ 16` exceed `2 ^ 54` steps.
  apply nearestRank_of_close (Nat.pow_pos (by omega))
  · rw [hunits]
    omega
  · rw [hunits]
    omega

/-- The nearest decimal is found on a grid where it reads back. -/
theorem onGrid?_of_rankOfScaled {rank : Nat} {e : Int}
    (h : rankOfScaled (roundQuotient (units rank * 10 ^ (-e).toNat) (unitsInOne * 10 ^ e.toNat)) e =
      rank) :
    onGrid? rank e =
      some (roundQuotient (units rank * 10 ^ (-e).toNat) (unitsInOne * 10 ^ e.toNat)) := by
  unfold onGrid? scaleDown
  simp only
  exact List.find?_cons_of_pos (by simpa using h)

/-- What is found on a grid reads back, and is at most one step above the magnitude. -/
theorem onGrid?_spec {rank n : Nat} {e : Int} (h : onGrid? rank e = some n) :
    rankOfScaled n e = rank ∧
      n ≤ units rank * 10 ^ (-e).toNat / (unitsInOne * 10 ^ e.toNat) + 1 := by
  unfold onGrid? scaleDown at h
  simp only at h
  generalize units rank * 10 ^ (-e).toNat = x at h ⊢
  generalize unitsInOne * 10 ^ e.toNat = y at h ⊢
  have hfound := List.find?_some h
  refine ⟨by simpa using hfound, ?_⟩
  have hmem := List.mem_of_find?_eq_some h
  have hcases := roundQuotient_cases x y
  simp only [List.mem_cons, List.not_mem_nil, or_false] at hmem
  rcases hmem with rfl | rfl
  · omega
  · split_ifs <;> omega

/-- The shortest decimal of a positive rank reads back, and has at most seventeen digits. -/
theorem shortest_spec {rank : Nat} (h : 0 < rank) :
    ∃ n e, shortest rank = ofScaled n e ∧ rankOfScaled n e = rank ∧ n ≤ 10 ^ 17 := by
  obtain ⟨k, hlead, hlow, hhigh⟩ := leadingExponent_spec h
  have hgrid : ∀ i : Nat, _ ∧ _ := fun i ↦
    grid_bounds hlow hhigh (show leadingExponent rank - i = k - (400 : Nat) - i by rw [hlead]; rfl)
  -- The search ends at sixteen digits behind the leading one, if not before.
  obtain ⟨d, hd⟩ : ∃ d, ((List.range 17).findSome? fun i : Nat ↦
      (onGrid? rank (leadingExponent rank - i)).map fun n ↦
        ofScaled n (leadingExponent rank - i)) = some d := by
    rw [← Option.isSome_iff_exists, List.findSome?_isSome_iff]
    refine ⟨16, by decide, ?_⟩
    rw [onGrid?_of_rankOfScaled (rankOfScaled_roundQuotient (hgrid 16).1)]
    rfl
  obtain ⟨i, hi, hfound⟩ := List.exists_of_findSome?_eq_some hd
  obtain ⟨n, hn, rfl⟩ := Option.map_eq_some_iff.mp hfound
  obtain ⟨hrank, hle⟩ := onGrid?_spec hn
  refine ⟨n, leadingExponent rank - i, ?_, hrank, ?_⟩
  · simp only [shortest, hd, Option.getD_some]
  · have hstep := (Nat.div_lt_iff_lt_mul (Nat.mul_pos unitsInOne_pos
      (Nat.pow_pos (by omega)))).mpr (hgrid i).2
    have hpow : 10 ^ (i + 1) ≤ 10 ^ 17 :=
      Nat.pow_le_pow_right (by omega) (by have := List.mem_range.mp hi; omega)
    omega

end Decimal

end Tagfold
