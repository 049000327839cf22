import Mathlib.Algebra.Order.Field.Rat
import Mathlib.Data.Nat.Dist
import Mathlib.Tactic.Linarith
import Tagfold.Proofs.Decimal.Rounding

/-!
# Rounding to nearest

`nearestRank` is defined by a binade and a quotient. Here it is compared with what rounding means:
`Double.Nearest` says of a double and a number that no finite double is nearer to the number, and
that the double is the even one of two equally near ones. `nearest_nearestRank` is the statement to
use. Doubles of the same binade lie on a grid, where a rounded quotient is nearest, and doubles of
lower binades are farther away than the least one of the binade.
-/

namespace Tagfold.Double

section Quotient

variable {n d : Nat}

/-- Multiples are at least one step apart. -/
theorem mul_step_of_ne (d : Nat) {k q : Nat} (h : k ≠ q) :
    k * d + d ≤ q * d ∨ q * d + d ≤ k * d := by
  simp only [← Nat.succ_mul]
  rcases Nat.lt_or_gt_of_ne h with hlt | hlt
  · exact .inl (Nat.mul_le_mul_right d (Nat.succ_le_of_lt hlt))
  · exact .inr (Nat.mul_le_mul_right d (Nat.succ_le_of_lt hlt))

/-- No multiple is nearer than the one that a rounded quotient gives. -/
theorem dist_roundQuotient_le (n : Nat) (hd : 0 < d) (k : Nat) :
    n.dist (roundQuotient n d * d) ≤ n.dist (k * d) := by
  obtain ⟨hupper, hlower⟩ := roundQuotient_close n hd
  by_cases hk : k = roundQuotient n d
  · rw [hk]
  · have hstep := mul_step_of_ne d hk
    unfold Nat.dist
    omega

/-- In the middle between two multiples a quotient is rounded to the even one. -/
theorem roundQuotient_even (hd : 0 < d) (h : 2 * n = 2 * (roundQuotient n d * d) + d ∨
    2 * n + d = 2 * (roundQuotient n d * d)) : roundQuotient n d % 2 = 0 := by
  have hdiv := Nat.div_add_mod n d
  have hmod := Nat.mod_lt n hd
  have hnext : (n / d + 1) * d = d * (n / d) + d := by rw [Nat.succ_mul, Nat.mul_comm]
  have hsame : n / d * d = d * (n / d) := Nat.mul_comm _ _
  unfold roundQuotient at h ⊢
  simp only at h ⊢
  split_ifs at h ⊢ <;> omega

/-- If another multiple is as near, then the rounded quotient is even. -/
theorem roundQuotient_even_of_dist (hd : 0 < d) {k : Nat} (hk : k ≠ roundQuotient n d)
    (h : n.dist (roundQuotient n d * d) = n.dist (k * d)) : roundQuotient n d % 2 = 0 := by
  obtain ⟨hupper, hlower⟩ := roundQuotient_close n hd
  have hstep := mul_step_of_ne d hk
  apply roundQuotient_even hd
  unfold Nat.dist at h
  omega

end Quotient

section Rank

variable {n d : Nat}

/-- The units of a rank by its binade: the mantissa may be that of the binade's upper end. -/
theorem units_binade {s m : Nat} (hlow : s = 0 ∨ 2 ^ 52 ≤ m) (hhigh : m ≤ 2 ^ 53) :
    units (s * binade + m) = m * 2 ^ s := by
  have hbinade : binade = 2 ^ 52 := rfl
  rcases Nat.lt_or_eq_of_le hhigh with hlt | rfl
  · have hshift : (s * binade + m) / binade - 1 = s := by
      rw [hbinade]
      omega
    unfold units
    simp only [hshift, Nat.add_sub_cancel_left]
  · have hshift : (s * binade + 2 ^ 53) / binade - 1 = s + 1 := by
      rw [hbinade]
      omega
    have hrest : s * binade + 2 ^ 53 - (s + 1) * binade = 2 ^ 52 := by
      rw [hbinade]
      omega
    unfold units
    simp only [hshift, hrest]
    rw [Nat.pow_succ]
    ring

/-- The units of any rank are a whole number of steps of a binade, or lie below the binade. -/
theorem units_grid (rank s : Nat) :
    (∃ k, units rank = k * 2 ^ s) ∨ (s ≠ 0 ∧ units rank < 2 ^ 52 * 2 ^ s) := by
  obtain ⟨t, m, -, hunits, hm, -⟩ := exists_mantissa rank
  rcases Nat.lt_or_ge t s with hlt | hge
  · refine .inr ⟨by omega, ?_⟩
    calc units rank = m * 2 ^ t := hunits
      _ < 2 ^ 53 * 2 ^ t := Nat.mul_lt_mul_of_pos_right hm (Nat.two_pow_pos t)
      _ = 2 ^ (53 + t) := (Nat.pow_add 2 53 t).symm
      _ ≤ 2 ^ (52 + s) := Nat.pow_le_pow_right (by omega) (by omega)
      _ = 2 ^ 52 * 2 ^ s := Nat.pow_add 2 52 s
  · refine .inl ⟨m * 2 ^ (t - s), ?_⟩
    rw [hunits, Nat.mul_assoc, ← Nat.pow_add, Nat.sub_add_cancel hge]

/-- The nearest rank lies in the binade of its fraction, up to the upper end. -/
theorem nearestRank_spec (n : Nat) (hd : 0 < d) :
    ∃ s, nearestRank n d = s * binade + roundQuotient (n * unitsInOne) (d * 2 ^ s) ∧
      units (nearestRank n d) = roundQuotient (n * unitsInOne) (d * 2 ^ s) * 2 ^ s ∧
      (s = 0 ∨ 2 ^ 52 * (d * 2 ^ s) ≤ n * unitsInOne) := by
  obtain ⟨s, hlow, hhigh⟩ := exists_binade n hd
  have hrank := nearestRank_eq_of_binade hd hlow hhigh
  have hscale : 0 < d * 2 ^ s := Nat.mul_pos hd (Nat.two_pow_pos s)
  have h52 : 2 ^ (52 + s) * d = 2 ^ 52 * (d * 2 ^ s) := by rw [Nat.pow_add]; ring
  have h53 : 2 ^ (53 + s) * d = 2 ^ 53 * (d * 2 ^ s) := by rw [Nat.pow_add]; ring
  rw [h52] at hlow
  rw [h53] at hhigh
  refine ⟨s, hrank, ?_, hlow⟩
  rw [hrank]
  apply units_binade
  · exact hlow.imp id fun h ↦ le_roundQuotient hscale (by omega)
  · exact roundQuotient_le hscale (by omega)

/-- No rank is nearer to a fraction than its nearest rank, and if one with other units is as near,
then the nearest rank is even. -/
theorem dist_nearestRank (n : Nat) (hd : 0 < d) (rank : Nat) :
    (n * unitsInOne).dist (units (nearestRank n d) * d) ≤
        (n * unitsInOne).dist (units rank * d) ∧
      ((n * unitsInOne).dist (units (nearestRank n d) * d) =
          (n * unitsInOne).dist (units rank * d) →
        units rank ≠ units (nearestRank n d) → nearestRank n d % 2 = 0) := by
  obtain ⟨s, hrank, hunits, hlow⟩ := nearestRank_spec n hd
  have hscale : 0 < d * 2 ^ s := Nat.mul_pos hd (Nat.two_pow_pos s)
  have hmul : ∀ k, k * 2 ^ s * d = k * (d * 2 ^ s) := fun k ↦ by ring
  rw [hunits, hmul]
  rcases units_grid rank s with ⟨k, hk⟩ | ⟨hs, hbelow⟩
  · rw [hk, hmul]
    refine ⟨dist_roundQuotient_le _ hscale k, ?_⟩
    intro hdist hne
    have hquotient : k ≠ roundQuotient (n * unitsInOne) (d * 2 ^ s) := by
      rintro rfl
      exact hne rfl
    have heven := roundQuotient_even_of_dist hscale hquotient hdist
    have hbinade : s * binade = 2 * (s * 2 ^ 51) := by
      show s * (2 * 2 ^ 51) = _
      ring
    rw [hrank, hbinade]
    omega
  · -- The least mantissa of the binade is nearer than anything below it.
    have hleast := dist_roundQuotient_le (n * unitsInOne) hscale (2 ^ 52)
    have hfar : units rank * d < 2 ^ 52 * (d * 2 ^ s) := by
      rw [← hmul]
      exact Nat.mul_lt_mul_of_pos_right hbelow hd
    have hin : 2 ^ 52 * (d * 2 ^ s) ≤ n * unitsInOne := hlow.resolve_left hs
    have hlt : (n * unitsInOne).dist (2 ^ 52 * (d * 2 ^ s)) <
        (n * unitsInOne).dist (units rank * d) := by
      unfold Nat.dist
      omega
    exact ⟨by omega, fun hdist ↦ by omega⟩

end Rank

/-- The number that a rank stands for. -/
def magnitude (rank : Nat) : ℚ :=
  units rank / unitsInOne

/-- The number that a double is, if it is finite. -/
def toRat? : Double → Option ℚ
  | nan => none
  | number negative rank =>
    if rank < infiniteRank then some (if negative then -magnitude rank else magnitude rank)
    else none

/-- The last bit of the mantissa is zero. Binades have an even number of ranks, so that the rank
tells. -/
def IsEven : Double → Prop
  | nan => False
  | number _ rank => rank % 2 = 0

/-- The double is the number rounded to nearest: it is finite, no finite double is nearer to the
number, and if one that is another number is as near, then the double is the even one. -/
def Nearest (d : Double) (x : ℚ) : Prop :=
  ∃ q, d.toRat? = some q ∧ ∀ (other : Double) (r : ℚ), other.toRat? = some r →
    |q - x| ≤ |r - x| ∧ (|q - x| = |r - x| → r ≠ q → d.IsEven)

/-- The distance of two natural numbers among the rational ones. -/
theorem abs_sub_eq_dist (a b : Nat) : |(b : ℚ) - a| = (a.dist b : Nat) := by
  rcases Nat.le_total a b with h | h
  · rw [Nat.dist_eq_sub_of_le h, Nat.cast_sub h, abs_of_nonneg]
    exact sub_nonneg.mpr (Nat.cast_le.mpr h)
  · rw [Nat.dist_eq_sub_of_le_right h, Nat.cast_sub h, abs_sub_comm, abs_of_nonneg]
    exact sub_nonneg.mpr (Nat.cast_le.mpr h)

variable {n d : Nat}

/-- The distance between a rank and a fraction. -/
theorem abs_magnitude_sub (rank n : Nat) (hd : 0 < d) :
    |magnitude rank - n / d| =
      ((n * unitsInOne).dist (units rank * d) : Nat) / ((unitsInOne * d : Nat) : ℚ) := by
  have hunits : (unitsInOne : ℚ) ≠ 0 := Nat.cast_ne_zero.mpr unitsInOne_pos.ne'
  have hden : (d : ℚ) ≠ 0 := Nat.cast_ne_zero.mpr hd.ne'
  have hfraction : magnitude rank - n / d =
      (((units rank * d : Nat) : ℚ) - (n * unitsInOne : Nat)) / (unitsInOne * d : Nat) := by
    rw [magnitude, div_sub_div _ _ hunits hden, Nat.cast_mul, Nat.cast_mul, Nat.cast_mul,
      mul_comm (n : ℚ)]
  rw [hfraction, abs_div, abs_sub_eq_dist, Nat.abs_cast]

/-- A rank stands for no negative number. -/
theorem magnitude_nonneg (rank : Nat) : 0 ≤ magnitude rank :=
  div_nonneg (Nat.cast_nonneg _) (Nat.cast_nonneg _)

/-- Rank zero stands for zero. -/
theorem magnitude_zero : magnitude 0 = 0 := by
  have hunits : units 0 = 0 := rfl
  rw [magnitude, hunits, Nat.cast_zero, zero_div]

/-- No rank stands for a number nearer to a fraction than its nearest rank, and if one that stands
for another number is as near, then the nearest rank is even. -/
theorem abs_magnitude_nearestRank (n : Nat) (hd : 0 < d) (rank : Nat) :
    |magnitude (nearestRank n d) - n / d| ≤ |magnitude rank - n / d| ∧
      (|magnitude (nearestRank n d) - n / d| = |magnitude rank - n / d| →
        magnitude rank ≠ magnitude (nearestRank n d) → nearestRank n d % 2 = 0) := by
  obtain ⟨hle, heven⟩ := dist_nearestRank n hd rank
  have hpos : (0 : ℚ) < (unitsInOne * d : Nat) := Nat.cast_pos.mpr (Nat.mul_pos unitsInOne_pos hd)
  rw [abs_magnitude_sub _ n hd, abs_magnitude_sub _ n hd]
  constructor
  · rw [div_le_div_iff_of_pos_right hpos]
    exact Nat.cast_le.mpr hle
  · intro hdist hne
    rw [div_left_inj' hpos.ne', Nat.cast_inj] at hdist
    refine heven hdist fun hunits ↦ hne ?_
    rw [magnitude, hunits, ← magnitude]

/-- The nearest rank of a fraction, if it is finite, is the fraction rounded to nearest. -/
theorem nearest_nearestRank (hd : 0 < d) (hfinite : nearestRank n d < infiniteRank) :
    Nearest (.number false (nearestRank n d)) (n / d) := by
  have hfraction : (0 : ℚ) ≤ n / d := div_nonneg (Nat.cast_nonneg _) (Nat.cast_nonneg _)
  refine ⟨magnitude (nearestRank n d), by simp [toRat?, hfinite], ?_⟩
  intro other r hr
  cases other with
  | nan => cases hr
  | number negative rank =>
      simp only [toRat?] at hr
      split at hr
      · cases negative with
        | false =>
            cases hr
            exact abs_magnitude_nearestRank n hd rank
        | true =>
            -- A negative number is no nearer than zero, and as near only if it is zero.
            cases hr
            obtain ⟨hle, heven⟩ := abs_magnitude_nearestRank n hd 0
            have hrank := magnitude_nonneg rank
            have hzero : |magnitude 0 - n / d| = n / d := by
              rw [magnitude_zero, zero_sub, abs_neg, abs_of_nonneg hfraction]
            have hfar : |-magnitude rank - n / d| = magnitude rank + n / d := by
              rw [← neg_add', abs_neg, abs_of_nonneg (add_nonneg hrank hfraction)]
            rw [if_pos rfl, hfar]
            refine ⟨by linarith, fun hdist hne ↦ heven (by linarith) fun hsame ↦ hne ?_⟩
            rw [magnitude_zero] at hsame
            linarith
      · cases hr

end Tagfold.Double
