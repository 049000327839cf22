import Mathlib.Tactic.Positivity
import Mathlib.Tactic.Ring
import Tagfold.Decimal.Double

/-!
# Rounding to doubles

`nearestRank` is computed from the binade of a fraction; `nearestRank_eq_of_binade` opens it once
for any fraction whose binade is known. From it follow the three facts that the theory of numbers
uses: the result depends on the value of the fraction only (`nearestRank_congr`), it is finite
exactly below `overflowBound` (`nearestRank_lt_infiniteRank_iff`), and a fraction that agrees with a
double up to one part in `2 ^ 54` is rounded to it (`nearestRank_of_close`).
-/

namespace Tagfold.Double

section Quotient

variable {n d k : Nat}

/-- A quotient below the middle between two neighbours is not rounded past the lower one. -/
theorem roundQuotient_le (hd : 0 < d) (h : 2 * n < 2 * (k * d) + d) : roundQuotient n d ≤ k := by
  have hdiv := Nat.div_add_mod n d
  have hmod := Nat.mod_lt n hd
  have hq : n / d ≤ k := by
    rw [← Nat.lt_succ_iff, Nat.div_lt_iff_lt_mul hd, Nat.succ_mul]
    omega
  unfold roundQuotient
  simp only
  rcases Nat.eq_or_lt_of_le hq with heq | hlt
  · rw [heq, Nat.mul_comm] at hdiv
    rw [if_pos (by omega), heq]
  · split
    · omega
    · split
      · omega
      · split <;> omega

/-- A quotient above the middle between two neighbours is not rounded below the upper one. -/
theorem le_roundQuotient (hd : 0 < d) (h : 2 * (k * d) < 2 * n + d) : k ≤ roundQuotient n d := by
  have hdiv := Nat.div_add_mod n d
  have hmod := Nat.mod_lt n hd
  have hq : k ≤ n / d + 1 := by
    by_contra hlt
    have hle : (n / d + 2) * d ≤ k * d := Nat.mul_le_mul_right d (by omega)
    rw [Nat.add_mul, Nat.mul_comm (n / d)] at hle
    omega
  unfold roundQuotient
  simp only
  rcases Nat.eq_or_lt_of_le hq with heq | hlt
  · have hk : k * d = d * (n / d) + d := by rw [heq, Nat.add_mul, Nat.mul_comm, Nat.one_mul]
    rw [if_neg (by omega), if_pos (by omega)]
    omega
  · split
    · omega
    · split
      · omega
      · split <;> omega

/-- In the middle above an odd number a quotient is rounded up. -/
theorem lt_roundQuotient_of_odd (hd : 0 < d) (hk : k % 2 = 1) (h : 2 * (k * d) + d ≤ 2 * n) :
    k < roundQuotient n d := by
  have hdiv := Nat.div_add_mod n d
  have hmod := Nat.mod_lt n hd
  have hq : k ≤ n / d := by
    rw [Nat.le_div_iff_mul_le hd]
    omega
  unfold roundQuotient
  simp only
  rcases Nat.eq_or_lt_of_le hq with heq | hlt
  · rw [← heq, Nat.mul_comm] at hdiv
    rw [if_neg (by omega), ← heq]
    split
    · omega
    · rw [if_neg (by omega)]
      omega
  · split
    · omega
    · split
      · omega
      · split <;> omega

/-- A quotient less than a half away from a whole number is rounded to it. -/
theorem roundQuotient_eq (hd : 0 < d) (hlow : 2 * (k * d) < 2 * n + d)
    (hhigh : 2 * n < 2 * (k * d) + d) : roundQuotient n d = k :=
  Nat.le_antisymm (roundQuotient_le hd hhigh) (le_roundQuotient hd hlow)

/-- A rounded quotient is at most a half away from the quotient. -/
theorem roundQuotient_close (n : Nat) {d : Nat} (hd : 0 < d) :
    2 * (roundQuotient n d * d) ≤ 2 * n + d ∧ 2 * n ≤ 2 * (roundQuotient n d * d) + d := by
  constructor
  · by_contra hfar
    rcases Nat.eq_zero_or_pos (roundQuotient n d) with hzero | hpos
    · rw [hzero] at hfar
      omega
    · obtain ⟨k, hk⟩ := Nat.exists_eq_succ_of_ne_zero hpos.ne'
      have hmul : roundQuotient n d * d = k * d + d := by rw [hk, Nat.succ_mul]
      have := roundQuotient_le (k := k) hd (by omega : 2 * n < 2 * (k * d) + d)
      omega
  · by_contra hfar
    have hmul : (roundQuotient n d + 1) * d = roundQuotient n d * d + d := Nat.succ_mul _ _
    have := le_roundQuotient hd
      (show 2 * ((roundQuotient n d + 1) * d) < 2 * n + d by omega)
    omega

/-- A rounded quotient is one of the two neighbours of the quotient. -/
theorem roundQuotient_cases (n d : Nat) :
    roundQuotient n d = n / d ∨ roundQuotient n d = n / d + 1 := by
  unfold roundQuotient
  simp only
  split_ifs
  · exact .inl rfl
  · exact .inr rfl
  · exact .inl rfl
  · exact .inr rfl

/-- Rounding a quotient does not depend on a common factor. -/
theorem roundQuotient_mul_right (n d : Nat) {c : Nat} (hc : 0 < c) :
    roundQuotient (n * c) (d * c) = roundQuotient n d := by
  unfold roundQuotient
  simp only [Nat.mul_div_mul_right _ _ hc, Nat.mul_mod_mul_right, ← Nat.mul_assoc,
    Nat.mul_lt_mul_right hc]

end Quotient

section Rank

variable {n d : Nat}

/-- The rank of a fraction whose binade is known: its units lie between `2 ^ (52 + s)` and
`2 ^ (53 + s)`, where the lower bound is void for the least binade. -/
theorem nearestRank_eq_of_binade {s : Nat} (hd : 0 < d)
    (hlow : s = 0 ∨ 2 ^ (52 + s) * d ≤ n * unitsInOne)
    (hhigh : n * unitsInOne < 2 ^ (53 + s) * d) :
    nearestRank n d = s * binade + roundQuotient (n * unitsInOne) (d * 2 ^ s) := by
  have hq : n * unitsInOne / d < 2 ^ (53 + s) := (Nat.div_lt_iff_lt_mul hd).mpr hhigh
  have hshift : Nat.log2 (n * unitsInOne / d) + 1 - 53 = s := by
    rcases hlow with rfl | hlow
    · by_cases hzero : n * unitsInOne / d = 0
      · rw [hzero]
        rfl
      · have := (Nat.log2_lt hzero).mpr hq
        omega
    · have hle : 2 ^ (52 + s) ≤ n * unitsInOne / d := (Nat.le_div_iff_mul_le hd).mpr hlow
      have hne : n * unitsInOne / d ≠ 0 := by
        have := Nat.two_pow_pos (52 + s)
        omega
      have hlt := (Nat.log2_lt hne).mpr hq
      have hge := (Nat.le_log2 hne).mpr hle
      omega
  unfold nearestRank
  simp only [hshift]

/-- Every fraction lies in some binade. -/
theorem exists_binade (n : Nat) (hd : 0 < d) :
    ∃ s, (s = 0 ∨ 2 ^ (52 + s) * d ≤ n * unitsInOne) ∧ n * unitsInOne < 2 ^ (53 + s) * d := by
  by_cases hsmall : n * unitsInOne < 2 ^ 53 * d
  · exact ⟨0, .inl rfl, hsmall⟩
  · have hge : 2 ^ 53 ≤ n * unitsInOne / d := by
      rw [Nat.le_div_iff_mul_le hd]
      omega
    have hne : n * unitsInOne / d ≠ 0 := by
      have := Nat.two_pow_pos 53
      omega
    have hlog := (Nat.le_log2 hne).mpr hge
    refine ⟨Nat.log2 (n * unitsInOne / d) - 52, .inr ?_, ?_⟩
    · rw [← Nat.le_div_iff_mul_le hd, ← Nat.le_log2 hne]
      omega
    · rw [← Nat.div_lt_iff_lt_mul hd, ← Nat.log2_lt hne]
      omega

/-- A common factor does not change the rank of a fraction. -/
theorem nearestRank_mul_right (n : Nat) (hd : 0 < d) {c : Nat} (hc : 0 < c) :
    nearestRank (n * c) (d * c) = nearestRank n d := by
  obtain ⟨s, hlow, hhigh⟩ := exists_binade n hd
  have hunits : n * c * unitsInOne = n * unitsInOne * c := Nat.mul_right_comm n c unitsInOne
  have hscaled : d * c * 2 ^ s = d * 2 ^ s * c := Nat.mul_right_comm d c (2 ^ s)
  rw [nearestRank_eq_of_binade hd hlow hhigh,
    nearestRank_eq_of_binade (s := s) (Nat.mul_pos hd hc), hunits, hscaled,
    roundQuotient_mul_right _ _ hc]
  · rw [hunits, ← Nat.mul_assoc]
    exact hlow.imp id fun h ↦ Nat.mul_le_mul_right c h
  · rw [hunits, ← Nat.mul_assoc]
    exact Nat.mul_lt_mul_of_pos_right hhigh hc

/-- The rank depends on the value of the fraction only. -/
theorem nearestRank_congr {n' d' : Nat} (hd : 0 < d) (hd' : 0 < d') (h : n * d' = n' * d) :
    nearestRank n d = nearestRank n' d' := by
  rw [← nearestRank_mul_right n hd hd', ← nearestRank_mul_right n' hd' hd, h, Nat.mul_comm d d']

/-- The least whole number that is rounded past the largest double: half a unit in the last place
above it. -/
def overflowBound : Nat := 2 ^ 1024 - 2 ^ 970

/-- Units of the overflow bound, in halves of the last binade. -/
theorem two_mul_overflowBound_units :
    2 * (overflowBound * unitsInOne) = (2 ^ 54 - 1) * 2 ^ 2045 := by
  have hbound : (2 : Nat) ^ 1024 = 2 ^ 54 * 2 ^ 970 := by rw [← Nat.pow_add]
  have hbinade : (2 : Nat) ^ 2045 = 2 * (2 ^ 970 * 2 ^ 1074) := by
    rw [show (2045 : Nat) = 1 + (970 + 1074) from rfl, Nat.pow_add, Nat.pow_add, Nat.pow_one]
  rw [overflowBound, unitsInOne, hbound, hbinade]
  generalize (2 : Nat) ^ 970 = x
  generalize (2 : Nat) ^ 1074 = y
  rw [show 2 ^ 54 * x - x = (2 ^ 54 - 1) * x by omega, Nat.mul_assoc, Nat.mul_left_comm]

/-- Numbers of a hundred bits are far below the overflow bound. -/
theorem two_pow_hundred_le_overflowBound : 2 ^ 100 ≤ overflowBound := by
  have hbound : (2 : Nat) ^ 1024 = 2 ^ 54 * 2 ^ 970 := by rw [← Nat.pow_add]
  have hsmall : (2 : Nat) ^ 100 ≤ 2 ^ 970 := Nat.pow_le_pow_right (by omega) (by omega)
  rw [overflowBound, hbound]
  generalize (2 : Nat) ^ 970 = x at hsmall ⊢
  omega

/-- One is at least one unit. -/
theorem unitsInOne_pos : 0 < unitsInOne := by
  rw [unitsInOne]
  positivity

/-- A fraction is rounded to a finite double exactly if it is below the overflow bound. -/
theorem nearestRank_lt_infiniteRank_iff (hd : 0 < d) :
    nearestRank n d < infiniteRank ↔ n < overflowBound * d := by
  -- In units and doubled, the bound is a multiple of the last binade.
  have hbound : n < overflowBound * d ↔
      2 * (n * unitsInOne) < (2 ^ 54 - 1) * (2 ^ 2045 * d) := by
    rw [← Nat.mul_lt_mul_right unitsInOne_pos, ← Nat.mul_assoc (2 ^ 54 - 1),
      ← two_mul_overflowBound_units,
      Nat.mul_right_comm, Nat.mul_assoc 2, Nat.mul_lt_mul_left (by omega)]
  obtain ⟨s, hlow, hhigh⟩ := exists_binade n hd
  rw [hbound, nearestRank_eq_of_binade hd hlow hhigh, infiniteRank, binade]
  clear hbound
  generalize n * unitsInOne = x at hlow hhigh ⊢
  have hscale : 0 < d * 2 ^ s := Nat.mul_pos hd (Nat.two_pow_pos s)
  have hle : roundQuotient x (d * 2 ^ s) ≤ 2 ^ 53 := by
    apply roundQuotient_le hscale
    have : 2 ^ (53 + s) * d = 2 ^ 53 * (d * 2 ^ s) := by rw [Nat.pow_add]; ring
    omega
  rcases Nat.lt_trichotomy s 2045 with hs | rfl | hs
  · have hsmall : 2 ^ (53 + s) * d ≤ 2 ^ 52 * (2 ^ 2045 * d) :=
      calc 2 ^ (53 + s) * d ≤ 2 ^ (52 + 2045) * d :=
            Nat.mul_le_mul_right d (Nat.pow_le_pow_right (by omega) (by omega))
        _ = 2 ^ 52 * (2 ^ 2045 * d) := by rw [Nat.pow_add, Nat.mul_assoc]
    exact ⟨fun _ ↦ by omega, fun _ ↦ by omega⟩
  · -- In the last binade the bound is half a step above the largest mantissa, which is odd: a
    -- fraction at the bound is rounded away from it.
    rw [Nat.mul_comm d] at hle hscale ⊢
    generalize 2 ^ 2045 * d = y at hle hscale ⊢
    have hodd : (2 ^ 53 - 1) % 2 = 1 := by decide
    constructor
    · intro h
      by_contra hge
      have := lt_roundQuotient_of_odd hscale hodd (by omega : 2 * ((2 ^ 53 - 1) * y) + y ≤ 2 * x)
      omega
    · intro h
      have := roundQuotient_le (k := 2 ^ 53 - 1) hscale (by omega : 2 * x < _)
      omega
  · have hlow : 2 ^ (52 + s) * d ≤ x := hlow.resolve_left (by omega)
    have hbig : 2 ^ 53 * (2 ^ 2045 * d) ≤ 2 ^ (52 + s) * d := by
      rw [← Nat.mul_assoc, ← Nat.pow_add]
      exact Nat.mul_le_mul_right d (Nat.pow_le_pow_right (by omega) (by omega))
    have hge : 2 ^ 52 ≤ roundQuotient x (d * 2 ^ s) := by
      apply le_roundQuotient hscale
      have : 2 ^ (52 + s) * d = 2 ^ 52 * (d * 2 ^ s) := by rw [Nat.pow_add]; ring
      omega
    exact ⟨fun h ↦ by omega, fun h ↦ by omega⟩

/-- The units of a rank are a mantissa of 53 bits in its binade. -/
theorem exists_mantissa (rank : Nat) :
    ∃ s m, rank = s * binade + m ∧ units rank = m * 2 ^ s ∧ m < 2 ^ 53 ∧ (s = 0 ∨ 2 ^ 52 ≤ m) := by
  have hbinade : binade = 4503599627370496 := rfl
  refine ⟨rank / binade - 1, rank - (rank / binade - 1) * binade, ?_, rfl, ?_, ?_⟩
  · rw [hbinade]
    omega
  · rw [hbinade]
    omega
  · rw [hbinade]
    omega

/-- A fraction that agrees with a double up to one part in `2 ^ 54` is rounded to it. -/
theorem nearestRank_of_close {rank : Nat} (hd : 0 < d)
    (hlow : (2 ^ 54 - 1) * (units rank * d) < 2 ^ 54 * (n * unitsInOne))
    (hhigh : 2 ^ 54 * (n * unitsInOne) < (2 ^ 54 + 1) * (units rank * d)) :
    nearestRank n d = rank := by
  obtain ⟨s, m, hrank, hunits, hm, hnormal⟩ := exists_mantissa rank
  have hbinade : binade = 2 ^ 52 := rfl
  have hscale : 0 < d * 2 ^ s := Nat.mul_pos hd (Nat.two_pow_pos s)
  have hmd : units rank * d = m * (d * 2 ^ s) := by rw [hunits]; ring
  have hmle : m * (d * 2 ^ s) ≤ (2 ^ 53 - 1) * (d * 2 ^ s) := Nat.mul_le_mul_right _ (by omega)
  have h52 : 2 ^ (52 + s) * d = 2 ^ 52 * (d * 2 ^ s) := by rw [Nat.pow_add]; ring
  have h53 : 2 ^ (53 + s) * d = 2 ^ 53 * (d * 2 ^ s) := by rw [Nat.pow_add]; ring
  rw [hmd] at hlow hhigh
  by_cases hin : s = 0 ∨ 2 ^ (52 + s) * d ≤ n * unitsInOne
  · rw [nearestRank_eq_of_binade hd hin (by rw [h53]; omega), hrank]
    congr 1
    exact roundQuotient_eq hscale (by omega) (by omega)
  · -- The fraction lies just below a power of two: it is rounded up out of the binade below.
    rw [not_or] at hin
    obtain ⟨hs, hbelow⟩ := hin
    have hmge : 2 ^ 52 * (d * 2 ^ s) ≤ m * (d * 2 ^ s) :=
      Nat.mul_le_mul_right _ (hnormal.resolve_left hs)
    have hmeq : m = 2 ^ 52 := by
      by_contra hne
      have : (2 ^ 52 + 1) * (d * 2 ^ s) ≤ m * (d * 2 ^ s) := Nat.mul_le_mul_right _ (by omega)
      omega
    obtain ⟨t, rfl⟩ := Nat.exists_eq_succ_of_ne_zero hs
    have hhalf : d * 2 ^ t.succ = 2 * (d * 2 ^ t) := by rw [Nat.pow_succ]; ring
    have ht52 : 2 ^ (52 + t) * d = 2 ^ 52 * (d * 2 ^ t) := by rw [Nat.pow_add]; ring
    have ht53 : 2 ^ (53 + t) * d = 2 ^ 53 * (d * 2 ^ t) := by rw [Nat.pow_add]; ring
    have hpos : 0 < d * 2 ^ t := Nat.mul_pos hd (Nat.two_pow_pos t)
    rw [hmeq, hhalf] at hlow
    rw [h52, hhalf] at hbelow
    have hround : roundQuotient (n * unitsInOne) (d * 2 ^ t) = 2 ^ 53 :=
      roundQuotient_eq hpos (by omega) (by omega)
    rw [nearestRank_eq_of_binade (s := t) hd (.inr (by rw [ht52]; omega)) (by rw [ht53]; omega),
      hround, hrank, hmeq, hbinade]
    omega

end Rank

end Tagfold.Double
