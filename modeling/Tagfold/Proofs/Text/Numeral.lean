import Mathlib.Data.List.Induction
import Mathlib.Tactic.IntervalCases
import Mathlib.Tactic.Ring
import Tagfold.Text.Basic

/-!
# Decimal numerals

Runs of digits and the numbers they denote. `digitsValue_decimal` and `decimal_digitsValue` say that
`decimal` writes and `digitsValue` reads: every number has one numeral without leading zeros, and a
run of digits denotes the same number with and without its leading zeros. `Canonical` says what such
a numeral looks like, without saying how it is written.
-/

namespace Tagfold.Text

/-- All bytes are digits. -/
abbrev Digits (t : Text) : Prop := ∀ b ∈ t, isDigit b = true

/-- Two runs of digits make one. -/
theorem Digits.append {s t : Text} (hs : Digits s) (ht : Digits t) : Digits (s ++ t) := by
  intro b hb
  exact (List.mem_append.mp hb).elim (hs b) (ht b)

/-- Zeros are digits. -/
theorem digits_replicate_zero (k : Nat) : Digits (List.replicate k 48) := by
  intro b hb
  rw [List.eq_of_mem_replicate hb]
  rfl

/-- The digits of numbers below ten are digits. -/
theorem isDigit_digit {n : Nat} (h : n < 10) : isDigit (digit n) = true := by
  interval_cases n <;> decide

/-- A digit stands for the number it was made from. -/
theorem digitValue_digit {n : Nat} (h : n < 10) : digitValue (digit n) = n := by
  interval_cases n <;> decide

/-- A digit byte lies between the digits of zero and nine. -/
theorem isDigit_iff {b : UInt8} : isDigit b = true ↔ 48 ≤ b.toNat ∧ b.toNat ≤ 57 := by
  simp [isDigit, UInt8.le_iff_toNat_le]

/-- A digit stands for a number below ten. -/
theorem digitValue_lt {b : UInt8} (h : isDigit b = true) : digitValue b < 10 := by
  have := isDigit_iff.mp h
  unfold digitValue
  omega

/-- A digit is the digit of the number it stands for. -/
theorem digit_digitValue {b : UInt8} (h : isDigit b = true) : digit (digitValue b) = b := by
  have hb := isDigit_iff.mp h
  apply UInt8.toNat_inj.mp
  simp only [digit, digitValue, Nat.toUInt8, UInt8.toNat_ofNat']
  omega

/-- Only the digit zero stands for zero. -/
theorem digitValue_eq_zero_iff {b : UInt8} (h : isDigit b = true) : digitValue b = 0 ↔ b = 48 := by
  have hb := isDigit_iff.mp h
  rw [← UInt8.toNat_inj]
  simp only [digitValue, UInt8.toNat_ofNat]
  omega

/-- Digits read one after another, starting from a number. -/
theorem foldl_digits (t : Text) (n : Nat) :
    t.foldl (fun n b ↦ 10 * n + digitValue b) n = n * 10 ^ t.length + digitsValue t := by
  induction t generalizing n with
  | nil => simp [digitsValue]
  | cons b t ih =>
      rw [digitsValue, List.foldl_cons, List.foldl_cons, ih, ih (10 * 0 + digitValue b),
        List.length_cons, Nat.pow_succ]
      ring

/-- The value of a run of digits behind another. -/
theorem digitsValue_append (a b : Text) :
    digitsValue (a ++ b) = digitsValue a * 10 ^ b.length + digitsValue b := by
  rw [digitsValue, List.foldl_append, foldl_digits]
  rfl

/-- The value of a run of digits by its first digit. -/
theorem digitsValue_cons (b : UInt8) (t : Text) :
    digitsValue (b :: t) = digitValue b * 10 ^ t.length + digitsValue t := by
  rw [digitsValue, List.foldl_cons, foldl_digits]
  simp

/-- The value of a run of digits by its last digit. -/
theorem digitsValue_concat (t : Text) (b : UInt8) :
    digitsValue (t ++ [b]) = 10 * digitsValue t + digitValue b := by
  rw [digitsValue, List.foldl_append]
  rfl

/-- A run of digits denotes a number that needs no more digits. -/
theorem digitsValue_lt {t : Text} (h : Digits t) : digitsValue t < 10 ^ t.length := by
  induction t using List.reverseRecOn with
  | nil => simp [digitsValue]
  | append_singleton t b ih =>
      have hb := digitValue_lt (h b (by simp))
      have ht := ih fun a ha ↦ h a (by simp [ha])
      rw [digitsValue_concat, List.length_append, List.length_singleton, Nat.pow_succ]
      omega

/-- A run of zeros denotes zero. -/
theorem digitsValue_replicate_zero (k : Nat) : digitsValue (List.replicate k 48) = 0 := by
  induction k with
  | zero => rfl
  | succ k ih => rw [List.replicate_succ, digitsValue_cons, ih]; simp [digitValue]

/-- Leading zeros do not count. -/
theorem digitsValue_dropWhile_zero (t : Text) :
    digitsValue (t.dropWhile (· == 48)) = digitsValue t := by
  induction t with
  | nil => rfl
  | cons b t ih =>
      rw [List.dropWhile_cons]
      split
      · next hb =>
          have hzero : digitValue b = 0 := by rw [eq_of_beq hb]; rfl
          rw [ih, digitsValue_cons, hzero]
          omega
      · rfl

/-- A numeral denotes the number it was written for. -/
theorem digitsValue_decimal (n : Nat) : digitsValue (decimal n) = n := by
  fun_induction decimal n with
  | case1 n h => simp [digitsValue, digitValue_digit h]
  | case2 n h ih =>
      rw [digitsValue_concat, ih, digitValue_digit (Nat.mod_lt n (by omega))]
      omega

/-- A numeral consists of digits. -/
theorem digits_decimal (n : Nat) : Digits (decimal n) := by
  fun_induction decimal n with
  | case1 n h =>
      intro b hb
      rw [List.mem_singleton.mp hb]
      exact isDigit_digit h
  | case2 n h ih =>
      intro b hb
      rcases List.mem_append.mp hb with hb | hb
      · exact ih b hb
      · rw [List.mem_singleton.mp hb]
        exact isDigit_digit (Nat.mod_lt n (by omega))

/-- A numeral is not empty. -/
theorem decimal_ne_nil (n : Nat) : decimal n ≠ [] := by
  unfold decimal
  split <;> simp

/-- A run of digits that does not start with zero is the numeral of its value. -/
theorem decimal_digitsValue {t : Text} (ht : Digits t) (hne : t ≠ []) (hlead : t.head? ≠ some 48) :
    decimal (digitsValue t) = t := by
  -- From the end, as the numeral of a number is made by division.
  induction t using List.reverseRecOn with
  | nil => exact absurd rfl hne
  | append_singleton t b ih =>
      have hb := ht b (by simp)
      have hlt := digitValue_lt hb
      rw [digitsValue_concat]
      cases t with
      | nil =>
          have hzero : 10 * digitsValue [] + digitValue b = digitValue b := by simp [digitsValue]
          rw [hzero, decimal, if_pos hlt, digit_digitValue hb]
          rfl
      | cons a t =>
          have ha := ht a (by simp)
          have hpos : 0 < digitsValue (a :: t) := by
            have hne : digitValue a ≠ 0 := by
              rw [Ne, digitValue_eq_zero_iff ha]
              simpa using hlead
            rw [digitsValue_cons]
            have hpow : 0 < 10 ^ t.length := Nat.pow_pos (by omega)
            have := Nat.mul_pos (Nat.pos_of_ne_zero hne) hpow
            omega
          have hrest := ih (fun x hx ↦ ht x (List.mem_append_left _ hx)) (by simp)
            (by simpa using hlead)
          rw [decimal, if_neg (by omega)]
          have hdiv :
              (10 * digitsValue (a :: t) + digitValue b) / 10 = digitsValue (a :: t) := by omega
          have hmod : (10 * digitsValue (a :: t) + digitValue b) % 10 = digitValue b := by omega
          rw [hdiv, hmod, hrest, digit_digitValue hb]

/-- A run of digits of a positive number is its numeral behind leading zeros. -/
theorem dropWhile_zero_eq_decimal {t : Text} (ht : Digits t) (hpos : 0 < digitsValue t) :
    t.dropWhile (· == 48) = decimal (digitsValue t) := by
  have hdigits : Digits (t.dropWhile (· == 48)) := fun b hb ↦
    ht b ((List.dropWhile_suffix _).subset hb)
  have hvalue := digitsValue_dropWhile_zero t
  have hne : t.dropWhile (· == 48) ≠ [] := by
    intro h
    rw [h] at hvalue
    exact Nat.ne_of_gt hpos hvalue.symm
  have hlead : (t.dropWhile (· == 48)).head? ≠ some 48 := by
    intro h
    have := List.head?_dropWhile_not (· == 48) t
    rw [h] at this
    simp at this
  rw [← decimal_digitsValue hdigits hne hlead, hvalue]

/-- The numeral of zero. -/
theorem decimal_zero : decimal 0 = [48] := by
  rw [decimal, if_pos (by omega)]
  rfl

/-- The text is the numeral of a number without leading zeros. -/
structure Canonical (n : Nat) (t : Text) : Prop where
  digits : Digits t
  ne_nil : t ≠ []
  value : digitsValue t = n
  noLeadingZero : t.head? = some 48 → t = [48]

/-- Every number has one numeral without leading zeros. -/
theorem canonical_iff {n : Nat} {t : Text} : Canonical n t ↔ t = decimal n := by
  constructor
  · intro h
    by_cases hlead : t.head? = some 48
    · have hzero : t = [48] := h.noLeadingZero hlead
      have hn : n = 0 := h.value.symm.trans (by rw [hzero]; rfl)
      rw [hzero, hn, decimal_zero]
    · rw [← h.value, decimal_digitsValue h.digits h.ne_nil hlead]
  · rintro rfl
    refine ⟨digits_decimal n, decimal_ne_nil n, digitsValue_decimal n, fun hlead ↦ ?_⟩
    by_cases hn : n = 0
    · rw [hn, decimal_zero]
    · -- The numeral of a positive number is left as it is when leading zeros are dropped.
      have hdrop := dropWhile_zero_eq_decimal (digits_decimal n)
        (by rw [digitsValue_decimal]; exact Nat.pos_of_ne_zero hn)
      rw [digitsValue_decimal] at hdrop
      obtain ⟨rest, hrest⟩ := List.head?_eq_some_iff.mp hlead
      have hlength := congrArg List.length hdrop
      rw [hrest] at hlength
      have hshort := (List.dropWhile_suffix (l := rest) (fun b : UInt8 ↦ b == 48)).length_le
      simp only [List.dropWhile_cons, beq_self_eq_true, if_true, List.length_cons] at hlength
      omega

/-- The number of digits of a positive number. -/
theorem length_decimal {n k : Nat} (hlow : 10 ^ k ≤ n) (hhigh : n < 10 ^ (k + 1)) :
    (decimal n).length = k + 1 := by
  induction k generalizing n with
  | zero =>
      rw [decimal, if_pos (by omega)]
      rfl
  | succ k ih =>
      rw [Nat.pow_succ] at hlow hhigh
      have hpos : 0 < 10 ^ k := Nat.pow_pos (by omega)
      rw [decimal, if_neg (by omega), List.length_append, ih (by omega) (by omega)]
      rfl

end Tagfold.Text
