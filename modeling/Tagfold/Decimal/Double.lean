/-!
# Binary64 numbers

A double is not a number, or a sign with a rank. The rank counts the non-negative doubles below the
absolute value: zero has rank 0, the least subnormal rank 1, and neighbouring doubles have
neighbouring ranks up to infinity. Every finite magnitude is a whole number of units, where a unit is
the least subnormal `2 ^ (-1074)`. Rounding a fraction is exact arithmetic on natural numbers:
`nearestRank` picks the nearer of the two neighbours, and of two equally near ones the even one.
-/

namespace Tagfold

namespace CorePower

/-- Powers of natural numbers are those of the core library, whatever else is imported. -/
scoped instance (priority := high) natPow : Pow Nat Nat := instPowNat

end CorePower

open scoped CorePower

/-- A binary64 number. -/
inductive Double where
  | nan
  | number (negative : Bool) (rank : Nat)
  deriving DecidableEq, Repr

namespace Double

/-- The number of doubles of one sign in a binade. -/
def binade : Nat := 2 ^ (52 : Nat)

/-- The rank of infinity. -/
def infiniteRank : Nat := 2047 * binade

/-- The fraction of one that a unit is: there are `2 ^ 1074` units in one. -/
def unitsInOne : Nat := 2 ^ (1074 : Nat)

/-- The magnitude of a finite rank, in units. -/
def units (rank : Nat) : Nat :=
  let shift := rank / binade - 1
  (rank - shift * binade) * 2 ^ shift

/-- The quotient rounded to the nearest whole number, a half going to the even one. -/
def roundQuotient (n d : Nat) : Nat :=
  let q := n / d
  let r := n % d
  if 2 * r < d then q
  else if d < 2 * r then q + 1
  else if q % 2 = 0 then q else q + 1

/-- The rank of the double nearest to the fraction `n / d`, as if there were no largest double. -/
def nearestRank (n d : Nat) : Nat :=
  let x := n * unitsInOne
  let shift := Nat.log2 (x / d) + 1 - 53
  shift * binade + roundQuotient x (d * 2 ^ shift)

/-- The double is not a number. -/
def isNaN : Double → Bool
  | nan => true
  | number _ _ => false

/-- Numerical equality: nothing equals what is not a number, and the two zeros are equal. -/
def equals : Double → Double → Bool
  | number s a, number t b => a == b && (s == t || a == 0)
  | _, _ => false

end Double

end Tagfold
