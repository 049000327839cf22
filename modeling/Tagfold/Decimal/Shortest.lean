import Tagfold.Text.Basic
import Tagfold.Decimal.Double

/-!
# Shortest digits of a double

Of all decimals that read back as a given double, `shortest` takes one with the fewest digits, and of
those the nearest to the double. For one, two, … digits it tries the two neighbours of the double on
that decimal grid, the nearer one first; a half goes to the even neighbour. The full expansion of the
double, which always reads back, ends the search.
-/

namespace Tagfold

open scoped CorePower

/-- A positive decimal: `0.d₁d₂…` times the given power of ten. -/
structure Decimal where
  digits : Text
  point : Int
  deriving DecidableEq, Repr

namespace Decimal

/-- The decimal `n` times a power of ten, without zeros at the end. -/
def ofScaled (n : Nat) (exponent : Int) : Decimal :=
  let numeral := Text.decimal n
  let trimmed := (numeral.reverse.dropWhile (· == 48)).reverse
  ⟨trimmed, numeral.length + exponent⟩

/-- The fraction `n / d` divided by a power of ten, as a fraction. -/
def scaleDown (n d : Nat) (exponent : Int) : Nat × Nat :=
  (n * 10 ^ (-exponent).toNat, d * 10 ^ exponent.toNat)

/-- The rank of the double nearest to `n` times a power of ten. -/
def rankOfScaled (n : Nat) (exponent : Int) : Nat :=
  Double.nearestRank (n * 10 ^ exponent.toNat) (10 ^ (-exponent).toNat)

/-- The decimal exponent of the first digit of a positive finite rank. -/
def leadingExponent (rank : Nat) : Int :=
  (Text.decimal (Double.units rank * 10 ^ (400 : Nat) / Double.unitsInOne)).length - 401

/-- The nearest whole multiple of a power of ten that reads back as the rank, if one of the two
neighbours does. -/
def onGrid? (rank : Nat) (exponent : Int) : Option Nat :=
  let (n, d) := scaleDown (Double.units rank) Double.unitsInOne exponent
  let nearer := Double.roundQuotient n d
  let farther := if nearer = n / d then nearer + 1 else n / d
  [nearer, farther].find? (rankOfScaled · exponent == rank)

/-- The shortest decimal that reads back as a positive finite rank, nearest among those. -/
def shortest (rank : Nat) : Decimal :=
  let lead := leadingExponent rank
  let tries := (List.range 17).findSome? fun (k : Nat) ↦
    (onGrid? rank (lead - k)).map fun n ↦ ofScaled n (lead - k)
  tries.getD (ofScaled (Double.units rank * 5 ^ (1074 : Nat)) (-1074))

end Decimal

end Tagfold
