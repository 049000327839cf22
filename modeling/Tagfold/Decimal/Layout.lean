import Tagfold.Decimal.Shortest

/-!
# Layout of doubles

A layout says which decimal exponents are written positionally and which with a power of ten. Values
in dumps use `Layout.general`; numbers in documents use `Layout.plain`, which has no exponents.
-/

namespace Tagfold

/-- Which decimal exponents of the first digit are written without a power of ten. -/
structure Layout where
  isPositional : Int → Bool

namespace Layout

/-- Exponents from -4 to 5 are positional. -/
def general : Layout := ⟨fun x ↦ -4 ≤ x && x < 6⟩

/-- All exponents are positional. -/
def plain : Layout := ⟨fun _ ↦ true⟩

/-- A run of zeros. -/
def zeros (n : Nat) : Text := List.replicate n 48

/-- The decimal without a power of ten; there is a point only before further digits. -/
def positional (d : Decimal) : Text :=
  if d.point ≤ 0 then utf8 "0." ++ zeros (-d.point).toNat ++ d.digits
  else
    let whole := d.point.toNat
    if d.digits.length ≤ whole then d.digits ++ zeros (whole - d.digits.length)
    else d.digits.take whole ++ utf8 "." ++ d.digits.drop whole

/-- The decimal with one digit before the point and a signed exponent of at least two digits. -/
def scientific (d : Decimal) : Text :=
  let x := d.point - 1
  let exponent := Text.decimal x.natAbs
  let fraction := d.digits.drop 1
  d.digits.take 1 ++ (if fraction.isEmpty then [] else utf8 "." ++ fraction) ++
    utf8 (if x < 0 then "e-" else "e+") ++ zeros (2 - exponent.length) ++ exponent

/-- The text of a double. -/
def render (l : Layout) : Double → Text
  | .nan => utf8 "NaN"
  | .number negative rank =>
    if rank ≥ Double.infiniteRank then utf8 (if negative then "-Inf" else "+Inf")
    else
      let sign := if negative then utf8 "-" else []
      if rank = 0 then sign ++ utf8 "0"
      else
        let d := Decimal.shortest rank
        sign ++ (if l.isPositional (d.point - 1) then positional d else scientific d)

end Layout

end Tagfold
