import Calculator.Decimal

/-!
# Writing decimals

Two layouts of a decimal: *positional*, with the point in its place and without an exponent, and
*scientific*, with one digit before the point. Both take a function `keep` that says what stays of
the digits after the point: all of them (`id`) or all but the zeros at the end (`trimZeros`). The
point is written only before at least one digit. The exponent of a scientific text has a sign and at
least two digits; `exponential` writes it as it is.
-/

namespace Calculator.Decimal

/-- The digits without the zeros at the end. -/
def trimZeros (ds : List Char) : List Char := (ds.reverse.dropWhile (· == '0')).reverse

/-- The digits of `n`, with zeros in front up to `width` digits. -/
def padded (width n : Nat) : List Char :=
  let ds := digits n
  List.replicate (width - ds.length) '0' ++ ds

/-- A whole part and the digits after the point. -/
def pointed (whole fraction : List Char) : List Char :=
  if fraction.isEmpty then whole else whole ++ '.' :: fraction

/-- A sign, then at least two digits. -/
def exponentText (e : Int) : List Char := (if e < 0 then '-' else '+') :: padded 2 e.natAbs

/-- The power of ten of the first digit. -/
def firstExponent (d : Decimal) : Int := d.exponent + ((digits d.coefficient).length - 1 : Nat)

/-- One digit, the kept ones after the point, `e` and the exponent. -/
def scientific (keep : List Char → List Char) (d : Decimal) : List Char :=
  let ds := digits d.coefficient
  pointed (ds.take 1) (keep (ds.drop 1)) ++ 'e' :: exponentText d.firstExponent

/-- One digit, the others after the point, `e` and the exponent without any padding. -/
def exponential (d : Decimal) : List Char :=
  let ds := digits d.coefficient
  pointed (ds.take 1) (ds.drop 1) ++ 'e' :: (toString d.firstExponent).toList

/-- All digits down to the units, and the kept ones after the point. -/
def positional (keep : List Char → List Char) (d : Decimal) : List Char :=
  if 0 ≤ d.exponent then digits d.coefficient ++ List.replicate d.exponent.toNat '0'
  else
    let places := (-d.exponent).toNat
    let ds := padded (places + 1) d.coefficient
    pointed (ds.take (ds.length - places)) (keep (ds.drop (ds.length - places)))

end Calculator.Decimal
