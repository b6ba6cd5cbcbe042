import Calculator.Double.Integral
import Calculator.Double.Text

/-!
# Displaying results

A result is displayed with a chosen precision:

* a whole number below `10 ^ 15` in full, without a sign if it is zero;
* from `10 ^ 10` on, and below `10 ^ -4`, scientifically with `precision` digits after the point;
* in between with at most `precision` significant digits, but one at least, and no zeros at the end:
  positional, unless the rounded number has more digits before the point than that.

Digits are those of the exact value, rounded half to even. No number can be written with more than
`maxPlaces` digits after the point, so that with a large precision a result may have no text
(`display?`). With any number of places, and rounded only once, it is `display`.
-/

namespace Calculator

namespace Double

/-- The whole numbers below this are displayed in full. -/
def wholeLimit : Float := 1e15

/-- From here on numbers are displayed scientifically. -/
def largeLimit : Float := 1e10

/-- Below this, too. -/
def smallLimit : Float := 1e-4

/-! ### Rounding -/

/-- `±m · 2 ^ e` with a number of digits after the leading one, rounded. -/
def toDecimal (m : Nat) (e : Int) (places : Nat) : Decimal :=
  .ofRatio (m * twoTo e) (twoTo (-e)) places

/-- `±m · 2 ^ e` with a number of digits after the point, rounded. -/
def toFixed (m : Nat) (e : Int) (places : Nat) : Decimal :=
  let (n, d) := Decimal.scaled (m * twoTo e) (twoTo (-e)) (-places)
  ⟨Decimal.roundRatio n d, -places⟩

/-- The most digits after a point that can be asked for. -/
def maxPlaces : Nat := 65535

def toDecimal? (m : Nat) (e : Int) (places : Nat) : Option Decimal :=
  if places ≤ maxPlaces then some (toDecimal m e places) else none

def toFixed? (m : Nat) (e : Int) (places : Nat) : Option Decimal :=
  if places ≤ maxPlaces then some (toFixed m e places) else none

/-! ### Texts -/

/-- With a number of significant digits, less the zeros at the end. The number is rounded to them
first: the power of ten of its leading digit is then known, and where it is less than their number,
the number is rounded once more, to the places after the point that are left. -/
def displayGeneral? (m : Nat) (e : Int) (significant : Nat) : Option (List Char) := do
  let rounded ← toDecimal? m e (significant - 1)
  let exponent := rounded.firstExponent
  if Int64.maxValue.toInt < significant then return rounded.exponential
  if exponent < -4 || significant ≤ exponent then return rounded.scientific Decimal.trimZeros
  return (← toFixed? m e (significant - 1 - exponent).toNat).positional Decimal.trimZeros

/-- **The text of a result**, if its digits can be asked for. -/
def display? (x : Float) (precision : Nat) : Option String :=
  match parts x with
  | .finite s m e _ =>
    if x == trunc x && x.abs < wholeLimit then some (toString ((integerPart? x).getD 0))
    else
      let unsigned? :=
        if largeLimit ≤ x.abs || x.abs < smallLimit then
          (toDecimal? m e precision).map (·.scientific id)
        else displayGeneral? m e (max precision 1)
      unsigned?.map fun t => String.ofList (signText s ++ t)
  | .zero _ => some "0"
  | _ => some (text x)

/-! ### Texts with any number of places -/

/-- With a number of significant digits, less the zeros at the end: scientific where the power of
ten of the leading digit is not less than their number. -/
def displayGeneral (m : Nat) (e : Int) (significant : Nat) : List Char :=
  let d := toDecimal m e (significant - 1)
  if significant ≤ d.exponent + (significant - 1 : Nat) then d.scientific Decimal.trimZeros
  else d.positional Decimal.trimZeros

/-- The text that a result would have if any number of digits could be asked for. -/
def display (x : Float) (precision : Nat) : String :=
  match parts x with
  | .finite s m e _ =>
    if x == trunc x && x.abs < wholeLimit then toString ((integerPart? x).getD 0)
    else if largeLimit ≤ x.abs || x.abs < smallLimit then
      String.ofList (signText s ++ (toDecimal m e precision).scientific id)
    else String.ofList (signText s ++ displayGeneral m e (max precision 1))
  | .zero _ => "0"
  | _ => text x

end Double

end Calculator
