import Calculator.Decimal.Layout

/-!
# The shortest text of a double

Of the decimals that read back as a given double, the ones with the fewest significant digits, and
of those the nearest (`shortest`), in positional layout (`text`). The numbers that round to
`m · 2 ^ e` form an interval; a decimal grid has a point in it exactly when one of the two grid
points around `m · 2 ^ e` lies in it, so only these two are tried on each grid.
-/

namespace Calculator

namespace Decimal

/-- The positive double `m · 2 ^ e` as the fraction `value / den`, with the ends `low / den` and
`high / den` of the interval of numbers that round to it; `closed` says whether the ends do. -/
structure Neighbourhood where
  low : Nat
  value : Nat
  high : Nat
  den : Nat
  closed : Bool

namespace Neighbourhood

/-- Half a unit on each side, but a quarter below a power of two, where the doubles get denser. The
ends round to the even double. -/
def ofParts (m : Nat) (e : Int) : Neighbourhood :=
  let scale := twoTo e
  let below := if m = twoTo 52 ∧ -1074 < e then 1 else 2
  { low := (4 * m - below) * scale
    value := 4 * m * scale
    high := (4 * m + 2) * scale
    den := 4 * twoTo (-e)
    closed := m % 2 == 0 }

/-- `d` rounds to the double in the middle. -/
def contains (s : Neighbourhood) (d : Decimal) : Bool :=
  let c := d.coefficient * tenTo d.exponent * s.den
  let unit := tenTo (-d.exponent)
  if s.closed then s.low * unit ≤ c && c ≤ s.high * unit
  else s.low * unit < c && c < s.high * unit

/-- On the grid of multiples of `10 ^ unit`: the nearer one of the two points around the double that
rounds to it, the larger one if both are equally near. -/
def onGrid? (s : Neighbourhood) (unit : Int) : Option Decimal :=
  let (n, d) := scaled s.value s.den unit
  let low : Decimal := ⟨n / d, unit⟩
  let high : Decimal := ⟨n / d + 1, unit⟩
  match s.contains low, s.contains high with
  | true, true => some (if 2 * (n % d) < d then low else high)
  | true, false => some low
  | false, true => some high
  | false, false => none

end Neighbourhood

/-- Seventeen significant digits tell any two doubles apart. -/
def maxDigits : Nat := 17

/-- **The shortest decimal** that reads back as the double `m · 2 ^ e`. -/
def shortest (m : Nat) (e : Int) : Decimal :=
  let s := Neighbourhood.ofParts m e
  let lead := leadingExponent s.value s.den
  ((List.range maxDigits).findSome? fun (i : Nat) => s.onGrid? (lead - i)).getD
    (ofRatio s.value s.den (maxDigits - 1))

end Decimal

namespace Double

def signText (s : Float.Model.UnpackedFloat.Sign) : List Char :=
  match s with
  | .negative => ['-']
  | .positive => []

/-- **The shortest text** that reads back as the same double, never with an exponent. -/
def text (x : Float) : String :=
  match parts x with
  | .notANumber => "NaN"
  | .infinity s => String.ofList (signText s ++ "inf".toList)
  | .zero s => String.ofList (signText s ++ ['0'])
  | .finite s m e _ =>
    String.ofList (signText s ++ (Decimal.shortest m e).positional Decimal.trimZeros)

end Double

end Calculator
