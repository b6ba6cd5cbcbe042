import Calculator.Angle
import Calculator.Arithmetic

/-!
# Trigonometric and hyperbolic functions

The six trigonometric functions and their inverses, with angles in a chosen unit. Close to a pole a
function has no value: the tangent within `poleTolerance` of an odd multiple of π / 2, a reciprocal
where its denominator is smaller than `poleTolerance`.

The six hyperbolic functions, and the inverses of the first three. An inverse is taken where it is a
real number: `acosh` from 1 on, `atanh` strictly between -1 and 1. It is computed from square roots
and `ln (1 + x)`, so that it is out of range where the sum under the logarithm is.
-/

namespace Calculator

namespace Trigonometry

/-- How close to a pole is too close. -/
def poleTolerance : Float := 1e-15

def sin (x : Float) (unit : AngleUnit) : Outcome Float := checked (unit.toRadians x).sin

def cos (x : Float) (unit : AngleUnit) : Outcome Float := checked (unit.toRadians x).cos

/-- The tangent, away from the odd multiples of π / 2. -/
def tan (x : Float) (unit : AngleUnit) : Outcome Float :=
  let x := unit.toRadians x
  let turned := Double.remainder x pi
  if (turned - halfPi).abs < poleTolerance || (turned + halfPi).abs < poleTolerance then
    .error .domainError
  else checked x.tan

/-- `1 / x`, away from zero. -/
def reciprocal (x : Float) : Outcome Float :=
  if x.abs < poleTolerance then .error .domainError else checked (1.0 / x)

def sec (x : Float) (unit : AngleUnit) : Outcome Float := do reciprocal (← cos x unit)

def csc (x : Float) (unit : AngleUnit) : Outcome Float := do reciprocal (← sin x unit)

def cot (x : Float) (unit : AngleUnit) : Outcome Float := do reciprocal (← tan x unit)

/-! ### Inverses -/

def asin (x : Float) (unit : AngleUnit) : Outcome Float :=
  if -1.0 ≤ x && x ≤ 1.0 then checked (unit.ofRadians x.asin) else .error .domainError

def acos (x : Float) (unit : AngleUnit) : Outcome Float :=
  if -1.0 ≤ x && x ≤ 1.0 then checked (unit.ofRadians x.acos) else .error .domainError

def atan (x : Float) (unit : AngleUnit) : Outcome Float := checked (unit.ofRadians x.atan)

/-- The angle of the point with ordinate `y` and abscissa `x`. -/
def atan2 (y x : Float) (unit : AngleUnit) : Outcome Float := checked (unit.ofRadians (y.atan2 x))

def asec (x : Float) (unit : AngleUnit) : Outcome Float :=
  if x.abs < 1.0 then .error .domainError else acos (1.0 / x) unit

def acsc (x : Float) (unit : AngleUnit) : Outcome Float :=
  if x.abs < 1.0 then .error .domainError else asin (1.0 / x) unit

def acot (x : Float) (unit : AngleUnit) : Outcome Float :=
  if x == 0.0 then checked (unit.ofRadians halfPi) else atan (1.0 / x) unit

end Trigonometry

namespace Hyperbolic

def sinh (x : Float) : Outcome Float := checked x.sinh

def cosh (x : Float) : Outcome Float := checked x.cosh

def tanh (x : Float) : Outcome Float := checked x.tanh

def sech (x : Float) : Outcome Float := do checked (1.0 / (← cosh x))

def csch (x : Float) : Outcome Float :=
  if x == 0.0 then .error .divisionByZero else do checked (1.0 / (← sinh x))

def coth (x : Float) : Outcome Float :=
  if x == 0.0 then .error .divisionByZero else checked (1.0 / x.tanh)

/-! ### Inverses -/

/-- `ln (1 + x)`. Where the sum is rounded, its logarithm is scaled by how much of `x` was added. -/
def logOnePlus (x : Float) : Float :=
  let sum := 1.0 + x
  if sum == 1.0 then x
  else if sum.isFinite then sum.log * (x / (sum - 1.0))
  else sum.log

/-- The inverse of an odd function, from its values at positive numbers. -/
def odd (f : Float → Float) (x : Float) : Float := if Double.isNegative x then -f x.abs else f x.abs

/-- `ln (x + √(x² + 1))`, with a fraction that does not overflow with `x²`. -/
def inverseSinh (x : Float) : Float :=
  let inverse := 1.0 / x
  logOnePlus (x + x / (Double.hypot 1.0 inverse + inverse))

/-- `ln (x + √(x - 1) · √(x + 1))`, accurate also close to 1. -/
def inverseCosh (x : Float) : Float :=
  let above := x - 1.0
  logOnePlus (above + above.sqrt * (x + 1.0).sqrt)

/-- `ln ((1 + x) / (1 - x)) / 2`. -/
def inverseTanh (x : Float) : Float := 0.5 * logOnePlus (2.0 * x / (1.0 - x))

def asinh (x : Float) : Outcome Float := checked (odd inverseSinh x)

def acosh (x : Float) : Outcome Float :=
  if x < 1.0 then .error .domainError else checked (inverseCosh x)

def atanh (x : Float) : Outcome Float :=
  if 1.0 ≤ x.abs then .error .domainError else checked (odd inverseTanh x)

end Hyperbolic

end Calculator
