import Calculator.Double.CubeRoot
import Calculator.Double.Integral
import Calculator.Fault

/-!
# Guarded arithmetic

Operations on doubles that either give a finite number or say why there is none. A result that is
infinite or NaN never leaves them: `checked` turns it into an overflow.
-/

namespace Calculator

/-- **The guard of every primitive**: a finite result passes, any other is an overflow. -/
def checked (x : Float) : Outcome Float := if x.isFinite then .ok x else .error .overflow

namespace Arithmetic

def add (a b : Float) : Outcome Float := checked (a + b)

def subtract (a b : Float) : Outcome Float := checked (a - b)

def multiply (a b : Float) : Outcome Float := checked (a * b)

def divide (a b : Float) : Outcome Float :=
  if b == 0.0 then .error .divisionByZero else checked (a / b)

/-- The remainder of a division toward zero, with the sign of `a`. -/
def modulo (a b : Float) : Outcome Float :=
  if b == 0.0 then .error .divisionByZero else checked (Double.remainder a b)

/-- A power. Zero has no negative powers, and a negative base only integral ones. -/
def power (base exponent : Float) : Outcome Float :=
  if base == 0.0 && exponent < 0.0 then .error .divisionByZero
  else if base < 0.0 && !Double.isIntegral exponent then .error .domainError
  else checked (base.pow exponent)

def sqrt (x : Float) : Outcome Float :=
  if x < 0.0 then .error .domainError else checked x.sqrt

def cbrt (x : Float) : Outcome Float := checked (Double.cbrt x)

/-- The `n`-th root. An odd root of a negative number is negative, an even one does not exist. -/
def nthRoot (x : Float) (n : Int64) : Outcome Float :=
  if n = 0 then .error .divisionByZero
  else if n % 2 = 0 && x < 0.0 then .error .domainError
  else
    let exponent := 1.0 / Double.ofInt n.toInt
    checked (if x < 0.0 then -(-x).pow exponent else x.pow exponent)

def abs (x : Float) : Outcome Float := checked x.abs

def floor (x : Float) : Outcome Float := checked (Double.floor x)

def ceil (x : Float) : Outcome Float := checked (Double.ceil x)

def round (x : Float) : Outcome Float := checked (Double.round x)

/-- The smaller number. A NaN is ignored, and of two equal numbers the second is given. -/
def min (a b : Float) : Outcome Float := checked (if a.isNaN || b ≤ a then b else a)

/-- The larger number. A NaN is ignored, and of two equal numbers the second is given. -/
def max (a b : Float) : Outcome Float := checked (if a.isNaN || a ≤ b then b else a)

end Arithmetic

end Calculator
