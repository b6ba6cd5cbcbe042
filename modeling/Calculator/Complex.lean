import Calculator.Angle
import Calculator.Double

/-!
# Complex numbers

Pairs of doubles. The operations never fail: what is out of range is infinite, and a quotient by
zero is infinite in both parts. Each part of a product, and of the numerator of a quotient, is a sum
of two products: the second one is rounded, and the first one is added to it without rounding.
-/

namespace Calculator

/-- A complex number. -/
structure Complex where
  re : Float
  im : Float

namespace Complex

def zero : Complex := ⟨0.0, 0.0⟩

def i : Complex := ⟨0.0, 1.0⟩

def ofReal (x : Float) : Complex := ⟨x, 0.0⟩

/-- The complex conjugate. -/
def conj (a : Complex) : Complex := ⟨a.re, -a.im⟩

instance : Neg Complex where
  neg a := ⟨-a.re, -a.im⟩

instance : Add Complex where
  add a b := ⟨a.re + b.re, a.im + b.im⟩

instance : Sub Complex where
  sub a b := ⟨a.re - b.re, a.im - b.im⟩

instance : Mul Complex where
  mul a b :=
    { re := Double.mulAdd a.re b.re (-(a.im * b.im))
      im := Double.mulAdd a.re b.im (a.im * b.re) }

/-- The square of the modulus, as a divisor uses it. -/
def squaredModulus (b : Complex) : Float := Double.mulAdd b.re b.re (b.im * b.im)

/-- A quotient; a divisor whose squared modulus is zero makes both parts infinite. -/
protected def div (a b : Complex) : Complex :=
  let d := b.squaredModulus
  if d == 0.0 then ⟨Double.infinity, Double.infinity⟩
  else
    { re := Double.mulAdd a.re b.re (a.im * b.im) / d
      im := Double.mulAdd a.im b.re (-(a.re * b.im)) / d }

instance : Div Complex := ⟨Complex.div⟩

/-- The modulus. -/
def magnitude (a : Complex) : Float := Double.hypot a.re a.im

/-- The argument, in a unit. -/
def phase (a : Complex) (unit : AngleUnit) : Float := unit.ofRadians (a.im.atan2 a.re)

end Complex

end Calculator
