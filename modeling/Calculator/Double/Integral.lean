import Calculator.Double

/-!
# Rounding a double to a whole number

Each of the four roundings picks an integer for the exact fraction `n / d` of a double, where `d`
is a power of two (`toIntegral`); the result keeps the sign of the argument, also when it is zero.
-/

namespace Calculator.Double

/-- The whole number that `pick n d` chooses for a finite double of value `n / d`; a double without
a fractional part, and one that is not finite, stays as it is. -/
def toIntegral (pick : Int → Nat → Int) (x : Float) : Float :=
  match parts x with
  | .finite s m e _ => if 0 ≤ e then x else nearest (pick (s.apply m) (twoTo (-e))) 0 s
  | _ => x

/-- The integer nearest to `n / d`, a half going away from zero. -/
def halfAway (n : Int) (d : Nat) : Int := n.sign * ((2 * n.natAbs + d) / (2 * d) : Nat)

/-- Toward zero. -/
def trunc : Float → Float := toIntegral fun n d => n.tdiv d

/-- The largest whole number that is not greater. -/
def floor : Float → Float := toIntegral fun n d => n.fdiv d

/-- The smallest whole number that is not less. -/
def ceil : Float → Float := toIntegral fun n d => -(-n).fdiv d

/-- The nearest whole number, a half going away from zero. -/
def round : Float → Float := toIntegral halfAway

/-- Has no fractional part; infinities and NaN are no integers. -/
def isIntegral (x : Float) : Bool := x.isFinite && x == floor x

/-- The integer part of a finite double, toward zero. -/
def integerPart? (x : Float) : Option Int :=
  match parts x with
  | .zero _ => some 0
  | .finite s m e _ => some ((s.apply (m * twoTo e : Nat)).tdiv (twoTo (-e)))
  | _ => none

end Calculator.Double
