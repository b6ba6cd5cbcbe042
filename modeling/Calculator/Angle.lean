/-!
# Angles

Trigonometric functions take their angles in a unit that the user chooses and compute in radians.
-/

namespace Calculator

/-- π, as a double. -/
def pi : Float := 3.141592653589793

/-- π / 2, as a double. -/
def halfPi : Float := 1.5707963267948966

/-- The unit of an angle; a full turn is 360 degrees or 2π radians. -/
inductive AngleUnit
  | degrees
  | radians
deriving DecidableEq, Repr

namespace AngleUnit

def degreesToRadians (x : Float) : Float := x * pi / 180.0

def radiansToDegrees (x : Float) : Float := x * 180.0 / pi

/-- An angle given in the unit, in radians. -/
def toRadians : AngleUnit → Float → Float
  | degrees, x => degreesToRadians x
  | radians, x => x

/-- An angle given in radians, in the unit. -/
def ofRadians : AngleUnit → Float → Float
  | degrees, x => radiansToDegrees x
  | radians, x => x

def text : AngleUnit → String
  | degrees => "DEG"
  | radians => "RAD"

end AngleUnit

end Calculator
