import Calculator.Angle
import Calculator.Arithmetic

/-!
# The gamma function

The approximation of Lanczos with `g = 7` and nine coefficients, for arguments from one half on.
Below, the reflection formula `Γ(z) Γ(1 - z) = π / sin (πz)` leads back to it: `1 - z` is then not
below one half.
-/

namespace Calculator.Gamma

/-- The coefficient that stands alone, and those of the fractions `c / (z - 1 + i)`. -/
def constantTerm : Float := 0.9999999999998099

def coefficients : List Float :=
  [676.5203681218851, -1259.1392167224028, 771.3234287776531, -176.6150291621406,
   12.507343278686905, -0.13857109526572012, 9.984369578019572e-6, 1.5056327351493116e-7]

/-- The constant term plus the fractions, added from the first on. -/
def series (x : Float) : Float :=
  coefficients.zipIdx.foldl (fun acc (c, i) => acc + c / (x + Double.ofNat (i + 1))) constantTerm

/-- `√(2π) · t ^ (z - 1/2) · exp (-t) · series`, where `t = z + 13/2`. The power is split in two
halves, so that it does not overflow before the exponential scales it down. -/
def lanczos (z : Float) : Float :=
  let x := z - 1.0
  let t := x + 7.0 + 0.5
  let halfPower := t.pow ((x + 0.5) / 2.0)
  (6.283185307179586 : Float).sqrt * halfPower * (halfPower * (-t).exp) * series x

/-- The gamma function away from its poles. -/
def extended (z : Float) : Float :=
  if z < 0.5 then pi / ((pi * z).sin * lanczos (1.0 - z)) else lanczos z

/-- **The gamma function.** Its poles are zero and the negative integers. -/
def gamma (z : Float) : Outcome Float :=
  if z ≤ 0.0 && Double.isIntegral z then .error .domainError else checked (extended z)

end Calculator.Gamma
