import Calculator.Complex
import Calculator.Double.Text

/-!
# The text of a complex number

A part that is zero is left out, unless both are. The sign of the imaginary part stands between the
two parts.
-/

namespace Calculator.Complex

open Double (text)

protected def toString (a : Complex) : String :=
  if a.im == 0.0 then (if a.re == 0.0 then "0" else text a.re)
  else if a.re == 0.0 then text a.im ++ "i"
  else if 0.0 < a.im then text a.re ++ " + " ++ text a.im ++ "i"
  else text a.re ++ " - " ++ text (-a.im) ++ "i"

instance : ToString Complex := ⟨Complex.toString⟩

end Calculator.Complex
