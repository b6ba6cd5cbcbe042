import Calculator.Angle

/-!
# Named constants

Six constants; three of them also have a name with a letter of their own.
-/

namespace Calculator

/-- The constants that an expression can name. -/
inductive Constant
  | pi
  | e
  | phi
  | sqrt2
  | ln2
  | ln10
deriving DecidableEq, Repr

namespace Constant

/-- The constant with a name. -/
def ofName? (name : String) : Option Constant :=
  match name with
  | "pi" | "π" => some pi
  | "e" => some e
  | "phi" | "φ" => some phi
  | "sqrt2" | "√2" => some sqrt2
  | "ln2" => some ln2
  | "ln10" => some ln10
  | _ => none

/-- The double nearest to the constant. -/
def value : Constant → Float
  | pi => Calculator.pi
  | e => 2.718281828459045
  | phi => 1.618033988749895
  | sqrt2 => 1.4142135623730951
  | ln2 => 0.6931471805599453
  | ln10 => 2.302585092994046

end Constant

end Calculator
