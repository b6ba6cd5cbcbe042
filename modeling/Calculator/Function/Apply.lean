import Calculator.Function
import Calculator.Gamma
import Calculator.Logarithm
import Calculator.Trigonometry
import Calculator.Whole

/-!
# Applying functions

Each function is computed by its primitive; functions on integers drop the fractional part of their
arguments. `Function.apply` checks the number of arguments and narrows the fault of the primitive.
-/

namespace Calculator

open Whole (ofDouble)

/-- The value of a function of one argument, angles in the given unit. `log` is the natural
logarithm, like `ln`. -/
def UnaryFunction.apply (f : UnaryFunction) (x : Float) (unit : AngleUnit) : Outcome Float :=
  match f with
  | sin => Trigonometry.sin x unit
  | cos => Trigonometry.cos x unit
  | tan => Trigonometry.tan x unit
  | sec => Trigonometry.sec x unit
  | csc => Trigonometry.csc x unit
  | cot => Trigonometry.cot x unit
  | asin => Trigonometry.asin x unit
  | acos => Trigonometry.acos x unit
  | atan => Trigonometry.atan x unit
  | asec => Trigonometry.asec x unit
  | acsc => Trigonometry.acsc x unit
  | acot => Trigonometry.acot x unit
  | sinh => Hyperbolic.sinh x
  | cosh => Hyperbolic.cosh x
  | tanh => Hyperbolic.tanh x
  | sech => Hyperbolic.sech x
  | csch => Hyperbolic.csch x
  | coth => Hyperbolic.coth x
  | asinh => Hyperbolic.asinh x
  | acosh => Hyperbolic.acosh x
  | atanh => Hyperbolic.atanh x
  | log => Logarithm.ln x
  | ln => Logarithm.ln x
  | log10 => Logarithm.log10 x
  | log2 => Logarithm.log2 x
  | exp => Logarithm.exp x
  | exp10 => Logarithm.exp10 x
  | exp2 => Logarithm.exp2 x
  | sqrt => Arithmetic.sqrt x
  | cbrt => Arithmetic.cbrt x
  | abs => Arithmetic.abs x
  | floor => Arithmetic.floor x
  | ceil => Arithmetic.ceil x
  | round => Arithmetic.round x
  | factorial => do Combinatorics.factorial (← ofDouble x)
  | gamma => Gamma.gamma x

/-- The value of a function of two arguments; `atan2` takes the ordinate first. -/
def BinaryFunction.apply (f : BinaryFunction) (x y : Float) (unit : AngleUnit) : Outcome Float :=
  match f with
  | power => Arithmetic.power x y
  | root => do Arithmetic.nthRoot x (← ofDouble y)
  | modulo => Arithmetic.modulo x y
  | logBase => Logarithm.logBase x y
  | atan2 => Trigonometry.atan2 x y unit
  | permutation => do Combinatorics.permutation (← ofDouble x) (← ofDouble y)
  | combination => do Combinatorics.combination (← ofDouble x) (← ofDouble y)
  | gcd => do Divisor.gcd (← ofDouble x) (← ofDouble y)
  | lcm => do Divisor.lcm (← ofDouble x) (← ofDouble y)
  | min => Arithmetic.min x y
  | max => Arithmetic.max x y

/-- **A function call.** The number of arguments has to be the arity. -/
def Function.apply (f : Function) (args : List Float) (unit : AngleUnit) : Except Flaw Float :=
  match f, args with
  | unary f, [x] => (f.apply x unit).narrow
  | binary f, [x, y] => (f.apply x y unit).narrow
  | f, args => .error (if args.length < f.arity then .tooFewArguments else .tooManyArguments)

end Calculator
