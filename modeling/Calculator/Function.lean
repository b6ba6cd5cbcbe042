/-!
# Functions and their names

The functions that an expression can call: those of one argument (`UnaryFunction`) and those of two
(`BinaryFunction`). Each has one name, and is found by it.
-/

namespace Calculator

/-- The functions of one argument. -/
inductive UnaryFunction
  | sin | cos | tan | sec | csc | cot
  | asin | acos | atan | asec | acsc | acot
  | sinh | cosh | tanh | sech | csch | coth
  | asinh | acosh | atanh
  | log | ln | log10 | log2 | exp | exp10 | exp2
  | sqrt | cbrt | abs | floor | ceil | round
  | factorial | gamma
deriving DecidableEq, Repr

/-- The functions of two arguments. -/
inductive BinaryFunction
  | power | root | modulo | logBase | atan2
  | permutation | combination | gcd | lcm
  | min | max
deriving DecidableEq, Repr

namespace UnaryFunction

def name : UnaryFunction → String
  | sin => "sin" | cos => "cos" | tan => "tan" | sec => "sec" | csc => "csc" | cot => "cot"
  | asin => "asin" | acos => "acos" | atan => "atan"
  | asec => "asec" | acsc => "acsc" | acot => "acot"
  | sinh => "sinh" | cosh => "cosh" | tanh => "tanh"
  | sech => "sech" | csch => "csch" | coth => "coth"
  | asinh => "asinh" | acosh => "acosh" | atanh => "atanh"
  | log => "log" | ln => "ln" | log10 => "log10" | log2 => "log2"
  | exp => "exp" | exp10 => "exp10" | exp2 => "exp2"
  | sqrt => "sqrt" | cbrt => "cbrt" | abs => "abs"
  | floor => "floor" | ceil => "ceil" | round => "round"
  | factorial => "factorial" | gamma => "gamma"

/-- All of them, in the order in which they are listed. -/
def all : List UnaryFunction :=
  [sin, cos, tan, sec, csc, cot, asin, acos, atan, asec, acsc, acot, sinh, cosh, tanh, sech, csch,
   coth, asinh, acosh, atanh, log, ln, log10, log2, exp, exp10, exp2, sqrt, cbrt, abs, floor, ceil,
   round, factorial, gamma]

theorem mem_all (f : UnaryFunction) : f ∈ all := by cases f <;> decide

/-- The function with a name. -/
def ofName? (name : String) : Option UnaryFunction := all.find? fun f => f.name == name

theorem ofName?_name (f : UnaryFunction) : ofName? f.name = some f := by
  cases f <;> decide +kernel

end UnaryFunction

namespace BinaryFunction

def name : BinaryFunction → String
  | power => "pow" | root => "nthrt" | modulo => "mod" | logBase => "logb" | atan2 => "atan2"
  | permutation => "perm" | combination => "comb" | gcd => "gcd" | lcm => "lcm"
  | min => "min" | max => "max"

/-- All of them, in the order in which they are listed. -/
def all : List BinaryFunction :=
  [power, root, modulo, logBase, atan2, permutation, combination, gcd, lcm, min, max]

theorem mem_all (f : BinaryFunction) : f ∈ all := by cases f <;> decide

/-- The function with a name. -/
def ofName? (name : String) : Option BinaryFunction := all.find? fun f => f.name == name

theorem ofName?_name (f : BinaryFunction) : ofName? f.name = some f := by
  cases f <;> decide +kernel

end BinaryFunction

/-- **A function** that an expression can call. -/
inductive Function
  | unary (f : UnaryFunction)
  | binary (f : BinaryFunction)
deriving DecidableEq, Repr

namespace Function

def name : Function → String
  | unary f => f.name
  | binary f => f.name

/-- The number of arguments that it takes. -/
def arity : Function → Nat
  | unary _ => 1
  | binary _ => 2

/-- The function with a name. -/
def ofName? (name : String) : Option Function :=
  (UnaryFunction.ofName? name).map unary <|> (BinaryFunction.ofName? name).map binary

theorem ofName?_name (f : Function) : ofName? f.name = some f := by
  cases f with
  | unary f => simp [ofName?, name, UnaryFunction.ofName?_name]
  | binary f => cases f <;> decide +kernel

/-- The names of all functions, those of one argument first. -/
def names : List String := UnaryFunction.all.map (·.name) ++ BinaryFunction.all.map (·.name)

end Function

end Calculator
