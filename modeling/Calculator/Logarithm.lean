import Calculator.Arithmetic

/-!
# Logarithms and exponentials

A logarithm needs a positive argument and, where the base is given, a positive base other than 1.
-/

namespace Calculator.Logarithm

/-- Lets positive numbers pass. -/
def requirePositive (x : Float) : Outcome Float :=
  if 0.0 < x then .ok x else .error .domainError

def ln (x : Float) : Outcome Float := do checked (← requirePositive x).log

def log10 (x : Float) : Outcome Float := do checked (← requirePositive x).log10

def log2 (x : Float) : Outcome Float := do checked (← requirePositive x).log2

/-- The logarithm of `x` to the given base. -/
def logBase (x base : Float) : Outcome Float :=
  if base == 1.0 then .error .domainError
  else do
    let numerator := (← requirePositive x).log
    let denominator := (← requirePositive base).log
    checked (numerator / denominator)

def exp (x : Float) : Outcome Float := checked x.exp

def exp10 (x : Float) : Outcome Float := checked ((10.0 : Float).pow x)

def exp2 (x : Float) : Outcome Float := checked x.exp2

end Calculator.Logarithm
