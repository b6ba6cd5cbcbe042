/-!
# Faults and flaws

A computation that has no value ends in a `Fault`. Inside an expression only the difference between
a division by zero, an argument outside the domain and a function that cannot be called matters:
`Fault.toFlaw` narrows a fault to a `Flaw`, the kind of mistake that an expression is rejected for.
-/

namespace Calculator

/-- Why a computation has no value. -/
inductive Fault
  | invalidInput
  | divisionByZero
  | domainError
  | overflow
  | underflow
  | memoryError
  | invalidFunction
  | parseError
deriving DecidableEq, Repr

/-- The result of a numeric primitive. -/
abbrev Outcome (α : Type) := Except Fault α

/-- What an expression is rejected for. -/
inductive Flaw
  | invalidCharacter
  | mismatchedParentheses
  | invalidFunction
  | invalidSyntax
  | divisionByZero
  | domainError
  | tooManyArguments
  | tooFewArguments
deriving DecidableEq, Repr

namespace Fault

def text : Fault → String
  | invalidInput => "Invalid input"
  | divisionByZero => "Division by zero"
  | domainError => "Domain error"
  | overflow => "Overflow error"
  | underflow => "Underflow error"
  | memoryError => "Memory error"
  | invalidFunction => "Invalid function"
  | parseError => "Parse error"

/-- A fault as seen from an expression: a value out of range counts as a domain error. -/
def toFlaw : Fault → Flaw
  | divisionByZero => .divisionByZero
  | domainError | overflow | underflow => .domainError
  | invalidInput | memoryError | invalidFunction | parseError => .invalidFunction

end Fault

def Flaw.text : Flaw → String
  | invalidCharacter => "Invalid character"
  | mismatchedParentheses => "Mismatched parentheses"
  | invalidFunction => "Invalid function"
  | invalidSyntax => "Invalid syntax"
  | divisionByZero => "Division by zero"
  | domainError => "Domain error"
  | tooManyArguments => "Too many arguments"
  | tooFewArguments => "Too few arguments"

/-- The value of an outcome, its fault narrowed to a flaw. -/
def Outcome.narrow {α : Type} : Outcome α → Except Flaw α
  | .ok a => .ok a
  | .error f => .error f.toFlaw

namespace Outcome

variable {α : Type}

theorem narrow_eq_ok_iff {o : Outcome α} {a : α} : o.narrow = .ok a ↔ o = .ok a := by
  cases o <;> simp [narrow]

end Outcome

end Calculator
