import Calculator.Fault

/-!
# Rejections

An expression is rejected for a cause at a place. The cause decides the flaw that it counts as and
the message that it is reported with.
-/

namespace Calculator

/-- Why an expression is rejected. -/
inductive Cause
  /-- There is no token at all. -/
  | emptyExpression
  /-- A complete expression is followed by something. -/
  | afterExpression (text : String)
  /-- A number has no digit. -/
  | malformedNumber (text : String)
  /-- A number is too large for a double. -/
  | numberOutOfRange (text : String)
  | unknownCharacter (text : String)
  | unknownFunction (name : String)
  | unknownVariable (name : String)
  /-- The text ends where an operand should start. -/
  | unexpectedEnd
  /-- A token stands where an operand should start. -/
  | unexpectedToken (text : String)
  /-- The name of a function is not followed by a parenthesis. -/
  | missingOpening (name : String)
  | missingClosing
  /-- A call goes beyond the limit on its arguments. -/
  | argumentLimit (limit : Nat)
  /-- An operation has no value. -/
  | operation (flaw : Flaw)
  /-- A call has no value. -/
  | call (flaw : Flaw) (name : String)
  /-- A flaw with a message of its own. -/
  | stated (flaw : Flaw) (message : String)
deriving DecidableEq, Repr

namespace Cause

/-- What a cause counts as. -/
def flaw : Cause → Flaw
  | emptyExpression | afterExpression _ | malformedNumber _ => .invalidSyntax
  | numberOutOfRange _ => .domainError
  | unknownCharacter _ => .invalidCharacter
  | unknownFunction _ => .invalidFunction
  | unknownVariable _ | unexpectedEnd | unexpectedToken _ | missingOpening _ => .invalidSyntax
  | missingClosing => .mismatchedParentheses
  | argumentLimit _ => .tooManyArguments
  | operation flaw | call flaw _ | stated flaw _ => flaw

def message : Cause → String
  | emptyExpression => "Empty expression"
  | afterExpression text => "Unexpected '" ++ text ++ "' after expression"
  | malformedNumber text => "Malformed number '" ++ text ++ "'"
  | numberOutOfRange text => "Number '" ++ text ++ "' is out of range"
  | unknownCharacter text => "Invalid character '" ++ text ++ "'"
  | unknownFunction name => "Unknown function '" ++ name ++ "'"
  | unknownVariable name => "Unknown variable '" ++ name ++ "'"
  | unexpectedEnd => "Unexpected end of expression"
  | unexpectedToken text => "Unexpected '" ++ text ++ "'"
  | missingOpening name => "Expected '(' after '" ++ name ++ "'"
  | missingClosing => "Expected ')'"
  | argumentLimit limit => "At most " ++ limit.repr ++ " arguments are allowed"
  | operation flaw => flaw.text
  | call flaw name => flaw.text ++ " in '" ++ name ++ "'"
  | stated _ message => message

end Cause

/-- **A rejection**: the cause, and the byte of the text that it is found at. -/
structure Rejection where
  cause : Cause
  position : Nat
deriving DecidableEq, Repr

namespace Rejection

def flaw (r : Rejection) : Flaw := r.cause.flaw

def message (r : Rejection) : String := r.cause.message

def report (r : Rejection) : String :=
  "Error at offset " ++ r.position.repr ++ ": " ++ r.message

end Rejection

end Calculator
