import Calculator.Display
import Calculator.Expression

/-!
# Sessions

A session evaluates one expression after the other. It keeps the memory register, the last result,
the unit of angles, the precision of the display and the last expression that was submitted; each
operation gives the session after it.
-/

namespace Calculator

/-- The most bytes that are kept of an expression. -/
def maxExpressionSize : Nat := 511

/-- Why an expression has no value in a session. -/
structure Failure where
  fault : Fault
  message : String
  expression : String
deriving DecidableEq, Repr

namespace Failure

/-- A failure that there is no more to say about. -/
def ofFault (fault : Fault) (expression : String) : Failure := ⟨fault, fault.text, expression⟩

/-- An expression that was rejected. -/
def ofRejection (rejection : Rejection) (expression : String) : Failure :=
  ⟨.parseError, rejection.message, expression⟩

def report (f : Failure) : String := "ERROR: " ++ f.fault.text

end Failure

/-- The longest part in front that has at most `size` bytes. -/
def takeBytes : Nat → List Char → List Char
  | size, c :: cs => if c.utf8Size ≤ size then c :: takeBytes (size - c.utf8Size) cs else []
  | _, [] => []

/-- Between two characters, or at an end of the text. -/
def isBoundary : List Char → Nat → Bool
  | _, 0 => true
  | [], _ + 1 => false
  | c :: cs, byte => c.utf8Size ≤ byte && isBoundary cs (byte - c.utf8Size)

/-- The last boundary that is not after a byte. -/
def boundaryUpTo (cs : List Char) : Nat → Nat
  | 0 => 0
  | byte + 1 => if isBoundary cs (byte + 1) then byte + 1 else boundaryUpTo cs byte

/-- **What is kept of an expression**: all of it, if it is not too long, and otherwise the part
before the last boundary that is not too far behind. -/
def truncate (expression : String) : String :=
  if expression.utf8ByteSize ≤ maxExpressionSize then expression
  else
    let cs := expression.toList
    String.ofList (takeBytes (boundaryUpTo cs maxExpressionSize) cs)

/-- **A session.** -/
structure Session extends Environment where
  precision : Nat := 10
  lastExpression : String := ""
deriving BEq

namespace Session

def new : Session := {}

/-- **Evaluates an expression.** The empty one is no input and leaves no trace. Any other is kept as
the last expression, up to its maximal size, and its value, if there is one, as the last result. -/
def evaluate (s : Session) (expression : String) : Except Failure Float × Session :=
  if expression.isEmpty then (.error (.ofFault .invalidInput expression), s)
  else
    let kept := truncate expression
    match Calculator.evaluate s.toEnvironment expression with
    | .ok value => (.ok value, { s with lastExpression := kept, lastResult := value })
    | .error rejection =>
      (.error (.ofRejection rejection expression), { s with lastExpression := kept })

theorem evaluate_empty (s : Session) :
    s.evaluate "" = (.error (.ofFault .invalidInput ""), s) := rfl

theorem memory_evaluate (s : Session) (e : String) : (s.evaluate e).2.memory = s.memory := by
  unfold evaluate
  split
  · rfl
  · split <;> rfl

theorem angleUnit_evaluate (s : Session) (e : String) :
    (s.evaluate e).2.angleUnit = s.angleUnit := by
  unfold evaluate
  split
  · rfl
  · split <;> rfl

theorem precision_evaluate (s : Session) (e : String) :
    (s.evaluate e).2.precision = s.precision := by
  unfold evaluate
  split
  · rfl
  · split <;> rfl

/-- The text of a result in the precision of the session, if there is one. -/
def format? (s : Session) (x : Float) : Option String := Double.display? x s.precision

/-- The same with any number of places. -/
def format (s : Session) (x : Float) : String := Double.display x s.precision

/-! ### Memory and settings -/

def memoryStore (s : Session) (x : Float) : Session := { s with memory := x }

def memoryAdd (s : Session) (x : Float) : Session := { s with memory := s.memory + x }

def memorySubtract (s : Session) (x : Float) : Session := { s with memory := s.memory - x }

def memoryClear (s : Session) : Session := { s with memory := 0.0 }

def setAngleUnit (s : Session) (unit : AngleUnit) : Session := { s with angleUnit := unit }

def setPrecision (s : Session) (precision : Nat) : Session := { s with precision := precision }

/-- Back to a new session. -/
def reset (_ : Session) : Session := new

end Session

end Calculator
