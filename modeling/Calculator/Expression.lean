import Calculator.Cursor
import Calculator.Function.Apply

/-!
# Evaluating expressions

An expression is evaluated while it is read, from the left, by one rule per line of the grammar:

    expression := term (('+' | '-') term)*
    term       := factor (('*' | '/' | '%') factor)*
    factor     := primary ('^' primary)*
    primary    := number | constant | register | ('+' | '-') primary | '(' expression ')'
                | function '(' arguments
    arguments  := ')' | expression (',' expression)* ')'

* `chain` reads the first three: operands of one `Level`, folded from the left, also those of `^`;
* `primaryOf` reads a primary, given the rule for the ones inside it; `primaryWithin` closes the
  circle. Its bound is a number of tokens not less than what is ahead of the cursor, so that it cuts
  nothing off: with no token ahead there is nothing to read;
* `evaluate` is the value of a whole text. Besides the text, it depends on two registers and on the
  unit of angles, the `Environment`.
-/

namespace Calculator

/-- **The registers and the unit of angles.** -/
structure Environment where
  memory : Float := 0.0
  lastResult : Float := 0.0
  angleUnit : AngleUnit := .degrees
deriving BEq

/-- The register that a name stands for. -/
def Environment.lookup? (env : Environment) (name : String) : Option Float :=
  match name with
  | "M" | "mem" => some env.memory
  | "ans" | "ANS" => some env.lastResult
  | _ => none

/-! ### Operators -/

/-- The levels of binding, the loosest first. -/
inductive Level
  | sum
  | product
  | power
deriving DecidableEq, Repr

def Operator.level : Operator → Level
  | add | sub => .sum
  | mul | div | mod => .product
  | pow => .power

/-- **An operator between two numbers.** A power that is not finite is a domain error. -/
def Operator.apply (op : Operator) (a b : Float) : Except Flaw Float :=
  match op with
  | add => (Arithmetic.add a b).narrow
  | sub => (Arithmetic.subtract a b).narrow
  | mul => (Arithmetic.multiply a b).narrow
  | div => (Arithmetic.divide a b).narrow
  | mod => (Arithmetic.modulo a b).narrow
  | pow => if (a.pow b).isFinite then .ok (a.pow b) else .error .domainError

/-- The operator that a token is, if it is one of the given level. -/
def Token.operatorAt? (token : Token) (level : Level) : Option Operator :=
  match token.kind with
  | .operator op => if op.level = level then some op else none
  | _ => none

namespace Rule

/-! ### Operands and their operators -/

/-- The operators of a level with their right operands, folded onto `left`; at most `bound` of
them. -/
def chainFrom (level : Level) (operand : Rule Float) : Nat → Float → Rule Float
  | 0, left => pure left
  | bound + 1, left => do
    let token ← peek
    match token.operatorAt? level with
    | none => return left
    | some op =>
      skip
      let right ← operand
      match op.apply left right with
      | .ok value => chainFrom level operand bound value
      | .error flaw => rejectAt token.offset (.operation flaw)

/-- **Operands of one level**, folded from the left. -/
def chain (level : Level) (operand : Rule Float) : Rule Float := do
  let first ← operand
  chainFrom level operand (← get).ahead.length first

def factorOf (primary : Rule Float) : Rule Float := chain .power primary

def termOf (primary : Rule Float) : Rule Float := chain .product (factorOf primary)

def expressionOf (primary : Rule Float) : Rule Float := chain .sum (termOf primary)

/-! ### Calls -/

/-- Steps over a closing parenthesis. -/
def closing : Rule Unit := do
  if (← peek).kind = .rightParen then skip else reject .missingClosing

/-- The most arguments that a call can have. -/
def maxArguments : Nat := 10

/-- The arguments that follow those in `before`, of which there is `room` for more, and the closing
parenthesis. -/
def argumentsFrom (expression : Rule Float) : Nat → List Float → Rule (List Float)
  | 0, _ => reject (.argumentLimit maxArguments)
  | room + 1, before => do
    let value ← expression
    if (← peek).kind = .comma then
      skip
      argumentsFrom expression room (before ++ [value])
    else
      closing
      return before ++ [value]

/-- What stands after the opening parenthesis of a call. -/
def argumentsOf (expression : Rule Float) : Rule (List Float) := do
  if (← peek).kind = .rightParen then
    skip
    return []
  else argumentsFrom expression maxArguments []

/-- A call of `f`, whose name is the current token. -/
def callOf (env : Environment) (expression : Rule Float) (f : Function) : Rule Float := do
  let name ← peek
  skip
  if (← peek).kind = .leftParen then
    skip
    let args ← argumentsOf expression
    match f.apply args env.angleUnit with
    | .ok value => return value
    | .error flaw => rejectAt name.offset (.call flaw f.name)
  else reject (.missingOpening f.name)

/-! ### Primaries -/

/-- A number, which has to have a digit and to be in the range of doubles. -/
def literal (token : Token) (value : Float) : Rule Float :=
  if !token.text.toList.any Char.isDigit then reject (.malformedNumber token.text)
  else if !value.isFinite then reject (.numberOutOfRange token.text)
  else do
    skip
    return value

/-- A register. Any other name is rejected, as a function if it is used like one. -/
def register (env : Environment) (name : Token) : Rule Float := do
  skip
  match env.lookup? name.text with
  | some value => return value
  | none =>
    if (← peek).kind = .leftParen then rejectAt name.offset (.unknownFunction name.text)
    else rejectAt name.offset (.unknownVariable name.text)

/-- **A primary**, the ones inside it read by `primary`. A sign belongs to the primary after it, so
it is applied before any `^`. -/
def primaryOf (env : Environment) (primary : Rule Float) : Rule Float := do
  let token ← peek
  match token.kind with
  | .number value => literal token value
  | .constant c =>
    skip
    return c.value
  | .variable => register env token
  | .operator .sub =>
    skip
    let value ← primary
    return -value
  | .operator .add =>
    skip
    primary
  | .leftParen =>
    skip
    let value ← expressionOf primary
    closing
    return value
  | .function f => callOf env (expressionOf primary) f
  | .unknown => reject (.unknownCharacter token.text)
  | .finish => reject .unexpectedEnd
  | .operator _ | .rightParen | .comma => reject (.unexpectedToken token.text)

/-- A primary, where at most `bound` tokens are ahead. -/
def primaryWithin (env : Environment) : Nat → Rule Float
  | 0 => reject .unexpectedEnd
  | bound + 1 => primaryOf env (primaryWithin env bound)

/-! ### The rules of the grammar -/

variable (env : Environment)

def primary : Rule Float := do primaryWithin env (← get).ahead.length

def factor : Rule Float := do factorOf (primaryWithin env (← get).ahead.length)

def term : Rule Float := do termOf (primaryWithin env (← get).ahead.length)

def expression : Rule Float := do expressionOf (primaryWithin env (← get).ahead.length)

def arguments : Rule (List Float) := do
  argumentsOf (expressionOf (primaryWithin env (← get).ahead.length))

def call (f : Function) : Rule Float := do
  callOf env (expressionOf (primaryWithin env (← get).ahead.length)) f

/-- An expression with nothing after it. -/
def complete : Rule Float := do
  if (← peek).kind = .finish then reject .emptyExpression
  else
    let value ← expression env
    let next ← peek
    if next.kind = .finish then return value else reject (.afterExpression next.text)

end Rule

/-- **The value of a text**, or the first reason why it has none. -/
def evaluate (env : Environment) (source : String) : Except Rejection Float :=
  match (Rule.complete env).run (.ofString source) with
  | .ok value _ => .ok value
  | .error rejection _ => .error rejection

end Calculator
