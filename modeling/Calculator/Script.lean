import Calculator.Session

/-!
# Scripts

A script has an expression per line. Lines that are blank and lines that start with `#` are passed
over; every other line is evaluated, in one session, and gives one line of output. The white space
around a line, characters with the Unicode property `White_Space`, does not count. A result without a
text ends the script.
-/

namespace Calculator

/-- The first and last code points of the runs of white space. -/
def whiteSpaceRuns : List (Nat × Nat) :=
  [(0x09, 0x0d), (0x20, 0x20), (0x85, 0x85), (0xa0, 0xa0), (0x1680, 0x1680), (0x2000, 0x200a),
   (0x2028, 0x2029), (0x202f, 0x202f), (0x205f, 0x205f), (0x3000, 0x3000)]

/-- Has the property `White_Space`. -/
def isWhiteSpace (c : Char) : Bool :=
  whiteSpaceRuns.any fun (first, last) => first ≤ c.toNat && c.toNat ≤ last

/-- The text without the white space at both ends. -/
def trim (cs : List Char) : List Char :=
  ((cs.dropWhile isWhiteSpace).reverse.dropWhile isWhiteSpace).reverse

namespace Script

/-- The pieces of a text between its line feeds. -/
def lines : List Char → List (List Char)
  | [] => [[]]
  | c :: cs =>
    match lines cs with
    | [] => [[c]]
    | line :: rest => if c = '\n' then [] :: line :: rest else (c :: line) :: rest

/-- Holds an expression. -/
def isExpression (line : List Char) : Bool := !line.isEmpty && line.head? != some '#'

/-- The expressions of a script, without the white space around them. -/
def expressions (script : String) : List String :=
  ((lines script.toList).map trim).filter isExpression |>.map String.ofList

/-- The answer to an expression, unless it has a result without a text, and the session after it. -/
def answer? (s : Session) (expression : String) : Option String × Session :=
  match s.evaluate expression with
  | (.ok value, s) => (s.format? value, s)
  | (.error failure, s) => (some failure.report, s)

/-- **What is printed**, line by line, and whether the end of the script is reached. -/
structure Transcript where
  lines : List String
  completed : Bool
deriving DecidableEq

namespace Transcript

/-- Printed before all that follows. -/
def cons (line : String) (t : Transcript) : Transcript := { t with lines := line :: t.lines }

/-- One transcript and then another, unless the first one is not completed. -/
def append (t u : Transcript) : Transcript :=
  if t.completed then { u with lines := t.lines ++ u.lines } else t

instance : Append Transcript := ⟨append⟩

end Transcript

/-- The answers to expressions that are evaluated one after the other. -/
def answers (s : Session) : List String → Transcript
  | [] => ⟨[], true⟩
  | expression :: rest =>
    match answer? s expression with
    | (some text, s) => (answers s rest).cons text
    | (none, _) => ⟨[], false⟩

/-- **The output of a script**, line by line. -/
def run (s : Session) (script : String) : Transcript := answers s (expressions script)

end Script

end Calculator
