import Calculator.Decimal

/-!
# Reading numerals

A numeral is digits with an optional point, at least one digit in all, then an optional exponent:
`e` or `E`, an optional sign, and at least one digit. `read?` reads a text that is a numeral,
`readPrefix?` the longest numeral that a text starts with, so an exponent without a digit is left
aside.
-/

namespace Calculator.Decimal

/-- The number that a run of digits denotes. -/
def ofDigits (ds : List Char) : Nat := Nat.ofDigitChars 10 ds 0

def isExponentMark (c : Char) : Bool := c == 'e' || c == 'E'

/-- The digits after the point that a text starts with, and the text after them. -/
def readFraction : List Char → List Char × List Char
  | '.' :: cs => cs.span Char.isDigit
  | cs => ([], cs)

/-! ### Texts that are numerals -/

/-- Reads a text of digits, of which there has to be one. -/
def readDigits? (ds : List Char) : Option Nat :=
  if !ds.isEmpty && ds.all Char.isDigit then some (ofDigits ds) else none

/-- Reads a text that is an exponent, zero if it is empty. -/
def readExponent? : List Char → Option Int
  | mark :: cs =>
    if isExponentMark mark then
      match cs with
      | '-' :: ds => (readDigits? ds).map fun n => -n
      | '+' :: ds => (readDigits? ds).map fun n => n
      | ds => (readDigits? ds).map fun n => n
    else none
  | [] => some 0

/-- **Reads a text that is a numeral**, as a decimal. -/
def read? (cs : List Char) : Option Decimal :=
  let (whole, cs) := cs.span Char.isDigit
  let (fraction, cs) := readFraction cs
  if whole.isEmpty && fraction.isEmpty then none
  else (readExponent? cs).map fun e => ⟨ofDigits (whole ++ fraction), e - fraction.length⟩

/-! ### Texts that start with numerals -/

/-- The exponent that a text starts with, zero if there is none. -/
def readExponent : List Char → Int
  | mark :: cs =>
    if isExponentMark mark then
      match cs with
      | '-' :: ds => -ofDigits (ds.takeWhile Char.isDigit)
      | '+' :: ds => ofDigits (ds.takeWhile Char.isDigit)
      | ds => ofDigits (ds.takeWhile Char.isDigit)
    else 0
  | [] => 0

/-- **The longest numeral that a text starts with**, as a decimal. -/
def readPrefix? (cs : List Char) : Option Decimal :=
  let (whole, cs) := cs.span Char.isDigit
  let (fraction, cs) := readFraction cs
  if whole.isEmpty && fraction.isEmpty then none
  else some ⟨ofDigits (whole ++ fraction), readExponent cs - fraction.length⟩

end Calculator.Decimal
