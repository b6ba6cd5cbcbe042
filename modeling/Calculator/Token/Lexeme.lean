import Calculator.Decimal.Numeral
import Calculator.Token

/-!
# Lexemes

The piece of text that makes the next token is the longest one of its class:

* a *number* is digits with an optional point and more digits, or a point and optional digits, then
  optionally `e` or `E`, an optional sign and optional digits (`numberLength`);
* a *word* is letters and digits, the first a letter; `_`, `√`, `π` and `φ` count as letters
  (`wordLength`);
* any other piece is one character.

A length is zero where no piece of the class starts. The kind of a token is read off its piece
(`TokenKind.ofLexeme`).
-/

namespace Calculator.Lexeme

/-- The characters between tokens. -/
def isBlank (c : Char) : Bool :=
  c == ' ' || c == '\t' || c == '\r' || c == '\n' || c == '\x0c'

def isLetter (c : Char) : Bool := c.isAlpha || c == '_' || c == '√' || c == 'π' || c == 'φ'

def isWordChar (c : Char) : Bool := isLetter c || c.isDigit

/-- The length of the run of digits that a text starts with. -/
def digitsLength (cs : List Char) : Nat := (cs.takeWhile Char.isDigit).length

/-- The length of a point and the digits after it. -/
def fractionLength : List Char → Nat
  | '.' :: cs => digitsLength cs + 1
  | _ => 0

/-- The length of an exponent mark, a sign and digits, the last two of which may be missing. -/
def exponentLength : List Char → Nat
  | mark :: cs =>
    if Decimal.isExponentMark mark then
      match cs with
      | '-' :: ds => digitsLength ds + 2
      | '+' :: ds => digitsLength ds + 2
      | ds => digitsLength ds + 1
    else 0
  | [] => 0

/-- The length of the number that a text starts with. -/
def numberLength (cs : List Char) : Nat :=
  let whole := digitsLength cs
  let mantissa := whole + fractionLength (cs.drop whole)
  if mantissa = 0 then 0 else mantissa + exponentLength (cs.drop mantissa)

/-- The length of the word that a text starts with. -/
def wordLength : List Char → Nat
  | c :: cs => if isLetter c then (cs.takeWhile isWordChar).length + 1 else 0
  | [] => 0

/-! A piece does not reach beyond the text. -/

theorem digitsLength_le (cs : List Char) : digitsLength cs ≤ cs.length :=
  (List.takeWhile_sublist _).length_le

theorem fractionLength_le (cs : List Char) : fractionLength cs ≤ cs.length := by
  unfold fractionLength
  split
  · simpa using digitsLength_le _
  · exact Nat.zero_le _

theorem exponentLength_le (cs : List Char) : exponentLength cs ≤ cs.length := by
  unfold exponentLength
  split
  · split
    · split <;> simpa using digitsLength_le _
    · exact Nat.zero_le _
  · exact Nat.zero_le _

theorem numberLength_le (cs : List Char) : numberLength cs ≤ cs.length := by
  have h1 := digitsLength_le cs
  have h2 := fractionLength_le (cs.drop (digitsLength cs))
  have h3 := exponentLength_le
    (cs.drop (digitsLength cs + fractionLength (cs.drop (digitsLength cs))))
  simp only [List.length_drop] at h2 h3
  simp only [numberLength]
  split <;> omega

theorem wordLength_le (cs : List Char) : wordLength cs ≤ cs.length := by
  unfold wordLength
  split
  · split
    · simpa using (List.takeWhile_sublist _).length_le
    · exact Nat.zero_le _
  · exact Nat.zero_le _

/-- **The length of the next lexeme** of a text that does not start with a blank. At most one of the
two classes has a piece there. -/
def length (cs : List Char) : Nat :=
  if 0 < numberLength cs then numberLength cs
  else if 0 < wordLength cs then wordLength cs
  else 1

theorem length_pos (cs : List Char) : 0 < length cs := by
  unfold length
  split
  · assumption
  · split
    · assumption
    · exact Nat.one_pos

theorem length_le {cs : List Char} (h : cs ≠ []) : length cs ≤ cs.length := by
  have := List.length_pos_iff.2 h
  unfold length
  split
  · exact numberLength_le cs
  · split
    · exact wordLength_le cs
    · omega

/-- The part of a number in front of the exponent mark. -/
def mantissa (cs : List Char) : List Char := cs.takeWhile fun c => !Decimal.isExponentMark c

/-- **The value of a number**: what it says if it is a numeral, else what its mantissa says, which is
a numeral unless it has no digit; then the value is zero. -/
def numberValue (cs : List Char) : Float :=
  match (Decimal.read? cs).or (Decimal.read? (mantissa cs)) with
  | some d => d.toFloat
  | none => 0.0

end Lexeme

namespace TokenKind

open Lexeme

/-- What a word names. -/
def ofWord (name : String) : TokenKind :=
  match Function.ofName? name, Constant.ofName? name with
  | some f, _ => .function f
  | none, some c => .constant c
  | none, none => .variable

/-- What a single character is. -/
def ofChar (c : Char) : TokenKind :=
  match c with
  | '(' => .leftParen
  | ')' => .rightParen
  | ',' => .comma
  | _ =>
    match Operator.ofSymbol? c with
    | some op => .operator op
    | none => .unknown

/-- **The kind of a lexeme**, which depends on nothing else. -/
def ofLexeme (cs : List Char) : TokenKind :=
  if 0 < numberLength cs then .number (numberValue cs)
  else if 0 < wordLength cs then ofWord (String.ofList cs)
  else
    match cs with
    | [c] => ofChar c
    | _ => .unknown

end Calculator.TokenKind
