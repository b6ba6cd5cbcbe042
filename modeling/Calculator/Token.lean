import Calculator.Constant
import Calculator.Function

/-!
# Tokens

An expression is a sequence of tokens, each a piece of the text (`text`) at a place in it (`offset`,
counted in bytes of UTF-8) with a kind that follows from the piece alone.
-/

namespace Calculator

/-- The operators between two operands. -/
inductive Operator
  | add
  | sub
  | mul
  | div
  | mod
  | pow
deriving DecidableEq, Repr

namespace Operator

def symbol : Operator → Char
  | add => '+'
  | sub => '-'
  | mul => '*'
  | div => '/'
  | mod => '%'
  | pow => '^'

def all : List Operator := [add, sub, mul, div, mod, pow]

theorem mem_all (op : Operator) : op ∈ all := by cases op <;> decide

/-- The operator with a symbol. -/
def ofSymbol? (c : Char) : Option Operator := all.find? fun op => op.symbol == c

theorem ofSymbol?_symbol (op : Operator) : ofSymbol? op.symbol = some op := by
  cases op <;> decide

end Operator

/-- **What a token is.** A `variable` is a name of no function or constant, `finish` the end of the
text, and `unknown` a character that no token starts with. -/
inductive TokenKind
  | number (value : Float)
  | operator (op : Operator)
  | function (f : Function)
  | constant (c : Constant)
  | variable
  | leftParen
  | rightParen
  | comma
  | finish
  | unknown
deriving DecidableEq

/-- **A token**: its kind, its text and the byte at which the text starts. -/
structure Token where
  kind : TokenKind
  text : String
  offset : Nat
deriving DecidableEq

namespace Token

/-- The token after the last one of a text of `size` bytes. -/
def finish (size : Nat) : Token := ⟨.finish, "", size⟩

/-- The byte after the token. -/
def stop (t : Token) : Nat := t.offset + t.text.utf8ByteSize

/-- The value that a number or a constant stands for. -/
def value? (t : Token) : Option Float :=
  match t.kind with
  | .number value => some value
  | .constant c => some c.value
  | _ => none

end Token

end Calculator
