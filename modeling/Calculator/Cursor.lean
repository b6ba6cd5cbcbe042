import Calculator.Rejection
import Calculator.Token.Stream

/-!
# Reading tokens by rules

A `Cursor` stands in front of a token. A `Rule` reads tokens from it and either gives a result or
rejects the expression; in both cases the cursor stays where the rule has left it.
-/

namespace Calculator

/-- **A place in a sequence of tokens**: the tokens that are still ahead, and the byte at which the
text ends. -/
structure Cursor where
  ahead : List Token
  size : Nat
deriving DecidableEq

namespace Cursor

/-- In front of the first token of a text. -/
def ofString (source : String) : Cursor := ⟨tokens source, source.utf8ByteSize⟩

/-- The token that the cursor stands in front of; behind the last one it is the end, for ever. -/
def current (c : Cursor) : Token := c.ahead.headD (.finish c.size)

/-- Steps over a token. -/
def advance (c : Cursor) : Cursor := { c with ahead := c.ahead.tail }

/-- The byte after the current token, up to which the text has been looked at. -/
def position (c : Cursor) : Nat := c.current.stop

theorem current_nil {c : Cursor} (h : c.ahead = []) : c.current = .finish c.size := by
  simp [current, h]

theorem ahead_advance (c : Cursor) : c.advance.ahead = c.ahead.tail := rfl

theorem size_advance (c : Cursor) : c.advance.size = c.size := rfl

end Cursor

/-- A piece of grammar: reads tokens and gives a result, or rejects. -/
abbrev Rule (α : Type) := EStateM Rejection Cursor α

namespace Rule

/-- The current token, which is left where it is. -/
def peek : Rule Token := do return (← get).current

/-- Steps over the current token. -/
def skip : Rule Unit := modify Cursor.advance

def rejectAt {α : Type} (position : Nat) (cause : Cause) : Rule α := throw ⟨cause, position⟩

/-- Rejects at the current token. -/
def reject {α : Type} (cause : Cause) : Rule α := do rejectAt (← peek).offset cause

end Rule

end Calculator
