import Calculator.Token.Lexeme

/-!
# The tokens of a text

`tokens` gives all tokens of a text in one pass, `tokenize` with the one that marks the end. A
`Reader` gives them one at a time, and after the last one the end for ever.
-/

namespace Calculator

/-- The token at the front of a text that does not start with a blank. -/
def Token.ofFront (cs : List Char) (offset : Nat) : Token :=
  let lexeme := cs.take (Lexeme.length cs)
  ⟨.ofLexeme lexeme, String.ofList lexeme, offset⟩

/-- The tokens of a text whose first character is at byte `offset` and whose first `skip` characters
belong to a token given before. -/
def Token.scan : List Char → Nat → Nat → List Token
  | [], _, _ => []
  | c :: cs, offset, skip + 1 => scan cs (offset + c.utf8Size) skip
  | c :: cs, offset, 0 =>
    if Lexeme.isBlank c then scan cs (offset + c.utf8Size) 0
    else
      Token.ofFront (c :: cs) offset ::
        scan cs (offset + c.utf8Size) (Lexeme.length (c :: cs) - 1)

/-- Characters that belong to a token given before are passed over. -/
theorem Token.scan_skip (cs : List Char) (offset skip : Nat) :
    Token.scan cs offset skip =
      Token.scan (cs.drop skip) (offset + (String.ofList (cs.take skip)).utf8ByteSize) 0 := by
  induction cs generalizing offset skip with
  | nil => simp [scan]
  | cons c cs ih =>
    cases skip with
    | zero => simp
    | succ skip =>
      rw [scan, ih, List.drop_succ_cons, List.take_succ_cons, String.ofList_cons,
        String.utf8ByteSize_append, String.utf8ByteSize_singleton, Nat.add_assoc]

/-- **The tokens of a text**, without the end. -/
def tokens (source : String) : List Token := Token.scan source.toList 0 0

/-- The tokens of a text, the last one being its end. -/
def tokenize (source : String) : List Token := tokens source ++ [.finish source.utf8ByteSize]

/-- A text that is read token by token: what is left of it, and the byte where that starts. -/
structure Reader where
  rest : List Char
  position : Nat

namespace Reader

def ofString (source : String) : Reader := ⟨source.toList, 0⟩

/-- **The next token**, and the reader after it. -/
def next (r : Reader) : Token × Reader :=
  let (blanks, rest) := r.rest.span Lexeme.isBlank
  let offset := r.position + (String.ofList blanks).utf8ByteSize
  match rest with
  | [] => (.finish offset, ⟨[], offset⟩)
  | _ :: _ =>
    let token := Token.ofFront rest offset
    (token, ⟨rest.drop (Lexeme.length rest), token.stop⟩)

/-- The next `n` tokens, each with the position after it. -/
def pull (r : Reader) : Nat → List (Token × Nat)
  | 0 => []
  | n + 1 => let (token, r) := r.next; (token, r.position) :: r.pull n

end Reader

end Calculator
