import Calculator.Proofs.Grammar.Tree
import Calculator.Proofs.Tokens.Pieces

/-!
# Expressions and their texts

An `Expr` is an expression without tokens, blanks and parentheses, with a value of its own (`eval`).
Its text has a space after every word, and parentheses around an operand that binds less tightly than
its place asks for (`words`, `render`): a left operand may be of the level of its operator, a right
one may not, and what follows a sign has to be a primary.

Every word is one whole lexeme, so the tokens of the text are the words (`tokens_render`).
-/

namespace Calculator

/-- **A numeral**: one whole number, with a digit. -/
structure Numeral where
  text : List Char
  whole : Lexeme.numberLength text = text.length
  digit : text.any Char.isDigit = true

def Numeral.value (w : Numeral) : Float := Lexeme.numberValue w.text

/-- The name that a constant is written with. -/
def Constant.name : Constant → String
  | pi => "pi"
  | e => "e"
  | phi => "phi"
  | sqrt2 => "sqrt2"
  | ln2 => "ln2"
  | ln10 => "ln10"

/-- The name that a register is written with. -/
def Register.name : Register → String
  | memory => "M"
  | lastResult => "ans"

/-- **An expression.** -/
inductive Expr
  | number (w : Numeral)
  | constant (c : Constant)
  | register (r : Register)
  | positive (e : Expr)
  | negative (e : Expr)
  | binary (op : Operator) (left right : Expr)
  | call (f : Function) (args : List Expr)

namespace Expr

/-- Induction over expressions, where the arguments of a call are expressions too. -/
@[elab_as_elim]
theorem induct {P : Expr → Prop} (number : ∀ w, P (.number w)) (constant : ∀ c, P (.constant c))
    (register : ∀ r, P (.register r)) (positive : ∀ e, P e → P (.positive e))
    (negative : ∀ e, P e → P (.negative e))
    (binary : ∀ op left right, P left → P right → P (.binary op left right))
    (call : ∀ f args, (∀ e ∈ args, P e) → P (.call f args)) (e : Expr) : P e :=
  @Expr.rec P (fun args => ∀ e ∈ args, P e) number constant register positive negative binary call
    (fun _ h => by cases h) (fun _ _ he hes => List.forall_mem_cons.2 ⟨he, hes⟩) e

/-! ### Values -/

variable (env : Environment)

mutual

/-- **The value of an expression**, if it has one. -/
def eval : Expr → Option Float
  | number w => if w.value.isFinite then some w.value else none
  | constant c => some c.value
  | register r => some (env.read r)
  | positive e => eval e
  | negative e => do return -(← eval e)
  | binary op left right => do (op.meaning (← eval left) (← eval right)).toOption
  | call f args =>
    if args.length ≤ Rule.maxArguments then do (f.apply (← evalAll args) env.angleUnit).toOption
    else none

/-- The values of some expressions. -/
def evalAll : List Expr → Option (List Float)
  | [] => some []
  | e :: es => do return (← eval e) :: (← evalAll es)

end

/-! ### Texts -/

/-- How tightly an expression binds: everything but an operation is a primary. -/
def rank : Expr → Nat
  | binary op _ _ => op.level.rank
  | _ => 3

/-- The words of an expression at a place for what binds at least as tightly as `r`. -/
def enclose (r : Nat) (e : Expr) (ws : List (List Char)) : List (List Char) :=
  if e.rank < r then ['('] :: (ws ++ [[')']]) else ws

mutual

/-- **The words of an expression**, with the parentheses that are needed. -/
def words : Expr → List (List Char)
  | number w => [w.text]
  | constant c => [c.name.toList]
  | register r => [r.name.toList]
  | positive e => ['+'] :: enclose 3 e (words e)
  | negative e => ['-'] :: enclose 3 e (words e)
  | binary op left right =>
    enclose op.level.rank left (words left) ++
      [op.symbol] :: enclose (op.level.rank + 1) right (words right)
  | call f args => f.name.toList :: ['('] :: argumentWords args

/-- The words of arguments and the parenthesis that closes them. -/
def argumentWords : List Expr → List (List Char)
  | [] => [[')']]
  | e :: es => words e ++ moreWords es

/-- The words of the arguments that follow another one. -/
def moreWords : List Expr → List (List Char)
  | [] => [[')']]
  | e :: es => [','] :: (words e ++ moreWords es)

end

/-- **The text of an expression.** -/
def render (e : Expr) : String := .ofList (spaced e.words)

end Expr

/-! ### Words are lexemes -/

theorem Numeral.numberLength_pos (w : Numeral) : 0 < Lexeme.numberLength w.text := by
  obtain ⟨c, hc, -⟩ := List.any_eq_true.1 w.digit
  rw [w.whole]
  exact List.length_pos_of_mem hc

theorem Numeral.isWord (w : Numeral) : IsWord w.text := by
  have hpos := w.numberLength_pos
  refine ⟨?_, ?_⟩
  · cases htext : w.text with
    | nil => rfl
    | cons b cs =>
      -- No number starts with a blank.
      have hfirst : b ∈ (b :: cs).take (Lexeme.numberLength (b :: cs)) := by
        obtain ⟨m, hm⟩ := Nat.exists_eq_add_one.2 (htext ▸ hpos)
        rw [hm, List.take_succ_cons]
        exact List.mem_cons_self
      have hpart := Lexeme.isPart_of_mem_number hfirst
      by_cases hblank : Lexeme.isBlank b = true
      · rw [Lexeme.isPart_of_isBlank hblank] at hpart
        cases hpart
      · simp [hblank]
  · unfold Lexeme.length
    rw [if_pos hpos, w.whole]

theorem Numeral.ofLexeme_text (w : Numeral) : TokenKind.ofLexeme w.text = .number w.value := by
  unfold TokenKind.ofLexeme
  rw [if_pos w.numberLength_pos]
  rfl

theorem Constant.isWord_name (c : Constant) : IsWord c.name.toList := by
  cases c <;> decide

theorem Constant.ofLexeme_name (c : Constant) :
    TokenKind.ofLexeme c.name.toList = .constant c := by
  cases c <;> decide +kernel

theorem Register.isWord_name (r : Register) : IsWord r.name.toList := by
  cases r <;> decide

theorem Register.ofLexeme_name (r : Register) :
    TokenKind.ofLexeme r.name.toList = .variable := by
  cases r <;> decide +kernel

theorem Register.ofName?_name (r : Register) : Register.ofName? r.name = some r := by
  cases r <;> rfl

theorem Operator.isWord_symbol (op : Operator) : IsWord [op.symbol] := by
  cases op <;> decide

theorem Operator.ofLexeme_symbol (op : Operator) :
    TokenKind.ofLexeme [op.symbol] = .operator op := by
  cases op <;> decide

theorem Function.isWord_name (f : Function) : IsWord f.name.toList ∧
    Lexeme.numberLength f.name.toList = 0 ∧ 0 < Lexeme.wordLength f.name.toList := by
  cases f with
  | unary f => cases f <;> decide +kernel
  | binary f => cases f <;> decide +kernel

theorem Function.ofLexeme_name (f : Function) :
    TokenKind.ofLexeme f.name.toList = .function f := by
  obtain ⟨-, hnumber, hword⟩ := f.isWord_name
  unfold TokenKind.ofLexeme
  rw [if_neg (by omega), if_pos hword, String.ofList_toList, TokenKind.ofWord, ofName?_name]

namespace Expr

theorem isWord_enclose {r : Nat} {e : Expr} {ws : List (List Char)} (h : ∀ w ∈ ws, IsWord w) :
    ∀ w ∈ enclose r e ws, IsWord w := by
  unfold enclose
  split
  · refine List.forall_mem_cons.2 ⟨by decide, List.forall_mem_append.2 ⟨h, ?_⟩⟩
    exact List.forall_mem_singleton.2 (by decide)
  · exact h

theorem isWord_moreWords {es : List Expr} (h : ∀ e ∈ es, ∀ w ∈ e.words, IsWord w) :
    ∀ w ∈ moreWords es, IsWord w := by
  induction es with
  | nil => exact List.forall_mem_singleton.2 (by decide)
  | cons e es ih =>
    obtain ⟨he, hes⟩ := List.forall_mem_cons.1 h
    exact List.forall_mem_cons.2 ⟨by decide, List.forall_mem_append.2 ⟨he, ih hes⟩⟩

theorem isWord_argumentWords {es : List Expr} (h : ∀ e ∈ es, ∀ w ∈ e.words, IsWord w) :
    ∀ w ∈ argumentWords es, IsWord w := by
  cases es with
  | nil => exact List.forall_mem_singleton.2 (by decide)
  | cons e es =>
    obtain ⟨he, hes⟩ := List.forall_mem_cons.1 h
    exact List.forall_mem_append.2 ⟨he, isWord_moreWords hes⟩

/-- **Every word of an expression is one whole lexeme.** -/
theorem isWord_words (e : Expr) : ∀ w ∈ e.words, IsWord w := by
  induction e using induct with
  | number w => exact List.forall_mem_singleton.2 w.isWord
  | constant c => exact List.forall_mem_singleton.2 c.isWord_name
  | register r => exact List.forall_mem_singleton.2 r.isWord_name
  | positive e ih | negative e ih =>
    exact List.forall_mem_cons.2 ⟨by decide, isWord_enclose ih⟩
  | binary op left right ihl ihr =>
    refine List.forall_mem_append.2 ⟨isWord_enclose ihl, ?_⟩
    exact List.forall_mem_cons.2 ⟨op.isWord_symbol, isWord_enclose ihr⟩
  | call f args ih =>
    refine List.forall_mem_cons.2 ⟨f.isWord_name.1, ?_⟩
    exact List.forall_mem_cons.2 ⟨by decide, isWord_argumentWords ih⟩

/-- **The tokens of the text of an expression are its words.** -/
theorem tokens_render (e : Expr) : (tokens e.render).map (·.text.toList) = e.words :=
  tokens_spaced e.isWord_words

/-- A sign belongs to the primary behind it, and `^` is folded from the left. -/
example : render (.binary .pow (.negative (.constant .e))
    (.binary .pow (.register .memory) (.constant .pi))) = "- e ^ ( M ^ pi ) " := rfl

end Expr

end Calculator
