import Calculator.Expression

/-!
# Derivation trees

The grammar without its reading: a `Tree k` is a derivation of the category `k`, and its leaves are
tokens. There are trees for the four phrases

    expression := term (('+' | '-') term)*
    term       := factor (('*' | '/' | '%') factor)*
    factor     := primary ('^' primary)*
    primary    := number | constant | register | ('+' | '-') primary | '(' expression ')'
                | function '(' arguments

and for the two parts of a call, `items := expression (',' expression)*` and
`arguments := ')' | items ')'`. A chain of operators is a tree that leans to the left, so its
operands are folded from the left; the items of a call lean to the left too.

* `tokens t`: the leaves from left to right, the sentence that `t` derives;
* `Operator.meaning op a b`: the operation on doubles that an operator stands for, if its result is
  finite;
* `eval env t`: the value of `t`, or the rejection of the first node without a value. Only the
  values of numbers, the number of arguments and the operations can fail;
* `Admissible t`: every number is finite and no call has more than `maxArguments` arguments.
-/

namespace Calculator

/-- The registers. -/
inductive Register
  | memory
  | lastResult
deriving DecidableEq

/-- The register with a name. -/
def Register.ofName? (name : String) : Option Register :=
  match name with
  | "M" | "mem" => some memory
  | "ans" | "ANS" => some lastResult
  | _ => none

/-- The number that a register holds. -/
def Environment.read (env : Environment) : Register → Float
  | .memory => env.memory
  | .lastResult => env.lastResult

theorem Environment.lookup?_eq (env : Environment) (name : String) :
    env.lookup? name = (Register.ofName? name).map env.read := by
  unfold lookup? Register.ofName?
  split
  · rfl
  · rfl
  · rfl
  · rfl
  · simp

/-- A number that is finite. -/
def finite (x : Float) : Except Flaw Float := if x.isFinite then .ok x else .error .domainError

/-- **What an operator means between two numbers**: the operation on doubles, if its result is finite.
There is no division by zero, and no remainder of one. -/
def Operator.meaning : Operator → Float → Float → Except Flaw Float
  | add, a, b => finite (a + b)
  | sub, a, b => finite (a - b)
  | mul, a, b => finite (a * b)
  | div, a, b => if b == 0.0 then .error .divisionByZero else finite (a / b)
  | mod, a, b => if b == 0.0 then .error .divisionByZero else finite (Double.remainder a b)
  | pow, a, b => finite (a.pow b)

theorem narrow_checked (x : Float) : (checked x).narrow = finite x := by
  unfold checked finite
  cases x.isFinite <;> rfl

/-- The guarded operations fail where the operations on doubles have no finite result. -/
theorem Operator.meaning_eq_apply (op : Operator) (a b : Float) : op.meaning a b = op.apply a b := by
  cases op with
  | add | sub | mul => exact (narrow_checked _).symm
  | div | mod =>
    show (if b == 0.0 then Except.error Flaw.divisionByZero else finite _) =
      Outcome.narrow (if b == 0.0 then .error .divisionByZero else checked _)
    cases b == 0.0 with
    | true => rfl
    | false => exact (narrow_checked _).symm
  | pow => rfl

/-! ### Phrases -/

/-- How tightly the operators of a level bind. -/
def Level.rank : Level → Nat
  | sum => 0
  | product => 1
  | power => 2

theorem Level.rank_injective {level level' : Level} (h : level.rank = level'.rank) :
    level = level' := by
  cases level <;> cases level' <;> first | rfl | cases h

namespace Grammar

/-- **A phrase**: operands of one level with operators between them, or a primary. -/
inductive Phrase
  | chain (level : Level)
  | primary
deriving DecidableEq

/-- Operators that bind less tightly can follow a phrase. -/
def Phrase.rank : Phrase → Nat
  | chain level => level.rank
  | primary => 3

theorem Phrase.rank_injective {p q : Phrase} (h : p.rank = q.rank) : p = q := by
  cases p with
  | primary =>
    cases q with
    | primary => rfl
    | chain level => cases level <;> cases h
  | chain level =>
    cases q with
    | primary => cases level <;> cases h
    | chain level' => rw [Level.rank_injective h]

theorem Phrase.rank_le (p : Phrase) : p.rank ≤ 3 := by
  cases p with
  | primary => exact Nat.le_refl _
  | chain level => cases level <;> decide

/-- The operands of a level. -/
def operand : Level → Phrase
  | .sum => .chain .product
  | .product => .chain .power
  | .power => .primary

theorem rank_operand (level : Level) : (operand level).rank = level.rank + 1 := by
  cases level <;> rfl

abbrev expression : Phrase := .chain .sum

abbrev factor : Phrase := .chain .power

/-- What the grammar has a rule for. -/
inductive Category
  | phrase (p : Phrase)
  | items
  | arguments

/-- What a tree of a category is evaluated to. -/
abbrev Category.Value : Category → Type
  | .phrase _ => Float
  | .items | .arguments => List Float

/-- A token of a kind. -/
abbrev Terminal (kind : TokenKind) := { token : Token // token.kind = kind }

/-! ### Trees -/

/-- **The derivations of a category.** A number has a digit, but its value can be infinite; a call
can have any number of arguments. -/
inductive Tree : Category → Type
  | number (token : Token) (value : Float) (kind : token.kind = .number value)
      (digit : token.text.toList.any Char.isDigit = true) : Tree (.phrase .primary)
  | constant (c : Constant) (token : Terminal (.constant c)) : Tree (.phrase .primary)
  | register (r : Register) (token : Terminal .variable)
      (name : Register.ofName? token.val.text = some r) : Tree (.phrase .primary)
  | positive (sign : Terminal (.operator .add)) (t : Tree (.phrase .primary)) :
      Tree (.phrase .primary)
  | negative (sign : Terminal (.operator .sub)) (t : Tree (.phrase .primary)) :
      Tree (.phrase .primary)
  | group (opening : Terminal .leftParen) (t : Tree (.phrase expression))
      (closing : Terminal .rightParen) : Tree (.phrase .primary)
  | call (f : Function) (name : Terminal (.function f)) (opening : Terminal .leftParen)
      (args : Tree .arguments) : Tree (.phrase .primary)
  | single {level : Level} (t : Tree (.phrase (operand level))) : Tree (.phrase (.chain level))
  | binary {level : Level} (left : Tree (.phrase (.chain level))) (op : Operator)
      (binds : op.level = level) (token : Terminal (.operator op))
      (right : Tree (.phrase (operand level))) : Tree (.phrase (.chain level))
  | item (t : Tree (.phrase expression)) : Tree .items
  | more (before : Tree .items) (comma : Terminal .comma) (t : Tree (.phrase expression)) :
      Tree .items
  | noItems (closing : Terminal .rightParen) : Tree .arguments
  | someItems (items : Tree .items) (closing : Terminal .rightParen) : Tree .arguments

namespace Tree

variable {k : Category}

/-- The first leaf. -/
def first : {k : Category} → Tree k → Token
  | _, number token .. => token
  | _, constant _ token => token
  | _, register _ token _ => token
  | _, positive sign _ => sign
  | _, negative sign _ => sign
  | _, group opening .. => opening
  | _, call _ name .. => name
  | _, single t => t.first
  | _, binary left .. => left.first
  | _, item t => t.first
  | _, more before .. => before.first
  | _, noItems closing => closing
  | _, someItems items _ => items.first

/-- **The sentence that is derived**: the leaves from left to right. -/
def tokens : {k : Category} → Tree k → List Token
  | _, number token .. => [token]
  | _, constant _ token => [token.val]
  | _, register _ token _ => [token.val]
  | _, positive sign t => sign.val :: t.tokens
  | _, negative sign t => sign.val :: t.tokens
  | _, group opening t closing => opening.val :: (t.tokens ++ [closing.val])
  | _, call _ name opening args => name.val :: opening.val :: args.tokens
  | _, single t => t.tokens
  | _, binary left _ _ token right => left.tokens ++ token.val :: right.tokens
  | _, item t => t.tokens
  | _, more before comma t => before.tokens ++ comma.val :: t.tokens
  | _, noItems closing => [closing.val]
  | _, someItems items closing => items.tokens ++ [closing.val]

/-- The number of arguments. -/
def count : {k : Category} → Tree k → Nat
  | _, more before .. => before.count + 1
  | _, noItems _ => 0
  | _, someItems items _ => items.count
  | _, _ => 1

/-- **The value of a tree.** Operands are evaluated from left to right, and so are arguments, of
which no more than `maxArguments` are. -/
def eval (env : Environment) : {k : Category} → Tree k → Except Rejection k.Value
  | _, number token value .. =>
    if value.isFinite then .ok value
    else .error ⟨.numberOutOfRange token.text, token.offset⟩
  | _, constant c _ => .ok c.value
  | _, register r .. => .ok (env.read r)
  | _, positive _ t => t.eval env
  | _, negative _ t => do return -(← t.eval env)
  | _, group _ t _ => t.eval env
  | _, call f name _ args => do
    match f.apply (← args.eval env) env.angleUnit with
    | .ok value => .ok value
    | .error flaw => .error ⟨.call flaw f.name, name.val.offset⟩
  | _, single t => t.eval env
  | _, binary left op _ token right => do
    match op.meaning (← left.eval env) (← right.eval env) with
    | .ok value => .ok value
    | .error flaw => .error ⟨.operation flaw, token.val.offset⟩
  | _, item t => do return [← t.eval env]
  | _, more before _ t => do
    let values ← before.eval env
    if values.length < Rule.maxArguments then return values ++ [← t.eval env]
    else .error ⟨.argumentLimit Rule.maxArguments, t.first.offset⟩
  | _, noItems _ => .ok []
  | _, someItems items _ => items.eval env

/-- **Every number is finite, and no call has more than `maxArguments` arguments.** -/
def Admissible : {k : Category} → Tree k → Prop
  | _, number _ value .. => value.isFinite = true
  | _, constant .. | _, register .. | _, noItems _ => True
  | _, positive _ t | _, negative _ t | _, group _ t _ | _, single t | _, item t => t.Admissible
  | _, call _ _ _ args => args.count ≤ Rule.maxArguments ∧ args.Admissible
  | _, binary left _ _ _ right => left.Admissible ∧ right.Admissible
  | _, more before _ t => before.Admissible ∧ t.Admissible
  | _, someItems items _ => items.Admissible

/-! ### Values of wholes and parts -/

section Value

variable {env : Environment}

theorem eval_binary {level : Level} {left : Tree (.phrase (.chain level))} {op : Operator}
    {binds : op.level = level} {token : Terminal (.operator op)}
    {right : Tree (.phrase (operand level))} {a b : Float} (hl : left.eval env = .ok a)
    (hr : right.eval env = .ok b) :
    (binary left op binds token right).eval env =
      (op.apply a b).mapError fun flaw => ⟨.operation flaw, token.val.offset⟩ := by
  simp only [eval, hl, hr, bind, Except.bind, op.meaning_eq_apply]
  cases op.apply a b <;> rfl

theorem eval_call {f : Function} {name : Terminal (.function f)} {opening : Terminal .leftParen}
    {args : Tree .arguments} {values : List Float} (h : args.eval env = .ok values) :
    (call f name opening args).eval env =
      (f.apply values env.angleUnit).mapError fun flaw =>
        ⟨.call flaw f.name, name.val.offset⟩ := by
  simp only [eval, h, bind, Except.bind]
  cases f.apply values env.angleUnit <;> rfl

theorem eval_more {before : Tree .items} {comma : Terminal .comma} {t : Tree (.phrase expression)}
    {values : List Float} (h : before.eval env = .ok values) :
    (more before comma t).eval env =
      if values.length < Rule.maxArguments then (t.eval env).map (values ++ [·])
      else .error ⟨.argumentLimit Rule.maxArguments, t.first.offset⟩ := by
  rw [eval, h]
  rfl

end Value

/-! ### The leaves of a tree -/

theorem tokens_eq_cons (t : Tree k) : ∃ us, t.tokens = t.first :: us := by
  induction t with
  | number | constant | register | positive | negative | group | call | noItems => exact ⟨_, rfl⟩
  | single t ih | item t ih => exact ih
  | binary left op binds token right ihl ihr =>
    obtain ⟨us, h⟩ := ihl
    exact ⟨us ++ token.val :: right.tokens, by simp [tokens, first, h]⟩
  | more before comma t ihb iht =>
    obtain ⟨us, h⟩ := ihb
    exact ⟨us ++ comma.val :: t.tokens, by simp [tokens, first, h]⟩
  | someItems items closing ih =>
    obtain ⟨us, h⟩ := ih
    exact ⟨us ++ [closing.val], by simp [tokens, first, h]⟩

/-- Only the arguments of a call can start with a closing parenthesis. -/
theorem eq_arguments_of_first (t : Tree k) (h : t.first.kind = .rightParen) : k = .arguments := by
  induction t with
  | number token value kind => simp [first, kind] at h
  | constant c token => simp [first, token.property] at h
  | register r token => simp [first, token.property] at h
  | positive sign | negative sign => simp [first, sign.property] at h
  | group opening => simp [first, opening.property] at h
  | call f name => simp [first, name.property] at h
  | single t ih | item t ih => simpa using ih h
  | binary left op binds token right ihl ihr => simpa using ihl h
  | more before comma t ihb iht => simpa using ihb h
  | noItems | someItems => rfl

end Tree

/-- **The tokens that can be leaves.** -/
def IsLeaf (token : Token) : Prop :=
  match token.kind with
  | .number _ => token.text.toList.any Char.isDigit = true
  | .variable => (Register.ofName? token.text).isSome = true
  | .unknown | .finish => False
  | _ => True

theorem isLeaf_of_kind {token : Token} {kind : TokenKind} (h : token.kind = kind)
    (hk : match kind with | .number _ | .variable | .unknown | .finish => False | _ => True) :
    IsLeaf token := by
  unfold IsLeaf
  rw [h]
  cases kind with
  | number | «variable» | unknown | finish => exact hk.elim
  | constant | function | operator | leftParen | rightParen | comma => exact trivial

theorem Tree.isLeaf {k : Category} (t : Tree k) {token : Token} (h : token ∈ t.tokens) :
    IsLeaf token := by
  induction t with
  | number leaf value kind digit =>
    rw [List.mem_singleton.1 h]
    simpa [IsLeaf, kind] using digit
  | constant c leaf =>
    rw [List.mem_singleton.1 h]
    exact isLeaf_of_kind leaf.property trivial
  | register r leaf name =>
    rw [List.mem_singleton.1 h]
    simp [IsLeaf, leaf.property, name]
  | positive sign t ih | negative sign t ih =>
    rcases List.mem_cons.1 h with rfl | h
    · exact isLeaf_of_kind sign.property trivial
    · exact ih h
  | group opening t closing ih =>
    rcases List.mem_cons.1 h with rfl | h
    · exact isLeaf_of_kind opening.property trivial
    · rcases List.mem_append.1 h with h | h
      · exact ih h
      · rw [List.mem_singleton.1 h]
        exact isLeaf_of_kind closing.property trivial
  | call f name opening args ih =>
    rcases List.mem_cons.1 h with rfl | h
    · exact isLeaf_of_kind name.property trivial
    · rcases List.mem_cons.1 h with rfl | h
      · exact isLeaf_of_kind opening.property trivial
      · exact ih h
  | single t ih | item t ih => exact ih h
  | binary left op binds leaf right ihl ihr =>
    rcases List.mem_append.1 h with h | h
    · exact ihl h
    · rcases List.mem_cons.1 h with rfl | h
      · exact isLeaf_of_kind leaf.property trivial
      · exact ihr h
  | more before comma t ihb iht =>
    rcases List.mem_append.1 h with h | h
    · exact ihb h
    · rcases List.mem_cons.1 h with rfl | h
      · exact isLeaf_of_kind comma.property trivial
      · exact iht h
  | noItems closing =>
    rw [List.mem_singleton.1 h]
    exact isLeaf_of_kind closing.property trivial
  | someItems items closing ih =>
    rcases List.mem_append.1 h with h | h
    · exact ih h
    · rw [List.mem_singleton.1 h]
      exact isLeaf_of_kind closing.property trivial

end Grammar

end Calculator
