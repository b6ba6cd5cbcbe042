import Calculator.Proofs.Grammar.Rules

/-!
# Reading the sentence of a tree

In front of the sentence of a derivation tree, a rule evaluates the tree. `rule env k` is the rule of
a category and `resume env k v` what is left of it after a tree of value `v`: the rest of a chain,
or of the items of a call. `evaluates` says that reading the sentence of `t` and something behind
it is evaluating `t` and then going on, with the same rejection if there is one. The only condition
is on what stands behind: it must not start with an operator that binds more tightly than `t` does
(`Below`), or it would belong to the last operand of `t`.
-/

namespace Calculator.Grammar

open Rule (outcome outcome_congr outcome_bind outcome_peek_bind outcome_skip_bind applyThen)

variable {env : Environment} {k : Category} {token : Token} {us : List Token} {n : Nat}

/-! ### Operators that can follow -/

/-- **The tokens do not start with an operator of rank `r` or more.** -/
def Below (r : Nat) (us : List Token) : Prop :=
  ∀ token ∈ us.head?, ∀ op, token.kind = .operator op → op.level.rank < r

theorem Below.nil (r : Nat) : Below r [] := fun _ h => by cases h

theorem below_cons {r : Nat} :
    Below r (token :: us) ↔ ∀ op, token.kind = .operator op → op.level.rank < r := by
  simp [Below]

theorem Below.mono {r r' : Nat} (h : Below r us) (hr : r ≤ r') : Below r' us :=
  fun t ht op hop => Nat.lt_of_lt_of_le (h t ht op hop) hr

theorem below_of_three_le {r : Nat} (h : 3 ≤ r) : Below r us := by
  intro t _ op _
  have : op.level.rank < 3 := by cases op <;> decide
  omega

theorem below_of_kind {kind : TokenKind} {r : Nat} (h : token.kind = kind)
    (hk : ∀ op, kind ≠ .operator op) : Below r (token :: us) :=
  below_cons.2 fun op hop => absurd (h.symm.trans hop) (hk op)

theorem operatorAt?_eq_some_iff {level : Level} {op : Operator} :
    token.operatorAt? level = some op ↔ token.kind = .operator op ∧ op.level = level := by
  unfold Token.operatorAt?
  split
  · next op' h =>
    by_cases hl : op'.level = level
    · rw [if_pos hl, h]
      constructor
      · rintro ⟨⟩; exact ⟨rfl, hl⟩
      · rintro ⟨⟨⟩, -⟩; rfl
    · rw [if_neg hl, h]
      constructor
      · rintro ⟨⟩
      · rintro ⟨⟨⟩, h'⟩; exact absurd h' hl
  · next h =>
    constructor
    · rintro ⟨⟩
    · rintro ⟨h', -⟩; exact absurd h' (h op)

theorem Below.operatorAt?_eq_none {level : Level} (h : Below level.rank us) :
    (Cursor.mk us n).current.operatorAt? level = none := by
  cases us with
  | nil => exact Rule.operatorAt?_nil rfl
  | cons token us =>
    cases hop : token.operatorAt? level with
    | none => exact hop
    | some op =>
      obtain ⟨hk, hl⟩ := operatorAt?_eq_some_iff.1 hop
      have := below_cons.1 h op hk
      rw [hl] at this
      exact absurd this (Nat.lt_irrefl _)

/-- An operator of a level that is not there leaves only those that bind less tightly. -/
theorem Below.of_operatorAt?_eq_none {level : Level} (h : Below (level.rank + 1) us)
    (hnone : (Cursor.mk us n).current.operatorAt? level = none) : Below level.rank us := by
  cases us with
  | nil => exact Below.nil _
  | cons token us =>
    refine below_cons.2 fun op hk => ?_
    have hlt := below_cons.1 h op hk
    have hne : op.level.rank ≠ level.rank := by
      intro hrank
      have hsome : token.operatorAt? level = some op :=
        operatorAt?_eq_some_iff.2 ⟨hk, Level.rank_injective hrank⟩
      rw [show token.operatorAt? level = none from hnone] at hsome
      cases hsome
    omega

/-! ### Rules of categories -/

variable (env) in
/-- The rule of a category; the one of items reads the parenthesis behind them too. -/
def rule : (k : Category) → Rule k.Value
  | .phrase p => phrase env p
  | .items => Rule.argumentsFrom (Rule.expression env) Rule.maxArguments []
  | .arguments => Rule.arguments env

variable (env) in
/-- What is left of the rule of a category after a tree of the given value. -/
def resume : (k : Category) → k.Value → Rule k.Value
  | .phrase (.chain level), value => more env level value
  | .phrase .primary, value => pure value
  | .items, values => moreItems env values
  | .arguments, values => pure values

/-- Operators of this rank would be read into the last operand of a tree. -/
def Category.bound : Category → Nat
  | .phrase p => p.rank + 1
  | .items => 0
  | .arguments => 3

theorem outcome_resume {p : Phrase} {value : Float} (h : Below p.rank us) :
    outcome (resume env (.phrase p) value) ⟨us, n⟩ = .ok (value, ⟨us, n⟩) := by
  cases p with
  | primary => rfl
  | chain level =>
    show outcome (more env level value) _ = _
    unfold outcome
    rw [more_of_none h.operatorAt?_eq_none]

theorem outcome_closing (h : token.kind = .rightParen) :
    outcome Rule.closing ⟨token :: us, n⟩ = .ok ((), ⟨us, n⟩) := by
  unfold Rule.closing
  rw [outcome_peek_bind]
  show outcome (if token.kind = .rightParen then _ else _) _ = _
  rw [if_pos h]
  rfl

theorem outcome_moreItems_comma {values : List Float} (h : token.kind = .comma) :
    outcome (moreItems env values) ⟨token :: us, n⟩ =
      outcome (Rule.argumentsFrom (Rule.expression env) (Rule.maxArguments - values.length) values)
        ⟨us, n⟩ := by
  unfold moreItems
  rw [outcome_peek_bind]
  show outcome (if token.kind = .comma then _ else _) _ = _
  rw [if_pos h, outcome_skip_bind]

theorem outcome_moreItems_closing {values : List Float} (h : token.kind = .rightParen) :
    outcome (moreItems env values) ⟨token :: us, n⟩ = .ok (values, ⟨us, n⟩) := by
  unfold moreItems
  rw [outcome_peek_bind]
  show outcome (if token.kind = .comma then _ else _) _ = _
  rw [if_neg (by simp [h]), outcome_bind, outcome_closing h]
  rfl

/-- What a call does with its arguments. -/
def callThen (f : Function) (name : Token) (unit : AngleUnit) (values : List Float) : Rule Float :=
  match f.apply values unit with
  | .ok value => pure value
  | .error flaw => Rule.rejectAt name.offset (.call flaw f.name)

theorem outcome_callOf {name : Token} {f : Function} {r : Rule Float} (h : token.kind = .leftParen) :
    outcome (Rule.callOf env r f) ⟨name :: token :: us, n⟩ =
      outcome (Rule.argumentsOf r >>= callThen f name env.angleUnit) ⟨us, n⟩ := by
  unfold Rule.callOf
  rw [outcome_peek_bind, outcome_skip_bind, outcome_peek_bind]
  show outcome (if token.kind = .leftParen then _ else _) _ = _
  rw [if_pos h]
  rfl

/-! ### Reading is evaluating -/

/-- **The rule evaluates the tree** in front of its sentence, and goes on behind it. -/
def Evaluates (env : Environment) (n : Nat) (t : Tree k) : Prop :=
  ∀ us, Below k.bound us → outcome (rule env k) ⟨t.tokens ++ us, n⟩ =
    (t.eval env).bind fun value => outcome (resume env k value) ⟨us, n⟩

theorem Evaluates.whole {p : Phrase} {t : Tree (.phrase p)} (h : Evaluates env n t)
    (hb : Below p.rank us) :
    outcome (phrase env p) ⟨t.tokens ++ us, n⟩ =
      (t.eval env).map fun value => (value, ⟨us, n⟩) := by
  have ht : outcome (phrase env p) ⟨t.tokens ++ us, n⟩ = _ := h us (hb.mono (Nat.le_succ _))
  rw [ht]
  cases t.eval env with
  | error e => rfl
  | ok value => exact outcome_resume hb

/-! ### Primaries -/

theorem evaluates_number {value : Float} (kind : token.kind = .number value)
    (digit : token.text.toList.any Char.isDigit = true) :
    Evaluates env n (.number token value kind digit) := by
  intro us _
  show outcome (phrase env .primary) ⟨token :: us, n⟩ = _
  rw [outcome_congr primary_cons]
  simp only [kind, Rule.literal, digit, Tree.eval]
  by_cases hf : value.isFinite = true
  · simp [hf, Except.bind]
    rfl
  · simp [hf, Except.bind]
    rfl

theorem evaluates_constant (c : Constant) (token : Terminal (.constant c)) :
    Evaluates env n (.constant c token) := by
  intro us _
  show outcome (phrase env .primary) ⟨token.val :: us, n⟩ = _
  rw [outcome_congr primary_cons]
  simp only [token.property]
  rfl

theorem evaluates_register {r : Register} {token : Terminal .variable}
    (name : Register.ofName? token.val.text = some r) :
    Evaluates env n (.register r token name) := by
  intro us _
  show outcome (phrase env .primary) ⟨token.val :: us, n⟩ = _
  rw [outcome_congr primary_cons]
  simp only [token.property, Rule.register, Environment.lookup?_eq, name]
  rfl

namespace Evaluates

variable {t : Tree (.phrase .primary)} {e : Tree (.phrase expression)}

theorem positive (sign : Terminal (.operator .add)) (h : Evaluates env n t) :
    Evaluates env n (.positive sign t) := by
  intro us hb
  show outcome (phrase env .primary) ⟨sign.val :: (t.tokens ++ us), n⟩ = _
  rw [outcome_congr primary_cons]
  simp only [sign.property]
  rw [outcome_skip_bind]
  exact h us hb

theorem negative (sign : Terminal (.operator .sub)) (h : Evaluates env n t) :
    Evaluates env n (.negative sign t) := by
  intro us _
  show outcome (phrase env .primary) ⟨sign.val :: (t.tokens ++ us), n⟩ = _
  rw [outcome_congr primary_cons]
  simp only [sign.property]
  rw [outcome_skip_bind, outcome_bind, h.whole (below_of_three_le (Nat.le_refl _)), Tree.eval]
  cases t.eval env <;> rfl

theorem group (opening : Terminal .leftParen) (closing : Terminal .rightParen)
    (h : Evaluates env n e) : Evaluates env n (.group opening e closing) := by
  intro us _
  have hb : Below expression.rank (closing.val :: us) := below_of_kind closing.property (by simp)
  show outcome (phrase env .primary) ⟨opening.val :: ((e.tokens ++ [closing.val]) ++ us), n⟩ = _
  rw [List.append_assoc, outcome_congr primary_cons]
  simp only [opening.property]
  rw [outcome_skip_bind, outcome_bind, List.singleton_append, h.whole hb, Tree.eval]
  cases e.eval env with
  | error e => rfl
  | ok value =>
    show outcome (Rule.closing >>= fun _ => pure value) _ = _
    rw [outcome_bind, outcome_closing closing.property]
    rfl

theorem call {f : Function} (name : Terminal (.function f)) (opening : Terminal .leftParen)
    {args : Tree .arguments} (h : Evaluates env n args) :
    Evaluates env n (.call f name opening args) := by
  intro us _
  have h : outcome (Rule.arguments env) ⟨args.tokens ++ us, n⟩ = _ :=
    h us (below_of_three_le (Nat.le_refl _))
  show outcome (phrase env .primary) ⟨name.val :: opening.val :: (args.tokens ++ us), n⟩ = _
  rw [outcome_congr primary_cons]
  simp only [name.property]
  rw [outcome_callOf opening.property, ← Rule.arguments_eq, outcome_bind, h]
  cases hargs : args.eval env with
  | error e =>
    rw [Tree.eval, hargs]
    rfl
  | ok values =>
    show outcome (callThen f name.val env.angleUnit values) _ = _
    rw [Tree.eval_call hargs]
    unfold callThen
    cases f.apply values env.angleUnit <;> rfl

/-! ### Chains -/

theorem single {level : Level} {t : Tree (.phrase (operand level))} (h : Evaluates env n t) :
    Evaluates env n (.single t) := by
  intro us hb
  have hb : Below (operand level).rank us := by
    rw [rank_operand]
    exact hb
  show outcome (phrase env (.chain level)) ⟨t.tokens ++ us, n⟩ = _
  rw [phrase_chain, outcome_bind, h.whole hb, Tree.eval]
  cases t.eval env <;> rfl

/-- Behind its left operand the rule is at the operator, which it goes on with. -/
theorem binary {level : Level} {left : Tree (.phrase (.chain level))} {op : Operator}
    (binds : op.level = level) (token : Terminal (.operator op))
    {right : Tree (.phrase (operand level))} (hl : Evaluates env n left)
    (hr : Evaluates env n right) : Evaluates env n (.binary left op binds token right) := by
  intro us hb
  have hop : token.val.operatorAt? level = some op :=
    operatorAt?_eq_some_iff.2 ⟨token.property, binds⟩
  have hright : Below (operand level).rank us := by
    rw [rank_operand]
    exact hb
  have hleft : Below (level.rank + 1) (token.val :: (right.tokens ++ us)) := by
    refine below_cons.2 fun op' hk => ?_
    obtain rfl : op = op' := by simpa [token.property] using hk
    rw [binds]
    exact Nat.lt_succ_self _
  have hl : outcome (phrase env (.chain level))
    ⟨left.tokens ++ token.val :: (right.tokens ++ us), n⟩ = _ := hl _ hleft
  show outcome (phrase env (.chain level)) ⟨(left.tokens ++ token.val :: right.tokens) ++ us, n⟩ = _
  rw [List.append_assoc, List.cons_append, hl]
  cases hevall : left.eval env with
  | error e =>
    rw [Tree.eval, hevall]
    rfl
  | ok a =>
    show outcome (more env level a) _ = _
    rw [outcome_congr (more_of_some hop), outcome_bind, hr.whole hright]
    cases hevalr : right.eval env with
    | error e =>
      rw [Tree.eval, hevall, hevalr]
      rfl
    | ok b =>
      show outcome (applyThen op token a (more env level) b) _ = _
      rw [Tree.eval_binary hevall hevalr]
      unfold applyThen
      cases op.apply a b <;> rfl

/-! ### Arguments -/

theorem item (h : Evaluates env n e) : Evaluates env n (.item e) := by
  intro us hb
  have hb : Below expression.rank us := hb
  show outcome (Rule.argumentsFrom (Rule.expression env)
    (Rule.maxArguments - ([] : List Float).length) []) ⟨e.tokens ++ us, n⟩ = _
  rw [argumentsFrom_of_lt (by decide), outcome_bind, h.whole hb, Tree.eval]
  cases e.eval env <;> rfl

theorem more {before : Tree .items} (comma : Terminal .comma) (hi : Evaluates env n before)
    (h : Evaluates env n e) : Evaluates env n (.more before comma e) := by
  intro us hb
  have hb : Below expression.rank us := hb
  have hi : outcome (rule env .items) ⟨before.tokens ++ comma.val :: (e.tokens ++ us), n⟩ = _ :=
    hi _ (below_of_kind comma.property (by simp))
  show outcome (rule env .items) ⟨(before.tokens ++ comma.val :: e.tokens) ++ us, n⟩ = _
  rw [List.append_assoc, List.cons_append, hi]
  cases hbefore : before.eval env with
  | error e =>
    rw [Tree.eval, hbefore]
    rfl
  | ok values =>
    show outcome (moreItems env values) _ = _
    rw [Tree.eval_more hbefore, outcome_moreItems_comma comma.property]
    by_cases hlen : values.length < Rule.maxArguments
    · rw [argumentsFrom_of_lt hlen, if_pos hlen, outcome_bind, h.whole hb]
      cases e.eval env <;> rfl
    · obtain ⟨ts, hts⟩ := e.tokens_eq_cons
      rw [argumentsFrom_of_ge hlen, if_neg hlen, hts]
      rfl

theorem someItems {items : Tree .items} (closing : Terminal .rightParen)
    (h : Evaluates env n items) : Evaluates env n (.someItems items closing) := by
  intro us _
  have h : outcome (rule env .items) ⟨items.tokens ++ closing.val :: us, n⟩ = _ :=
    h _ (below_of_kind closing.property (by simp))
  obtain ⟨ts, hts⟩ := items.tokens_eq_cons
  have hcurrent : (Cursor.mk (items.tokens ++ closing.val :: us) n).current = items.first := by
    rw [hts]
    rfl
  have hfirst : items.first.kind ≠ .rightParen := by
    intro hk
    cases items.eq_arguments_of_first hk
  show outcome (Rule.arguments env) ⟨(items.tokens ++ [closing.val]) ++ us, n⟩ = _
  rw [List.append_assoc, List.singleton_append, Rule.arguments_eq]
  unfold Rule.argumentsOf
  rw [outcome_peek_bind, hcurrent, if_neg hfirst]
  show outcome (rule env .items) _ = _
  rw [h, Tree.eval]
  cases items.eval env with
  | error e => rfl
  | ok values => exact outcome_moreItems_closing closing.property

end Evaluates

theorem evaluates_noItems (closing : Terminal .rightParen) :
    Evaluates env n (.noItems closing) := by
  intro us _
  show outcome (Rule.arguments env) ⟨closing.val :: us, n⟩ = _
  rw [Rule.arguments_eq]
  unfold Rule.argumentsOf
  rw [outcome_peek_bind]
  show outcome (if closing.val.kind = .rightParen then _ else _) _ = _
  rw [if_pos closing.property]
  rfl

/-! ### All trees -/

/-- **In front of the sentence of a tree, its rule evaluates the tree and goes on behind it.** -/
theorem evaluates (env : Environment) (n : Nat) (t : Tree k) : Evaluates env n t := by
  induction t with
  | number token value kind digit => exact evaluates_number kind digit
  | constant c token => exact evaluates_constant c token
  | register r token name => exact evaluates_register name
  | positive sign t ih => exact ih.positive sign
  | negative sign t ih => exact ih.negative sign
  | group opening t closing ih => exact ih.group opening closing
  | call f name opening args ih => exact ih.call name opening
  | single t ih => exact ih.single
  | binary left op binds token right ihl ihr => exact ihl.binary binds token ihr
  | item t ih => exact ih.item
  | more before comma t ihb iht => exact ihb.more comma iht
  | noItems closing => exact evaluates_noItems closing
  | someItems items closing ih => exact ih.someItems closing

end Calculator.Grammar
