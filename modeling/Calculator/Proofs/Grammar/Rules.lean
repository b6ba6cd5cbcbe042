import Calculator.Expression.Bound
import Calculator.Proofs.Grammar.Tree

/-!
# The rules, one step at a time

What the rules of the grammar do to a cursor, without bounds and without unfolding them later.

* `bind_of_ok`, `bind_of_error`: how a rule made of two goes on after the first;
* `outcome r c`: the result of `r` without the cursor that a rejection leaves;
* `phrase env p`: the rule of a phrase. A chain reads an operand and then `more` of them
  (`phrase_chain`), one operator at a time (`more_of_none`, `more_of_some`);
* `moreItems`: what follows some items of a call, up to the parenthesis that closes it.
-/

namespace Calculator

namespace Rule

variable {α β : Type}

/-! ### Results of rules -/

theorem bind_of_ok {r : Rule α} {c d : Cursor} {a : α} (h : r c = .ok a d) (f : α → Rule β) :
    (r >>= f) c = f a d := by
  show EStateM.bind r f c = _
  unfold EStateM.bind
  rw [h]

theorem bind_of_error {r : Rule α} {c d : Cursor} {e : Rejection} (h : r c = .error e d)
    (f : α → Rule β) : (r >>= f) c = .error e d := by
  show EStateM.bind r f c = _
  unfold EStateM.bind
  rw [h]

theorem peek_bind (f : Token → Rule α) (c : Cursor) : (peek >>= f) c = f c.current c := rfl

theorem skip_bind (f : Unit → Rule α) (token : Token) (us : List Token) (n : Nat) :
    (skip >>= f) ⟨token :: us, n⟩ = f () ⟨us, n⟩ := rfl

/-- The result of a rule without the cursor that a rejection leaves. -/
def outcome (r : Rule α) (c : Cursor) : Except Rejection (α × Cursor) :=
  match r c with
  | .ok a d => .ok (a, d)
  | .error e _ => .error e

theorem outcome_congr {r r' : Rule α} {c c' : Cursor} (h : r c = r' c') :
    outcome r c = outcome r' c' := by
  unfold outcome
  rw [h]

theorem eq_ok_of_outcome {r : Rule α} {c d : Cursor} {a : α} (h : outcome r c = .ok (a, d)) :
    r c = .ok a d := by
  unfold outcome at h
  cases hr : r c with
  | ok b e =>
    rw [hr] at h
    obtain ⟨rfl, rfl⟩ := Prod.mk.inj (Except.ok.inj h)
    rfl
  | error r e =>
    rw [hr] at h
    cases h

theorem outcome_bind (r : Rule α) (f : α → Rule β) (c : Cursor) :
    outcome (r >>= f) c = (outcome r c).bind fun p => outcome (f p.1) p.2 := by
  unfold outcome
  cases h : r c with
  | ok a d =>
    rw [bind_of_ok h]
    rfl
  | error e d =>
    rw [bind_of_error h]
    rfl

theorem outcome_peek_bind (f : Token → Rule α) (c : Cursor) :
    outcome (peek >>= f) c = outcome (f c.current) c := outcome_congr (peek_bind f c)

theorem outcome_skip_bind (f : Unit → Rule α) (token : Token) (us : List Token) (n : Nat) :
    outcome (skip >>= f) ⟨token :: us, n⟩ = outcome (f ()) ⟨us, n⟩ :=
  outcome_congr (skip_bind f token us n)

/-! ### Chains -/

variable {level : Level} {operand : Rule Float} {b b' n : Nat} {left : Float} {c : Cursor}

theorem operatorAt?_nil (h : c.ahead = []) : c.current.operatorAt? level = none := by
  rw [Cursor.current_nil h]
  rfl

theorem chainFrom_of_none (h : c.current.operatorAt? level = none) :
    chainFrom level operand b left c = .ok left c := by
  cases b with
  | zero => rfl
  | succ b =>
    rw [chainFrom, peek_bind, h]
    rfl

/-- What a chain does with a right operand. -/
def applyThen (op : Operator) (token : Token) (left : Float) (next : Float → Rule Float)
    (right : Float) : Rule Float :=
  match op.apply left right with
  | .ok value => next value
  | .error flaw => rejectAt token.offset (.operation flaw)

theorem chainFrom_of_some {token : Token} {us : List Token} {op : Operator}
    (h : token.operatorAt? level = some op) :
    chainFrom level operand (b + 1) left ⟨token :: us, n⟩ =
      (operand >>= applyThen op token left (chainFrom level operand b)) ⟨us, n⟩ := by
  have hcurrent : (Cursor.mk (token :: us) n).current.operatorAt? level = some op := h
  rw [chainFrom, peek_bind, hcurrent]
  rfl

theorem Agree.right {Q : Cursor → Prop} {r r' : Rule α} (h : Agree Q r r') : Agree Q r' r' := by
  intro c hc
  obtain ⟨he, hle⟩ := h c hc
  rw [he] at hle
  exact ⟨rfl, hle⟩

/-- A chain takes no more operators than there are tokens, so any bound that is large enough gives
the same. -/
theorem chainFrom_bound (h : ∀ n, Agree (Within n) operand operand) (hb : c.ahead.length ≤ b)
    (hb' : c.ahead.length ≤ b') :
    chainFrom level operand b left c = chainFrom level operand b' left c := by
  induction b generalizing b' c left with
  | zero =>
    have hc : c.current.operatorAt? level = none :=
      operatorAt?_nil (List.length_eq_zero_iff.1 (Nat.le_zero.1 hb))
    rw [chainFrom_of_none hc, chainFrom_of_none hc]
  | succ b ih =>
    obtain ⟨ahead, n⟩ := c
    cases ahead with
    | nil => rw [chainFrom_of_none (operatorAt?_nil rfl), chainFrom_of_none (operatorAt?_nil rfl)]
    | cons token us =>
      cases hop : token.operatorAt? level with
      | none =>
        have hc : (Cursor.mk (token :: us) n).current.operatorAt? level = none := hop
        rw [chainFrom_of_none hc, chainFrom_of_none hc]
      | some op =>
        obtain ⟨b', rfl⟩ : ∃ k, b' = k + 1 := ⟨b' - 1, by simp at hb'; omega⟩
        rw [chainFrom_of_some hop, chainFrom_of_some hop]
        have hle := (h _ ⟨us, n⟩ (Nat.le_refl _)).2
        show EStateM.bind operand _ _ = EStateM.bind operand _ _
        unfold EStateM.bind
        cases hr : operand ⟨us, n⟩ with
        | error e d => rfl
        | ok right d =>
          rw [hr] at hle
          have hd : d.ahead.length ≤ us.length := hle
          simp only [List.length_cons] at hb hb'
          show applyThen op token left _ right d = applyThen op token left _ right d
          unfold applyThen
          cases op.apply left right with
          | error flaw => rfl
          | ok value => exact ih (by omega) (by omega)

end Rule

namespace Grammar

open Rule (Agree Within chainFrom chainFrom_bound applyThen)

variable (env : Environment)

/-! ### Phrases -/

/-- The rule of a phrase. -/
def phrase : Phrase → Rule Float
  | .chain .sum => Rule.expression env
  | .chain .product => Rule.term env
  | .chain .power => Rule.factor env
  | .primary => Rule.primary env

/-- The operators of a level with their right operands, folded onto `left`. -/
def more (level : Level) (left : Float) : Rule Float := do
  chainFrom level (phrase env (operand level)) (← get).ahead.length left

theorem phrase_chain (level : Level) :
    phrase env (.chain level) = phrase env (operand level) >>= more env level := by
  cases level with
  | sum => exact Rule.expression_eq env
  | product => exact Rule.term_eq env
  | power => exact Rule.factor_eq env

theorem agree_phrase (n : Nat) (p : Phrase) : Agree (Within n) (phrase env p) (phrase env p) := by
  have hQ := (Rule.behind_within n).inner
  have hp : Agree (Within n) (Rule.primary env) (Rule.primary env) :=
    (Rule.primaryWithin_agree_primary (Nat.le_refl n)).right
  have hf : Agree (Within n) (Rule.factor env) (Rule.factor env) := by
    rw [Rule.factor_eq]
    exact Agree.chain hQ _ hp
  have ht : Agree (Within n) (Rule.term env) (Rule.term env) := by
    rw [Rule.term_eq]
    exact Agree.chain hQ _ hf
  cases p with
  | primary => exact hp
  | chain level =>
    cases level with
    | power => exact hf
    | product => exact ht
    | sum =>
      show Agree (Within n) (Rule.expression env) (Rule.expression env)
      rw [Rule.expression_eq]
      exact Agree.chain hQ _ ht

variable {env} {level : Level} {left : Float}

theorem more_of_none {c : Cursor} (h : c.current.operatorAt? level = none) :
    more env level left c = .ok left c := Rule.chainFrom_of_none h

theorem more_of_some {token : Token} {us : List Token} {n : Nat} {op : Operator}
    (h : token.operatorAt? level = some op) :
    more env level left ⟨token :: us, n⟩ =
      (phrase env (operand level) >>= applyThen op token left (more env level)) ⟨us, n⟩ := by
  show chainFrom level _ (us.length + 1) left _ = _
  rw [Rule.chainFrom_of_some h]
  have hle := (agree_phrase env _ (operand level) ⟨us, n⟩ (Nat.le_refl _)).2
  show EStateM.bind (phrase env (operand level)) _ _ = EStateM.bind (phrase env (operand level)) _ _
  unfold EStateM.bind
  cases hr : phrase env (operand level) ⟨us, n⟩ with
  | error e d => rfl
  | ok right d =>
    rw [hr] at hle
    show applyThen op token left _ right d = applyThen op token left _ right d
    unfold applyThen
    cases op.apply left right with
    | error flaw => rfl
    | ok value => exact chainFrom_bound (fun n => agree_phrase env n _) hle (Nat.le_refl _)

/-! ### Items -/

variable (env) in
/-- What follows the items of a call with the given values. -/
def moreItems (values : List Float) : Rule (List Float) := do
  if (← Rule.peek).kind = .comma then
    Rule.skip
    Rule.argumentsFrom (Rule.expression env) (Rule.maxArguments - values.length) values
  else
    Rule.closing
    return values

theorem argumentsFrom_of_lt {values : List Float} (h : values.length < Rule.maxArguments) :
    Rule.argumentsFrom (Rule.expression env) (Rule.maxArguments - values.length) values =
      phrase env expression >>= fun value => moreItems env (values ++ [value]) := by
  obtain ⟨room, hroom⟩ : ∃ room, Rule.maxArguments - values.length = room + 1 :=
    ⟨Rule.maxArguments - values.length - 1, by omega⟩
  rw [hroom, Rule.argumentsFrom]
  have hlen (value : Float) : Rule.maxArguments - (values ++ [value]).length = room := by
    rw [List.length_append, List.length_singleton]
    omega
  simp only [moreItems, hlen]
  rfl

theorem argumentsFrom_of_ge {values : List Float} (h : ¬ values.length < Rule.maxArguments) :
    Rule.argumentsFrom (Rule.expression env) (Rule.maxArguments - values.length) values =
      Rule.reject (.argumentLimit Rule.maxArguments) := by
  rw [Nat.sub_eq_zero_of_le (Nat.le_of_not_lt h), Rule.argumentsFrom]

/-! ### Primaries -/

section Primary

variable {token : Token} {us : List Token} {n : Nat}

theorem primary_nil : phrase env .primary ⟨[], n⟩ = .error ⟨.unexpectedEnd, n⟩ ⟨[], n⟩ := by
  show Rule.primary env _ = _
  rw [Rule.primary_eq, Rule.primaryOf_nil rfl]
  rfl

theorem primary_cons : phrase env .primary ⟨token :: us, n⟩ =
    (match token.kind with
      | .number value => Rule.literal token value
      | .constant c => Rule.skip >>= fun _ => pure c.value
      | .variable => Rule.register env token
      | .operator .sub => Rule.skip >>= fun _ => phrase env .primary >>= fun v => pure (-v)
      | .operator .add => Rule.skip >>= fun _ => phrase env .primary
      | .leftParen => Rule.skip >>= fun _ =>
          phrase env expression >>= fun v => Rule.closing >>= fun _ => pure v
      | .function f => Rule.callOf env (Rule.expression env) f
      | .unknown => Rule.reject (.unknownCharacter token.text)
      | .finish => Rule.reject .unexpectedEnd
      | .operator _ | .rightParen | .comma => Rule.reject (.unexpectedToken token.text) :
        Rule Float) ⟨token :: us, n⟩ := by
  show Rule.primary env _ = _
  rw [Rule.primary_eq, Rule.primaryOf, Rule.expressionOf_primary]
  rfl

end Primary

end Grammar

end Calculator
