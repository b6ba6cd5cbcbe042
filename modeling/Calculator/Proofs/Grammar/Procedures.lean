import Mathlib.Logic.Function.Iterate
import Calculator.Proofs.Grammar.Lookahead

/-!
# The rules as procedures

The rules of the grammar call each other without a bound. Here they are written down so, as
programs, and every one of them comes to an end.

* `Procedure`: the rules, with a loop being a procedure that calls itself;
* `Code`, `Procedure.body`: what a procedure does. It looks at the current token, steps over it,
  rejects, or calls a procedure;
* `Exec env code c k x`: executing `code` at the cursor `c` ends, with the result `x` and after `k`
  steps over a token. A call executes the body of its procedure, so an execution is a finite tree;
* `Procedure.terminates`: every procedure has an execution at every cursor, with the result of its
  `Procedure.rule`, and no other one (`Exec.unique`).

An execution ends because a call either is behind the current token, so that fewer tokens are ahead
of it, or is at the same place and of a procedure with a smaller `Procedure.height`.
-/

namespace Calculator.Grammar

open Rule (Stepwise bind_of_ok bind_of_error applyThen)

variable {env : Environment} {α : Type} {c d : Cursor} {k m : Nat}
  {x y : EStateM.Result Rejection Cursor α}

/-! ### Programs -/

/-- **What can be called**, by what it gives: the rules, and what is left to do in their loops.
`more level left` folds operators onto `left`, `items values` reads the arguments behind those with
the given values. -/
inductive Procedure : Type → Type
  | phrase (p : Phrase) : Procedure Float
  | more (level : Level) (left : Float) : Procedure Float
  | closing : Procedure Unit
  | arguments : Procedure (List Float)
  | items (values : List Float) : Procedure (List Float)
  | call (f : Function) : Procedure Float

/-- **A program that reads tokens.** -/
inductive Code (α : Type) : Type 1
  | pure (a : α)
  | rejectAt (position : Nat) (cause : Cause)
  | peek (next : Token → Code α)
  | skip (next : Code α)
  | call {β : Type} (p : Procedure β) (next : β → Code α)

namespace Procedure

/-- What a primary does at a number. -/
def literalCode (token : Token) (value : Float) : Code Float :=
  if !token.text.toList.any Char.isDigit then
    .rejectAt token.offset (.malformedNumber token.text)
  else if !value.isFinite then .rejectAt token.offset (.numberOutOfRange token.text)
  else .skip (.pure value)

/-- What a primary does at the name of no function or constant. -/
def registerCode (env : Environment) (name : Token) : Code Float :=
  .skip <|
    match env.lookup? name.text with
    | some value => .pure value
    | none => .peek fun next =>
      if next.kind = .leftParen then .rejectAt name.offset (.unknownFunction name.text)
      else .rejectAt name.offset (.unknownVariable name.text)

/-- What a primary does at a token. -/
def primaryCode (env : Environment) (token : Token) : Code Float :=
  match token.kind with
  | .number value => literalCode token value
  | .constant c => .skip (.pure c.value)
  | .variable => registerCode env token
  | .operator .sub => .skip (.call (.phrase .primary) fun value => .pure (-value))
  | .operator .add => .skip (.call (.phrase .primary) .pure)
  | .leftParen =>
    .skip (.call (.phrase expression) fun value => .call .closing fun _ => .pure value)
  | .function f => .call (.call f) .pure
  | .unknown => .rejectAt token.offset (.unknownCharacter token.text)
  | .finish => .rejectAt token.offset .unexpectedEnd
  | .operator _ | .rightParen | .comma => .rejectAt token.offset (.unexpectedToken token.text)

/-- **What a procedure does.** -/
def body (env : Environment) : {α : Type} → Procedure α → Code α
  | _, phrase .primary => .peek (primaryCode env)
  | _, phrase (.chain level) =>
    .call (phrase (operand level)) fun first => .call (more level first) .pure
  | _, more level left =>
    .peek fun token =>
      match token.operatorAt? level with
      | none => .pure left
      | some op =>
        .skip <| .call (phrase (operand level)) fun right =>
          match op.apply left right with
          | .ok value => .call (more level value) .pure
          | .error flaw => .rejectAt token.offset (.operation flaw)
  | _, closing =>
    .peek fun token =>
      if token.kind = .rightParen then .skip (.pure ()) else .rejectAt token.offset .missingClosing
  | _, arguments =>
    .peek fun token =>
      if token.kind = .rightParen then .skip (.pure []) else .call (items []) .pure
  | _, items values =>
    if values.length < Rule.maxArguments then
      .call (phrase expression) fun value =>
        .peek fun token =>
          if token.kind = .comma then .skip (.call (items (values ++ [value])) .pure)
          else .call closing fun _ => .pure (values ++ [value])
    else .peek fun token => .rejectAt token.offset (.argumentLimit Rule.maxArguments)
  | _, call f =>
    .peek fun name => .skip <| .peek fun opening =>
      if opening.kind = .leftParen then
        .skip <| .call arguments fun values =>
          match f.apply values env.angleUnit with
          | .ok value => .pure value
          | .error flaw => .rejectAt name.offset (.call flaw f.name)
      else .rejectAt opening.offset (.missingOpening f.name)

end Procedure

/-! ### Executions -/

/-- **`code` ends at the cursor `c` with the result `x`**, having stepped `k` times over a token. -/
inductive Exec (env : Environment) : {α : Type} → Code α → Cursor → Nat →
    EStateM.Result Rejection Cursor α → Prop
  | pure {α : Type} (a : α) (c : Cursor) : Exec env (.pure a) c 0 (.ok a c)
  | rejectAt {α : Type} (position : Nat) (cause : Cause) (c : Cursor) :
      Exec env (.rejectAt position cause : Code α) c 0 (.error ⟨cause, position⟩ c)
  | peek {α : Type} {next : Token → Code α} {c : Cursor} {k : Nat}
      {x : EStateM.Result Rejection Cursor α} (h : Exec env (next c.current) c k x) :
      Exec env (.peek next) c k x
  | skip {α : Type} {next : Code α} {c : Cursor} {k : Nat}
      {x : EStateM.Result Rejection Cursor α} (h : Exec env next c.advance k x) :
      Exec env (.skip next) c (k + 1) x
  | returned {α β : Type} {p : Procedure β} {next : β → Code α} {c d : Cursor} {k m : Nat}
      {a : β} {x : EStateM.Result Rejection Cursor α}
      (hp : Exec env (p.body env) c k (.ok a d)) (h : Exec env (next a) d m x) :
      Exec env (.call p next) c (k + m) x
  | rejected {α β : Type} {p : Procedure β} {next : β → Code α} {c d : Cursor} {k : Nat}
      {r : Rejection} (hp : Exec env (p.body env) c k (.error r d)) :
      Exec env (.call p next) c k (.error r d)

namespace Exec

variable {code : Code α}

/-- **An execution is the only one**: what a program does is determined. -/
theorem unique (h : Exec env code c k x) (h' : Exec env code c m y) : k = m ∧ x = y := by
  induction h generalizing m with
  | pure a c =>
    cases h'
    exact ⟨rfl, rfl⟩
  | rejectAt position cause c =>
    cases h'
    exact ⟨rfl, rfl⟩
  | peek h ih =>
    cases h' with
    | peek h' => exact ih h'
  | skip h ih =>
    cases h' with
    | skip h' =>
      obtain ⟨rfl, rfl⟩ := ih h'
      exact ⟨rfl, rfl⟩
  | returned hp h ihp ih =>
    cases h' with
    | returned hp' h' =>
      obtain ⟨rfl, heq⟩ := ihp hp'
      obtain ⟨rfl, rfl⟩ := EStateM.Result.ok.inj heq
      obtain ⟨rfl, rfl⟩ := ih h'
      exact ⟨rfl, rfl⟩
    | rejected hp' =>
      obtain ⟨-, heq⟩ := ihp hp'
      cases heq
  | rejected hp ih =>
    cases h' with
    | returned hp' h' =>
      obtain ⟨-, heq⟩ := ih hp'
      cases heq
    | rejected hp' =>
      obtain ⟨rfl, heq⟩ := ih hp'
      obtain ⟨rfl, rfl⟩ := EStateM.Result.error.inj heq
      exact ⟨rfl, rfl⟩

theorem stop_eq (h : Exec env code c k x) : Rule.stop x = Cursor.advance^[k] c := by
  induction h with
  | pure a c => rfl
  | rejectAt position cause c => rfl
  | peek h ih => exact ih
  | skip h ih => exact ih
  | @returned α β p next c d k m a x hp h ihp ih =>
    have hd : d = Cursor.advance^[k] c := ihp
    rw [ih, hd, Nat.add_comm, Function.iterate_add_apply]
  | rejected hp ih => exact ih

end Exec

/-! ### Programs as rules -/

/-- The rule that a program describes, if calls are done by `rules`. -/
def Code.toRule (rules : {β : Type} → Procedure β → Rule β) : Code α → Rule α
  | .pure a => Pure.pure a
  | .rejectAt position cause => Rule.rejectAt position cause
  | .peek next => Rule.peek >>= fun token => (next token).toRule rules
  | .skip next => Rule.skip >>= fun _ => next.toRule rules
  | .call p next => rules p >>= fun a => (next a).toRule rules

namespace Procedure

variable (env)

/-- **The rule of a procedure.** -/
def rule : {α : Type} → Procedure α → Rule α
  | _, phrase p => Grammar.phrase env p
  | _, more level left => Grammar.more env level left
  | _, closing => Rule.closing
  | _, arguments => Rule.arguments env
  | _, items values =>
    Rule.argumentsFrom (Rule.expression env) (Rule.maxArguments - values.length) values
  | _, call f => Rule.call env f

theorem stepwise_phrase (p : Phrase) : Stepwise (Grammar.phrase env p) := by
  cases p with
  | primary => exact .primary env
  | chain level =>
    cases level with
    | sum => exact .expression env
    | product =>
      show Stepwise (Rule.term env)
      rw [Rule.term_eq, Rule.factor_eq]
      exact .chain _ (.chain _ (.primary env))
    | power =>
      show Stepwise (Rule.factor env)
      rw [Rule.factor_eq]
      exact .chain _ (.primary env)

theorem stepwise_rule (p : Procedure α) : Stepwise (p.rule env) := by
  cases p with
  | phrase p => exact stepwise_phrase env p
  | more level left =>
    refine .bounded (fun n => .chainFrom level (stepwise_phrase env _) n left) fun c n hn => ?_
    exact Rule.chainFrom_bound (stepwise_phrase env _).agree (Nat.le_refl _) hn
  | closing => exact .closing
  | arguments =>
    show Stepwise (Rule.arguments env)
    rw [Rule.arguments_eq]
    exact .argumentsOf (.expression env)
  | items values => exact .argumentsFrom (.expression env) _ values
  | call f =>
    show Stepwise (Rule.call env f)
    rw [Rule.call_eq]
    exact .callOf (.expression env) f

/-! ### The rules satisfy their programs -/

section Rules

variable {token : Token} {us : List Token} {n : Nat} {rules : {β : Type} → Procedure β → Rule β}

theorem toRule_tail (rules : {β : Type} → Procedure β → Rule β) (p : Procedure α) :
    (Code.call p .pure).toRule rules = rules p :=
  bind_pure (rules p)

theorem toRule_skip (next : Code α) :
    next.skip.toRule rules ⟨token :: us, n⟩ = next.toRule rules ⟨us, n⟩ := rfl

theorem toRule_literalCode (value : Float) :
    (literalCode token value).toRule rules ⟨token :: us, n⟩ =
      Rule.literal token value ⟨token :: us, n⟩ := by
  unfold literalCode Rule.literal
  by_cases hdigit : (!token.text.toList.any Char.isDigit) = true
  · rw [if_pos hdigit, if_pos hdigit]
    rfl
  · rw [if_neg hdigit, if_neg hdigit]
    by_cases hfinite : (!value.isFinite) = true
    · rw [if_pos hfinite, if_pos hfinite]
      rfl
    · rw [if_neg hfinite, if_neg hfinite]
      rfl

theorem toRule_registerCode (name : Token) :
    (registerCode env name).toRule rules ⟨token :: us, n⟩ =
      Rule.register env name ⟨token :: us, n⟩ := by
  unfold registerCode Rule.register
  rw [toRule_skip, Rule.skip_bind]
  cases env.lookup? name.text with
  | some value => rfl
  | none =>
    show Code.toRule rules (if (front us n).kind = .leftParen then _ else _) _ =
      (if (front us n).kind = .leftParen then _ else _ : Rule Float) _
    split
    · rfl
    · rfl

theorem toRule_primaryCode :
    (primaryCode env token).toRule (rule env) ⟨token :: us, n⟩ =
      Grammar.phrase env .primary ⟨token :: us, n⟩ := by
  rw [primary_cons]
  unfold primaryCode
  cases hk : token.kind with
  | number value => exact toRule_literalCode value
  | «variable» => exact toRule_registerCode env token
  | function f =>
    dsimp only
    rw [toRule_tail, ← Rule.call_eq]
    rfl
  | operator op =>
    cases op with
    | add =>
      dsimp only
      rw [toRule_skip, toRule_tail]
      rfl
    | _ => rfl
  | _ => rfl

theorem rule_primary (c : Cursor) :
    (phrase .primary).rule env c = ((phrase .primary).body env).toRule (rule env) c := by
  obtain ⟨ts, n⟩ := c
  cases ts with
  | nil =>
    show Grammar.phrase env .primary _ = _
    rw [primary_nil]
    rfl
  | cons token us => exact (toRule_primaryCode env).symm

theorem rule_more (level : Level) (left : Float) (c : Cursor) :
    (more level left).rule env c = ((more level left).body env).toRule (rule env) c := by
  show Grammar.more env level left c =
    Code.toRule (rule env) (match c.current.operatorAt? level with | none => _ | some op => _) c
  cases hop : c.current.operatorAt? level with
  | none => exact more_of_none hop
  | some op =>
    obtain ⟨ts, n⟩ := c
    cases ts with
    | nil => cases hop
    | cons token us =>
      have hsome : token.operatorAt? level = some op := hop
      rw [more_of_some hsome]
      refine congrFun (congrArg (Grammar.phrase env (operand level) >>= ·) ?_) _
      funext right
      unfold applyThen
      dsimp only
      cases op.apply left right with
      | ok value => exact (toRule_tail (rule env) (more level value)).symm
      | error flaw => rfl

theorem rule_arguments (c : Cursor) :
    arguments.rule env c = (arguments.body env).toRule (rule env) c := by
  show Rule.arguments env c =
    Code.toRule (rule env) (if c.current.kind = .rightParen then _ else .call (items []) .pure) c
  rw [Rule.arguments_eq, Rule.argumentsOf, Rule.peek_bind]
  split
  · rfl
  · rw [toRule_tail]
    rfl

theorem rule_items (values : List Float) (c : Cursor) :
    (items values).rule env c = ((items values).body env).toRule (rule env) c := by
  show Rule.argumentsFrom (Rule.expression env) (Rule.maxArguments - values.length) values c =
    Code.toRule (rule env) (if values.length < Rule.maxArguments then _ else _) c
  by_cases hroom : values.length < Rule.maxArguments
  · rw [argumentsFrom_of_lt hroom, if_pos hroom]
    refine congrFun (congrArg (Grammar.phrase env expression >>= ·) ?_) _
    funext value d
    show (if d.current.kind = .comma then _ else _ : Rule (List Float)) d =
      Code.toRule (rule env) (if d.current.kind = .comma then _ else _) d
    split
    · rw [Code.toRule, toRule_tail]
      rfl
    · rfl
  · rw [argumentsFrom_of_ge hroom, if_neg hroom]
    rfl

theorem rule_call (f : Function) (c : Cursor) :
    (call f).rule env c = ((call f).body env).toRule (rule env) c := by
  show Rule.call env f c = Code.toRule (rule env) (.skip (.peek fun opening => _)) c
  rw [Rule.call_eq]
  show (if c.advance.current.kind = .leftParen then _ else _ : Rule Float) c.advance =
    Code.toRule (rule env) (if c.advance.current.kind = .leftParen then _ else _) c.advance
  split
  · refine congrFun (congrArg (Rule.skip >>= ·) ?_) _
    funext _
    rw [← Rule.arguments_eq]
    refine congrArg (Rule.arguments env >>= ·) ?_
    funext values
    dsimp only
    cases f.apply values env.angleUnit with
    | ok value => rfl
    | error flaw => rfl
  · rfl

/-- **Each rule does what its program says**, with the rules themselves for the calls. -/
theorem rule_eq (p : Procedure α) (c : Cursor) :
    p.rule env c = (p.body env).toRule (rule env) c := by
  cases p with
  | phrase p =>
    cases p with
    | primary => exact rule_primary env c
    | chain level =>
      show Grammar.phrase env (.chain level) c = _
      rw [phrase_chain]
      refine congrFun (congrArg (Grammar.phrase env (operand level) >>= ·) ?_) _
      funext first
      exact (toRule_tail (rule env) (more level first)).symm
  | more level left => exact rule_more env level left c
  | closing =>
    show Rule.closing c = Code.toRule (rule env) (if c.current.kind = .rightParen then _ else _) c
    show (if c.current.kind = .rightParen then _ else _ : Rule Unit) c = _
    split
    · rfl
    · rfl
  | arguments => exact rule_arguments env c
  | items values => exact rule_items env values c
  | call f => exact rule_call env f c

end Rules

end Procedure

/-! ### Termination -/

/-- **Every call that a program makes** from a cursor on satisfies `P`. -/
def Code.Calls (env : Environment) (P : {β : Type} → Procedure β → Cursor → Prop) :
    Code α → Cursor → Prop
  | .pure _, _ | .rejectAt _ _, _ => True
  | .peek next, c => Calls env P (next c.current) c
  | .skip next, c => Calls env P next c.advance
  | .call p next, c => P p c ∧ ∀ a d, p.rule env c = .ok a d → Calls env P (next a) d

/-- A program ends if all the procedures end that it calls. -/
theorem Code.exists_exec {P : {β : Type} → Procedure β → Cursor → Prop}
    (h : ∀ {β : Type} (p : Procedure β) c, P p c → ∃ k, Exec env (p.body env) c k (p.rule env c))
    (code : Code α) (c : Cursor) (hc : code.Calls env P c) :
    ∃ k, Exec env code c k (code.toRule (Procedure.rule env) c) := by
  induction code generalizing c with
  | pure a => exact ⟨0, .pure a c⟩
  | rejectAt position cause => exact ⟨0, .rejectAt position cause c⟩
  | peek next ih =>
    obtain ⟨k, hk⟩ := ih c.current c hc
    exact ⟨k, .peek hk⟩
  | skip next ih =>
    obtain ⟨k, hk⟩ := ih c.advance hc
    exact ⟨k + 1, .skip hk⟩
  | call p next ih =>
    obtain ⟨hp, hnext⟩ := hc
    obtain ⟨k, hk⟩ := h p c hp
    show ∃ k, Exec env _ c k ((p.rule env >>= _) c)
    cases hr : p.rule env c with
    | error r d =>
      rw [hr] at hk
      rw [bind_of_error hr]
      exact ⟨k, .rejected hk⟩
    | ok a d =>
      rw [hr] at hk
      obtain ⟨m, hm⟩ := ih a d (hnext a d hr)
      rw [bind_of_ok hr]
      exact ⟨k + m, .returned hk hm⟩

namespace Procedure

/-- The number of calls that can be inside each other at one place. -/
def height : {α : Type} → Procedure α → Nat
  | _, phrase p => 4 - p.rank
  | _, more _ _ | _, closing | _, call _ => 0
  | _, items _ => 5
  | _, arguments => 6

theorem height_le (p : Procedure α) : p.height ≤ 6 := by
  cases p with
  | phrase p => exact Nat.le_trans (Nat.sub_le 4 _) (by decide)
  | _ => simp [height]

/-- A call that is further on, or at the same place and lower. -/
def Inside (p : Procedure α) (c : Cursor) {β : Type} (q : Procedure β) (d : Cursor) : Prop :=
  d.ahead.length < c.ahead.length ∨ d.ahead.length ≤ c.ahead.length ∧ q.height < p.height

theorem ahead_le {p : Procedure α} {a : α} (h : p.rule env c = .ok a d) :
    d.ahead.length ≤ c.ahead.length := by
  have hle := ((p.stepwise_rule env).suffix c).1.length_le
  rw [h] at hle
  exact hle

theorem advance_lt (h : c.current.kind ≠ .finish) : c.advance.ahead.length < c.ahead.length := by
  obtain ⟨ts, n⟩ := c
  cases ts with
  | nil => exact absurd rfl h
  | cons token us => exact Nat.lt_succ_self us.length

theorem operand_height (level : Level) :
    (phrase (operand level)).height < (phrase (.chain level)).height := by
  cases level <;> decide

theorem calls_primary (c : Cursor) :
    ((phrase .primary).body env).Calls env (Inside (phrase .primary) c) c := by
  show (primaryCode env c.current).Calls env _ c
  unfold primaryCode
  cases hk : c.current.kind with
  | number value =>
    dsimp only [literalCode]
    split
    · trivial
    · split <;> trivial
  | «variable» =>
    dsimp only [registerCode, Code.Calls]
    split
    · trivial
    · dsimp only [Code.Calls]
      split <;> trivial
  | function f => exact ⟨Or.inr ⟨Nat.le_refl _, Nat.zero_lt_one⟩, fun _ _ _ => trivial⟩
  | operator op =>
    have hlt := advance_lt (c := c) (by simp [hk])
    cases op with
    | add | sub => exact ⟨Or.inl hlt, fun _ _ _ => trivial⟩
    | _ => trivial
  | leftParen =>
    have hlt := advance_lt (c := c) (by simp [hk])
    refine ⟨Or.inl hlt, fun value d hd => ⟨Or.inl ?_, fun _ _ _ => trivial⟩⟩
    have hle := ahead_le (p := phrase expression) hd
    omega
  | _ => trivial

theorem calls_more (level : Level) (left : Float) (c : Cursor) :
    ((more level left).body env).Calls env (Inside (more level left) c) c := by
  show Code.Calls env _ (match c.current.operatorAt? level with | none => _ | some op => _) c
  cases hop : c.current.operatorAt? level with
  | none => trivial
  | some op =>
    obtain ⟨hk, -⟩ := operatorAt?_eq_some_iff.1 hop
    have hlt := advance_lt (c := c) (by simp [hk])
    refine ⟨Or.inl hlt, fun right d hd => ?_⟩
    have hle := ahead_le (p := phrase (operand level)) hd
    dsimp only
    cases op.apply left right with
    | ok value => exact ⟨Or.inl (by omega), fun _ _ _ => trivial⟩
    | error flaw => trivial

theorem calls_items (values : List Float) (c : Cursor) :
    ((items values).body env).Calls env (Inside (items values) c) c := by
  show Code.Calls env _ (if values.length < Rule.maxArguments then _ else _) c
  by_cases hroom : values.length < Rule.maxArguments
  · rw [if_pos hroom]
    refine ⟨Or.inr ⟨Nat.le_refl _, Nat.lt_succ_self 4⟩, fun value d hd => ?_⟩
    have hle := ahead_le (p := phrase expression) hd
    show Code.Calls env _ (if d.current.kind = .comma then _ else _) d
    by_cases hcomma : d.current.kind = .comma
    · have hlt := advance_lt (c := d) (by simp [hcomma])
      rw [if_pos hcomma]
      exact ⟨Or.inl (by omega), fun _ _ _ => trivial⟩
    · rw [if_neg hcomma]
      exact ⟨Or.inr ⟨hle, Nat.succ_pos 4⟩, fun _ _ _ => trivial⟩
  · rw [if_neg hroom]
    trivial

theorem calls_call (f : Function) (c : Cursor) :
    ((call f).body env).Calls env (Inside (call f) c) c := by
  show Code.Calls env _ (if c.advance.current.kind = .leftParen then _ else _) c.advance
  by_cases ho : c.advance.current.kind = .leftParen
  · have hlt := advance_lt (c := c.advance) (by simp [ho])
    have hle : c.advance.ahead.length ≤ c.ahead.length := (List.tail_suffix _).length_le
    rw [if_pos ho]
    refine ⟨Or.inl (by omega), fun values d _ => ?_⟩
    dsimp only
    cases f.apply values env.angleUnit <;> trivial
  · rw [if_neg ho]
    trivial

/-- **All that a procedure calls is inside it**: further on, or lower. -/
theorem calls_body (p : Procedure α) (c : Cursor) : (p.body env).Calls env (Inside p c) c := by
  cases p with
  | phrase p =>
    cases p with
    | primary => exact calls_primary c
    | chain level =>
      have hheight := operand_height level
      refine ⟨Or.inr ⟨Nat.le_refl _, hheight⟩, fun first d hd =>
        ⟨Or.inr ⟨?_, ?_⟩, fun _ _ _ => trivial⟩⟩
      · exact ahead_le (p := phrase (operand level)) hd
      · exact Nat.zero_lt_of_lt hheight
  | more level left => exact calls_more level left c
  | closing =>
    show Code.Calls env _ (if c.current.kind = .rightParen then _ else _) c
    split <;> trivial
  | arguments =>
    show Code.Calls env _ (if c.current.kind = .rightParen then _ else _) c
    split
    · trivial
    · exact ⟨Or.inr ⟨Nat.le_refl _, Nat.lt_succ_self 5⟩, fun _ _ _ => trivial⟩
  | items values => exact calls_items values c
  | call f => exact calls_call f c

/-- **Every procedure ends** at every cursor, with the result of its rule. -/
theorem terminates (p : Procedure α) (c : Cursor) :
    ∃ k, Exec env (p.body env) c k (p.rule env c) := by
  -- A call inside has fewer tokens ahead, or as many and a smaller height.
  induction hn : c.ahead.length * 7 + p.height using Nat.strongRecOn generalizing α c with
  | _ n ih =>
    rw [rule_eq]
    refine Code.exists_exec (fun q d hq => ih _ ?_ q d rfl) _ c (calls_body p c)
    have hle : q.height ≤ 6 := height_le q
    rcases hq with hlt | ⟨hle, hlt⟩
    · omega
    · omega

end Procedure

end Calculator.Grammar
