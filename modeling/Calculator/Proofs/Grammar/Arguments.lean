import Mathlib.Data.List.Basic
import Calculator.Proofs.Grammar.Analysis

/-!
# The arguments of a call

Behind the opening parenthesis of a call its arguments are read one by one, as long as there is a
comma behind each and room for another one. There are five ways for this to end.

* `Listed env ts us values`: `ts` starts with expressions of these values, each followed by a comma,
  and goes on with `us`;
* `Closed`, `Full`, `Failing`, `Unclosed`: how the arguments end behind those that are listed, if
  there is any. `Ending` says which of them a result tells of;
* `arguments_exact`: when they end how, and what the call does with their number.
-/

namespace Calculator

/-! ### The number of arguments -/

namespace Function

variable {f : Function} {args : List Float} {unit : AngleUnit} {flaw : Flaw}

/-- **Only as many arguments as the arity are looked at.** -/
theorem apply_of_length_ne (h : args.length ≠ f.arity) :
    f.apply args unit =
      .error (if args.length < f.arity then .tooFewArguments else .tooManyArguments) := by
  unfold apply
  split
  · exact absurd rfl h
  · exact absurd rfl h
  · rfl

theorem apply_tooFew_iff :
    f.apply args unit = .error .tooFewArguments ↔ args.length < f.arity := by
  constructor
  · intro h
    rcases flaw_of_apply h with ⟨-, hlt⟩ | ⟨hflaw, -⟩ | ⟨hflaw, -⟩ | hflaw
    · exact hlt
    all_goals cases hflaw
  · intro h
    rw [apply_of_length_ne (Nat.ne_of_lt h), if_pos h]

theorem apply_tooMany_iff :
    f.apply args unit = .error .tooManyArguments ↔ f.arity < args.length := by
  constructor
  · intro h
    rcases flaw_of_apply h with ⟨hflaw, -⟩ | ⟨-, hlt⟩ | ⟨hflaw, -⟩ | hflaw
    · cases hflaw
    · exact hlt
    all_goals cases hflaw
  · intro h
    rw [apply_of_length_ne (Nat.ne_of_gt h), if_neg (Nat.lt_asymm h)]

end Function

namespace Grammar

open Rule (bind_of_ok bind_of_error)

variable {env : Environment} {c d : Cursor} {ts us us' : List Token} {n : Nat}
  {value value' : Float} {values values' : List Float} {r : Rejection}

theorem front_ne_of_derived {p : Phrase} (h : Derived env (.phrase p) us n value d) :
    (front us n).kind ≠ .rightParen := by
  obtain ⟨t, rfl, -, -, -⟩ := h
  obtain ⟨ts, hts⟩ := t.tokens_eq_cons
  rw [hts]
  intro hk
  cases t.eq_arguments_of_first hk

/-! ### Arguments with commas behind them -/

/-- **Arguments with a comma behind each**: `ts` starts with expressions of these values, each of
them followed by a comma, and goes on with `us`. An expression counts once, whatever calls there are
in it. -/
inductive Listed (env : Environment) (ts : List Token) : List Token → List Float → Prop
  | none : Listed env ts ts []
  | more {us : List Token} {values : List Float} {value : Float} (t : Tree (.phrase expression))
      (comma : Terminal .comma) (before : Listed env ts (t.tokens ++ comma.val :: us) values)
      (eval : t.eval env = .ok value) : Listed env ts us (values ++ [value])

theorem derived_comma {t : Tree (.phrase expression)} (heval : t.eval env = .ok value)
    (comma : Terminal .comma) (us : List Token) (n : Nat) :
    Derived env (.phrase expression) (t.tokens ++ comma.val :: us) n value
      ⟨comma.val :: us, n⟩ :=
  ⟨t, rfl, rfl, heval, below_of_kind comma.property (by simp)⟩

theorem Listed.eq_of_nil (h : Listed env ts us values) (hnil : values = []) : us = ts := by
  cases h with
  | none => rfl
  | more => simp at hnil

/-- What starts with an expression does not start with a closing parenthesis. -/
theorem Listed.front_ne (h : Listed env ts us values)
    (hstart : values = [] → (front ts n).kind ≠ .rightParen) : (front ts n).kind ≠ .rightParen := by
  induction h with
  | none => exact hstart rfl
  | more t comma before heval ih =>
    refine ih fun hnil => ?_
    rw [← before.eq_of_nil hnil]
    exact front_ne_of_derived (derived_comma heval comma _ n)

theorem comma_unique {t t' : Tree (.phrase expression)} {comma comma' : Terminal .comma}
    (h : t.tokens ++ comma.val :: us = t'.tokens ++ comma'.val :: us')
    (heval : t.eval env = .ok value) (heval' : t'.eval env = .ok value') :
    us = us' ∧ value = value' := by
  have hread := phrase_eq_ok_iff.2 (derived_comma heval comma us 0)
  have hread' := phrase_eq_ok_iff.2 (derived_comma heval' comma' us' 0)
  rw [h, hread'] at hread
  obtain ⟨hvalue, hd⟩ := EStateM.Result.ok.inj hread
  exact ⟨(List.cons.inj (Cursor.mk.inj hd).1).2.symm, hvalue.symm⟩

theorem Listed.unique (h : Listed env ts us values) (h' : Listed env ts us' values')
    (hlen : values.length = values'.length) : us = us' ∧ values = values' := by
  induction h generalizing us' values' with
  | none =>
    cases h' with
    | none => exact ⟨rfl, rfl⟩
    | more => simp at hlen
  | more t comma before heval ih =>
    cases h' with
    | none => simp at hlen
    | more t' comma' before' heval' =>
      obtain ⟨hus, rfl⟩ := ih before' (by simpa using hlen)
      obtain ⟨rfl, rfl⟩ := comma_unique hus heval heval'
      exact ⟨rfl, rfl⟩

theorem Listed.exists_next (h : Listed env ts us values) (h' : Listed env ts us' values')
    (hlen : values'.length < values.length) (n : Nat) :
    ∃ v d, phrase env expression ⟨us', n⟩ = .ok v d := by
  induction h with
  | none => exact absurd hlen (Nat.not_lt_zero _)
  | more t comma before heval ih =>
    rw [List.length_append, List.length_singleton] at hlen
    rcases Nat.lt_succ_iff_lt_or_eq.1 hlen with hlt | heq
    · exact ih hlt
    · obtain ⟨rfl, -⟩ := before.unique h' heq.symm
      exact ⟨_, _, phrase_eq_ok_iff.2 (derived_comma heval comma _ n)⟩

/-! ### Reading arguments one by one -/

theorem moreItems_comma (comma : Terminal .comma) :
    moreItems env values ⟨comma.val :: us, n⟩ =
      Rule.argumentsFrom (Rule.expression env) (Rule.maxArguments - values.length) values
        ⟨us, n⟩ := by
  show (if comma.val.kind = .comma then _ else _ : Rule (List Float)) _ = _
  rw [if_pos comma.property]
  rfl

theorem argumentsFrom_of_derived (hroom : values.length < Rule.maxArguments)
    (h : Derived env (.phrase expression) us n value d) :
    Rule.argumentsFrom (Rule.expression env) (Rule.maxArguments - values.length) values ⟨us, n⟩ =
      moreItems env (values ++ [value]) d := by
  rw [argumentsFrom_of_lt hroom, bind_of_ok (phrase_eq_ok_iff.2 h)]

/-- **Listed arguments are read one after the other.** -/
theorem Listed.argumentsFrom_eq (h : Listed env ts us values)
    (hlen : values.length ≤ Rule.maxArguments) (n : Nat) :
    Rule.argumentsFrom (Rule.expression env) Rule.maxArguments [] ⟨ts, n⟩ =
      Rule.argumentsFrom (Rule.expression env) (Rule.maxArguments - values.length) values
        ⟨us, n⟩ := by
  induction h with
  | none => rfl
  | more t comma before heval ih =>
    rw [List.length_append, List.length_singleton] at hlen
    rw [ih (Nat.le_of_succ_le hlen), argumentsFrom_of_derived hlen (derived_comma heval comma _ n),
      moreItems_comma]

theorem arguments_of_ne (h : c.current.kind ≠ .rightParen) :
    Rule.arguments env c =
      Rule.argumentsFrom (Rule.expression env) Rule.maxArguments [] c := by
  rw [Rule.arguments_eq]
  unfold Rule.argumentsOf
  rw [Rule.peek_bind, if_neg h]

theorem arguments_of_eq (h : c.current.kind = .rightParen) :
    Rule.arguments env c = .ok [] c.advance := by
  rw [Rule.arguments_eq]
  unfold Rule.argumentsOf
  rw [Rule.peek_bind, if_pos h]
  rfl

theorem Listed.arguments_eq (h : Listed env c.ahead us values)
    (hlen : values.length ≤ Rule.maxArguments)
    (hstart : values = [] → c.current.kind ≠ .rightParen) :
    Rule.arguments env c = Rule.argumentsFrom (Rule.expression env)
      (Rule.maxArguments - values.length) values ⟨us, c.size⟩ :=
  (arguments_of_ne (h.front_ne hstart)).trans (h.argumentsFrom_eq hlen c.size)

/-! ### How arguments end -/

/-- **The arguments are complete**: expressions of these values, at least one and at most
`maxArguments` of them, separated by commas, and a closing parenthesis. -/
def Closed (env : Environment) (c : Cursor) (values : List Float) (d : Cursor) : Prop :=
  ∃ (t : Tree (.phrase expression)) (closing : Terminal .rightParen) (rest : List Token)
    (before : List Float) (last : Float),
    Listed env c.ahead (t.tokens ++ closing.val :: rest) before ∧
    before.length < Rule.maxArguments ∧ t.eval env = .ok last ∧ values = before ++ [last] ∧
    d = ⟨rest, c.size⟩

/-- **There are as many arguments as there can be, and a comma behind each**: no token behind the
last comma is looked at. -/
def Full (env : Environment) (c : Cursor) (r : Rejection) (d : Cursor) : Prop :=
  ∃ (us : List Token) (values : List Float), Listed env c.ahead us values ∧
    values.length = Rule.maxArguments ∧
    r = ⟨.argumentLimit Rule.maxArguments, (front us c.size).offset⟩ ∧ d = ⟨us, c.size⟩

/-- **An argument has no value**, the first one of this kind, and there is room for it: it is
rejected as an expression of its own. -/
def Failing (env : Environment) (c : Cursor) (r : Rejection) (d : Cursor) : Prop :=
  ∃ (us : List Token) (values : List Float), Listed env c.ahead us values ∧
    values.length < Rule.maxArguments ∧ (values = [] → c.current.kind ≠ .rightParen) ∧
    Rule.expression env ⟨us, c.size⟩ = .error r d

/-- **Behind an argument there is neither a comma nor a closing parenthesis**, nor an operator that
the argument goes on with. -/
def Unclosed (env : Environment) (c : Cursor) (r : Rejection) (d : Cursor) : Prop :=
  ∃ (t : Tree (.phrase expression)) (us : List Token) (before : List Float) (last : Float),
    Listed env c.ahead (t.tokens ++ us) before ∧ before.length < Rule.maxArguments ∧
    t.eval env = .ok last ∧ Below 0 us ∧ (front us c.size).kind ≠ .comma ∧
    (front us c.size).kind ≠ .rightParen ∧
    r = ⟨.missingClosing, (front us c.size).offset⟩ ∧ d = ⟨us, c.size⟩

/-- **What a result says about the arguments.** -/
def Ending (env : Environment) (c : Cursor) : EStateM.Result Rejection Cursor (List Float) → Prop
  | .ok values d => values = [] ∧ c.current.kind = .rightParen ∧ d = c.advance ∨
      Closed env c values d
  | .error r d => Full env c r d ∨ Failing env c r d ∨ Unclosed env c r d

theorem Listed.start_ne {t : Tree (.phrase expression)}
    (h : Listed env c.ahead (t.tokens ++ us) values) (heval : t.eval env = .ok value)
    (hb : Below 0 us) : values = [] → c.current.kind ≠ .rightParen := by
  intro hnil
  have hahead : t.tokens ++ us = c.ahead := h.eq_of_nil hnil
  have hderived : Derived env (.phrase expression) c.ahead c.size value ⟨us, c.size⟩ :=
    ⟨t, hahead.symm, rfl, heval, hb⟩
  exact front_ne_of_derived hderived

/-! ### Each ending has its result -/

/-- Behind the last argument it is decided how the arguments end. -/
theorem Listed.arguments_last {t : Tree (.phrase expression)}
    (h : Listed env c.ahead (t.tokens ++ us) values) (hroom : values.length < Rule.maxArguments)
    (heval : t.eval env = .ok value) (hb : Below 0 us) :
    Rule.arguments env c = moreItems env (values ++ [value]) ⟨us, c.size⟩ := by
  have hlast : Derived env (.phrase expression) (t.tokens ++ us) c.size value ⟨us, c.size⟩ :=
    ⟨t, rfl, rfl, heval, hb⟩
  rw [h.arguments_eq (Nat.le_of_lt hroom) (h.start_ne heval hb),
    argumentsFrom_of_derived hroom hlast]

theorem Closed.arguments_eq (h : Closed env c values d) : Rule.arguments env c = .ok values d := by
  obtain ⟨t, closing, rest, before, last, hlist, hroom, heval, rfl, rfl⟩ := h
  rw [hlist.arguments_last hroom heval (below_of_kind closing.property (by simp))]
  exact Rule.eq_ok_of_outcome (outcome_moreItems_closing closing.property)

theorem Closed.ne_nil (h : Closed env c values d) : values ≠ [] := by
  obtain ⟨t, closing, rest, before, last, -, -, -, rfl, -⟩ := h
  simp

theorem Full.arguments_eq (h : Full env c r d) : Rule.arguments env c = .error r d := by
  obtain ⟨us, values, hlist, hlen, rfl, rfl⟩ := h
  have hstart : values = [] → c.current.kind ≠ .rightParen := by
    rintro rfl
    cases hlen
  rw [hlist.arguments_eq (Nat.le_of_eq hlen) hstart, argumentsFrom_of_ge (by omega)]
  rfl

theorem Full.flaw (h : Full env c r d) : r.flaw = .tooManyArguments := by
  obtain ⟨us, values, -, -, rfl, -⟩ := h
  rfl

theorem Failing.arguments_eq (h : Failing env c r d) : Rule.arguments env c = .error r d := by
  obtain ⟨us, values, hlist, hroom, hstart, herror⟩ := h
  rw [hlist.arguments_eq (Nat.le_of_lt hroom) hstart, argumentsFrom_of_lt hroom]
  exact bind_of_error herror _

theorem moreItems_of_ne (hcomma : (front us n).kind ≠ .comma)
    (hclosing : (front us n).kind ≠ .rightParen) :
    moreItems env values ⟨us, n⟩ = .error ⟨.missingClosing, (front us n).offset⟩ ⟨us, n⟩ := by
  show (if (front us n).kind = .comma then _ else _ : Rule (List Float)) _ = _
  rw [if_neg hcomma]
  refine bind_of_error ?_ _
  show (if (front us n).kind = .rightParen then _ else _ : Rule Unit) _ = _
  rw [if_neg hclosing]
  rfl

theorem Unclosed.arguments_eq (h : Unclosed env c r d) : Rule.arguments env c = .error r d := by
  obtain ⟨t, us, before, last, hlist, hroom, heval, hb, hcomma, hclosing, rfl, rfl⟩ := h
  rw [hlist.arguments_last hroom heval hb]
  exact moreItems_of_ne hcomma hclosing

theorem Unclosed.flaw (h : Unclosed env c r d) : r.flaw = .mismatchedParentheses := by
  obtain ⟨t, us, before, last, -, -, -, -, -, -, rfl, -⟩ := h
  rfl

/-- An argument that is read is one of those that are listed, or the last one. -/
theorem Full.not_failing (h : Full env c r d) : ¬ Failing env c r d := by
  rintro ⟨us, values, hlist, hroom, -, herror⟩
  obtain ⟨us', values', hlist', hlen, -, -⟩ := h
  obtain ⟨v, e, hread⟩ := hlist'.exists_next hlist (by omega) c.size
  cases herror.symm.trans hread

/-! ### There is no other ending -/

/-- **Behind listed arguments** the rest of them ends in one of the ways. -/
theorem Listed.ending (h : Listed env c.ahead us values) (hlen : values.length ≤ Rule.maxArguments)
    (hstart : values = [] → c.current.kind ≠ .rightParen) :
    Ending env c (Rule.argumentsFrom (Rule.expression env) (Rule.maxArguments - values.length)
      values ⟨us, c.size⟩) := by
  -- The induction is on the room that is left.
  induction hroom : Rule.maxArguments - values.length generalizing us values with
  | zero => exact Or.inl ⟨us, values, h, by omega, rfl, rfl⟩
  | succ room ih =>
    have hlt : values.length < Rule.maxArguments := by omega
    rw [← hroom, argumentsFrom_of_lt hlt]
    cases hr : phrase env expression ⟨us, c.size⟩ with
    | error r d =>
      rw [bind_of_error hr]
      exact Or.inr (Or.inl ⟨us, values, h, hlt, hstart, hr⟩)
    | ok value d =>
      rw [bind_of_ok hr]
      obtain ⟨rest, size⟩ := d
      obtain ⟨t, rfl, hsize, heval, hb⟩ := phrase_eq_ok_iff.1 hr
      obtain rfl : size = c.size := hsize
      by_cases hcomma : (front rest c.size).kind = .comma
      · cases rest with
        | nil => cases hcomma
        | cons comma rest =>
          have hnext : Listed env c.ahead rest (values ++ [value]) :=
            .more t ⟨comma, hcomma⟩ h heval
          have hlen' : (values ++ [value]).length = values.length + 1 := by simp
          rw [moreItems_comma ⟨comma, hcomma⟩]
          have hend := ih hnext (by omega) (by simp) (by omega)
          rwa [show Rule.maxArguments - (values ++ [value]).length = room by omega]
      · by_cases hclosing : (front rest c.size).kind = .rightParen
        · cases rest with
          | nil => cases hclosing
          | cons closing rest =>
            have hclosing : closing.kind = .rightParen := hclosing
            rw [Rule.eq_ok_of_outcome (outcome_moreItems_closing hclosing)]
            exact Or.inr ⟨t, ⟨closing, hclosing⟩, rest, values, value, h, hlt, heval, rfl, rfl⟩
        · rw [moreItems_of_ne hcomma hclosing]
          exact Or.inr
            (Or.inr ⟨t, rest, values, value, h, hlt, heval, hb, hcomma, hclosing, rfl, rfl⟩)

theorem ending_arguments (env : Environment) (c : Cursor) :
    Ending env c (Rule.arguments env c) := by
  by_cases hclosing : c.current.kind = .rightParen
  · rw [arguments_of_eq hclosing]
    exact Or.inl ⟨rfl, hclosing, rfl⟩
  · have hlist : Listed env c.ahead c.ahead [] := .none
    rw [hlist.arguments_eq (Nat.zero_le _) fun _ => hclosing]
    exact hlist.ending (Nat.zero_le _) fun _ => hclosing

/-! ### Calls -/

theorem call_arguments (f : Function) (name : Token) (opening : Terminal .leftParen) :
    Rule.call env f ⟨name :: opening.val :: c.ahead, c.size⟩ =
      (Rule.arguments env >>= callThen f name env.angleUnit) c := by
  rw [Rule.call_eq, Rule.arguments_eq]
  show (if opening.val.kind = .leftParen then Rule.skip >>= fun _ =>
      Rule.argumentsOf (Rule.expression env) >>= callThen f name env.angleUnit
    else Rule.reject (.missingOpening f.name) : Rule Float) ⟨opening.val :: c.ahead, c.size⟩ = _
  rw [if_pos opening.property]
  rfl

theorem callThen_eq_error_iff {f : Function} {name : Token} {unit : AngleUnit} {e : Cursor} :
    callThen f name unit values d = .error r e ↔
      ∃ flaw, f.apply values unit = .error flaw ∧ r = ⟨.call flaw f.name, name.offset⟩ ∧ e = d := by
  unfold callThen
  cases f.apply values unit with
  | ok value =>
    constructor
    · intro h
      cases h
    · rintro ⟨_, h, -⟩
      cases h
  | error flaw =>
    constructor
    · intro h
      cases h
      exact ⟨flaw, rfl, rfl, rfl⟩
    · rintro ⟨_, h, rfl, rfl⟩
      cases h
      rfl

/-- **The number of the arguments decides** whether a call is rejected for it. -/
theorem callThen_arity (f : Function) (name : Token) (unit : AngleUnit) (values : List Float)
    (d : Cursor) :
    (callThen f name unit values d = .error ⟨.call .tooFewArguments f.name, name.offset⟩ d ↔
        values.length < f.arity) ∧
      (callThen f name unit values d = .error ⟨.call .tooManyArguments f.name, name.offset⟩ d ↔
        f.arity < values.length) ∧
      (∀ r e, values.length = f.arity → callThen f name unit values d = .error r e →
        r.flaw ≠ .tooFewArguments ∧ r.flaw ≠ .tooManyArguments) := by
  have hcall (flaw : Flaw) :
      callThen f name unit values d = .error ⟨.call flaw f.name, name.offset⟩ d ↔
        f.apply values unit = .error flaw := by
    rw [callThen_eq_error_iff]
    constructor
    · rintro ⟨flaw', h, hr, -⟩
      cases hr
      exact h
    · intro h
      exact ⟨flaw, h, rfl, rfl⟩
  refine ⟨(hcall _).trans Function.apply_tooFew_iff, (hcall _).trans Function.apply_tooMany_iff,
    fun r e hlen h => ?_⟩
  obtain ⟨flaw, happly, rfl, -⟩ := callThen_eq_error_iff.1 h
  constructor
  · rintro rfl
    exact Nat.ne_of_lt (Function.apply_tooFew_iff.1 happly) hlen
  · rintro rfl
    exact Nat.ne_of_gt (Function.apply_tooMany_iff.1 happly) hlen

/-- **The arguments of a call, exactly.** Wherever the rule for arguments starts,

* there are none if and only if the parenthesis closes at once;
* there are some, with these values, if and only if the tokens are so many expressions, at least one
  and at most `maxArguments`, with commas between them and a closing parenthesis behind them;
* they are too many on their own account, and not because an argument was rejected for this, if and
  only if `maxArguments` expressions have values and a comma behind each. The rejection is at the
  token behind the last comma, which is any token or none, and the cursor has not moved past it;
* they are rejected in this way, or as the first argument without a value is, or for what stands
  behind an argument in place of the closing parenthesis, and in no other.

A call of these arguments is rejected like them. If they have values, it is rejected at its name for
having too few or too many of them if and only if their number is below or above the arity. The
arguments of the calls in an expression do not count, since `Listed` counts it once. -/
theorem arguments_exact (env : Environment) (c : Cursor) :
    (∀ d, Rule.arguments env c = .ok [] d ↔ c.current.kind = .rightParen ∧ d = c.advance) ∧
      (∀ values d, Rule.arguments env c = .ok values d ∧ values ≠ [] ↔ Closed env c values d) ∧
      (∀ r d, Rule.arguments env c = .error r d ∧ r.flaw = .tooManyArguments ∧
        ¬ Failing env c r d ↔ Full env c r d) ∧
      (∀ r d, Rule.arguments env c = .error r d ↔
        Full env c r d ∨ Failing env c r d ∨ Unclosed env c r d) ∧
      ∀ (f : Function) (name : Token) (opening : Terminal .leftParen),
        (∀ r d, Rule.arguments env c = .error r d →
          Rule.call env f ⟨name :: opening.val :: c.ahead, c.size⟩ = .error r d) ∧
        ∀ values d, Rule.arguments env c = .ok values d →
          (Rule.call env f ⟨name :: opening.val :: c.ahead, c.size⟩ =
              .error ⟨.call .tooFewArguments f.name, name.offset⟩ d ↔
            values.length < f.arity) ∧
          (Rule.call env f ⟨name :: opening.val :: c.ahead, c.size⟩ =
              .error ⟨.call .tooManyArguments f.name, name.offset⟩ d ↔
            f.arity < values.length) ∧
          (∀ r e, values.length = f.arity →
            Rule.call env f ⟨name :: opening.val :: c.ahead, c.size⟩ = .error r e →
            r.flaw ≠ .tooFewArguments ∧ r.flaw ≠ .tooManyArguments) := by
  have hending := ending_arguments env c
  have herror (r d) : Rule.arguments env c = .error r d ↔
      Full env c r d ∨ Failing env c r d ∨ Unclosed env c r d := by
    constructor
    · intro h
      rwa [h] at hending
    · rintro (h | h | h)
      · exact h.arguments_eq
      · exact h.arguments_eq
      · exact h.arguments_eq
  refine ⟨fun d => ?_, fun values d => ?_, fun r d => ?_, herror, fun f name opening =>
    ⟨fun r d h => ?_, fun values d h => ?_⟩⟩
  · constructor
    · intro h
      rw [h] at hending
      rcases hending with ⟨-, hclosing, hd⟩ | hclosed
      · exact ⟨hclosing, hd⟩
      · exact absurd rfl hclosed.ne_nil
    · rintro ⟨hclosing, rfl⟩
      exact arguments_of_eq hclosing
  · constructor
    · rintro ⟨h, hne⟩
      rw [h] at hending
      rcases hending with ⟨hnil, -⟩ | hclosed
      · exact absurd hnil hne
      · exact hclosed
    · intro hclosed
      exact ⟨hclosed.arguments_eq, hclosed.ne_nil⟩
  · constructor
    · rintro ⟨h, hflaw, hfailing⟩
      rcases (herror r d).1 h with hfull | h | hunclosed
      · exact hfull
      · exact absurd h hfailing
      · rw [hunclosed.flaw] at hflaw
        cases hflaw
    · intro hfull
      exact ⟨hfull.arguments_eq, hfull.flaw, hfull.not_failing⟩
  · rw [call_arguments, bind_of_error h]
  · rw [call_arguments, bind_of_ok h]
    exact callThen_arity f name env.angleUnit values d

/-- Of the five numbers in this call two belong to the call in its first argument. -/
theorem arguments_exact_nested :
    let c : Cursor := (Cursor.ofString "gcd(max(1,2),3,4)").advance.advance
    let d : Cursor := ⟨[], 17⟩
    Rule.arguments {} c = .ok [2.0, 3.0, 4.0] d ∧
    Rule.call {} (.binary .gcd) (Cursor.ofString "gcd(max(1,2),3,4)") =
      .error ⟨.call .tooManyArguments "gcd", 0⟩ d := by
  intro c d
  have hargs : Rule.arguments {} c = .ok [2.0, 3.0, 4.0] d :=
    Rule.eq_ok_of_outcome (by decide +kernel)
  have hcursor : Cursor.ofString "gcd(max(1,2),3,4)" =
      ⟨⟨.function (.binary .gcd), "gcd", 0⟩ :: ⟨.leftParen, "(", 3⟩ :: c.ahead, c.size⟩ := by
    decide +kernel
  have hcall := (arguments_exact {} c).2.2.2.2 (.binary .gcd) ⟨.function (.binary .gcd), "gcd", 0⟩
    ⟨⟨.leftParen, "(", 3⟩, rfl⟩
  rw [hcursor]
  exact ⟨hargs, (hcall.2 _ d hargs).2.1.2 (by decide)⟩

end Grammar

end Calculator
