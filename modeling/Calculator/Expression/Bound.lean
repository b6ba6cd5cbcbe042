import Calculator.Expression

/-!
# The rules without their bounds

`primaryWithin` takes a bound on the tokens that are ahead. Any bound that is large enough gives the
same (`primaryWithin_agree`), so the rules of the grammar satisfy equations in which no bound
occurs: `factor_eq`, `term_eq`, `expression_eq`, `arguments_eq`, `call_eq` and `primary_eq`.

Two rules *agree* on a set of cursors if they do the same on each of them, and never leave the set.
This passes from the parts of a rule to the whole, also if the parts belong to different
environments, as long as those say the same about each token.
-/

namespace Calculator

/-- **Two environments say the same about a token**: about what a name stands for, and about what a
function gives. -/
structure Environment.Alike (env env' : Environment) (token : Token) : Prop where
  lookup : token.kind = .variable → env.lookup? token.text = env'.lookup? token.text
  apply : ∀ f, token.kind = .function f →
    ∀ args, f.apply args env.angleUnit = f.apply args env'.angleUnit

theorem Environment.Alike.refl (env : Environment) (token : Token) : env.Alike env token :=
  ⟨fun _ => rfl, fun _ _ _ => rfl⟩

end Calculator

namespace Calculator.Rule

variable {α β : Type} {n : Nat} {env env' : Environment} {Q Q' : Cursor → Prop}

/-- The cursor that a result leaves. -/
def stop : EStateM.Result Rejection Cursor α → Cursor
  | .ok _ c => c
  | .error _ c => c

/-- **Agreement on a set of cursors**, which the rules do not leave. -/
def Agree (Q : Cursor → Prop) (r r' : Rule α) : Prop :=
  ∀ c : Cursor, Q c → r c = r' c ∧ Q (stop (r c))

/-- One set of cursors holds those behind a token of another, larger one. -/
structure Behind (Q Q' : Cursor → Prop) : Prop where
  advance : ∀ c, Q' c → Q c.advance
  le : ∀ c, Q c → Q' c

theorem Behind.inner (h : Behind Q Q') : Behind Q Q :=
  ⟨fun c hc => h.advance c (h.le c hc), fun _ hc => hc⟩

theorem Behind.outer (h : Behind Q Q') : Behind Q' Q' :=
  ⟨fun c hc => h.le _ (h.advance c hc), fun _ hc => hc⟩

namespace Agree

/-! ### Rules made of rules -/

theorem pure (a : α) : Agree Q (Pure.pure a : Rule α) (Pure.pure a) := fun _ h => ⟨rfl, h⟩

theorem bind {r r' : Rule α} {f f' : α → Rule β} (hr : Agree Q r r')
    (hf : ∀ a, Agree Q (f a) (f' a)) : Agree Q (r >>= f) (r' >>= f') := by
  intro c h
  obtain ⟨heq, hstop⟩ := hr c h
  show EStateM.bind r f c = EStateM.bind r' f' c ∧ Q (stop (EStateM.bind r f c))
  unfold EStateM.bind
  rw [← heq]
  cases hc : r c with
  | ok a d =>
    rw [hc] at hstop
    exact hf a d hstop
  | error e d =>
    rw [hc] at hstop
    exact ⟨rfl, hstop⟩

theorem peek : Agree Q Rule.peek Rule.peek := fun _ h => ⟨rfl, h⟩

/-- What is done with the current token may depend on the set of cursors. -/
theorem peek_bind {f f' : Token → Rule α} (h : ∀ c, Q c → Agree Q (f c.current) (f' c.current)) :
    Agree Q (Rule.peek >>= f) (Rule.peek >>= f') := fun c hc => h c hc c hc

theorem get : Agree Q (MonadState.get : Rule Cursor) MonadState.get := fun _ h => ⟨rfl, h⟩

theorem rejectAt (p : Nat) (cause : Cause) :
    Agree Q (Rule.rejectAt p cause : Rule α) (Rule.rejectAt p cause) := fun _ h => ⟨rfl, h⟩

theorem reject (cause : Cause) : Agree Q (Rule.reject cause : Rule α) (Rule.reject cause) :=
  fun _ h => ⟨rfl, h⟩

theorem skip (hQ : Behind Q Q) : Agree Q Rule.skip Rule.skip := fun c h => ⟨rfl, hQ.advance c h⟩

/-- Behind the first token fewer cursors are left. -/
theorem skip_bind (hQ : Behind Q Q') {r r' : Rule α} (hr : Agree Q r r') :
    Agree Q' (Rule.skip >>= fun _ => r) (Rule.skip >>= fun _ => r') := by
  intro c h
  obtain ⟨heq, hstop⟩ := hr c.advance (hQ.advance c h)
  exact ⟨heq, hQ.le _ hstop⟩

theorem ite {p : Prop} [Decidable p] {r r' s s' : Rule α} (hr : Agree Q r r')
    (hs : Agree Q s s') : Agree Q (if p then r else s) (if p then r' else s') := by
  split
  · exact hr
  · exact hs

/-! ### The parts of an expression -/

section Parts

variable (hQ : Behind Q Q) {operand operand' : Rule Float}
include hQ

theorem chainFrom (level : Level) (h : Agree Q operand operand') (bound : Nat) (value : Float) :
    Agree Q (Rule.chainFrom level operand bound value)
      (Rule.chainFrom level operand' bound value) := by
  induction bound generalizing value with
  | zero => exact pure value
  | succ bound ih =>
    unfold Rule.chainFrom
    refine bind peek fun token => ?_
    cases token.operatorAt? level with
    | none => exact pure value
    | some op =>
      refine bind (skip hQ) fun _ => bind h fun right => ?_
      cases op.apply value right with
      | ok value => exact ih value
      | error flaw => exact rejectAt _ _

theorem chain (level : Level) (h : Agree Q operand operand') :
    Agree Q (Rule.chain level operand) (Rule.chain level operand') :=
  bind h fun _ => bind get fun _ => chainFrom hQ level h _ _

theorem factorOf (h : Agree Q operand operand') :
    Agree Q (Rule.factorOf operand) (Rule.factorOf operand') := chain hQ _ h

theorem termOf (h : Agree Q operand operand') :
    Agree Q (Rule.termOf operand) (Rule.termOf operand') := chain hQ _ (factorOf hQ h)

theorem expressionOf (h : Agree Q operand operand') :
    Agree Q (Rule.expressionOf operand) (Rule.expressionOf operand') := chain hQ _ (termOf hQ h)

theorem closing : Agree Q Rule.closing Rule.closing :=
  bind peek fun _ => ite (skip hQ) (reject _)

theorem argumentsFrom (h : Agree Q operand operand') (room : Nat) (before : List Float) :
    Agree Q (Rule.argumentsFrom operand room before) (Rule.argumentsFrom operand' room before) := by
  induction room generalizing before with
  | zero => exact reject _
  | succ room ih =>
    exact bind h fun _ => bind peek fun _ =>
      ite (bind (skip hQ) fun _ => ih _) (bind (closing hQ) fun _ => pure _)

theorem argumentsOf (h : Agree Q operand operand') :
    Agree Q (Rule.argumentsOf operand) (Rule.argumentsOf operand') :=
  bind peek fun _ => ite (bind (skip hQ) fun _ => pure _) (argumentsFrom hQ h _ _)

theorem literal (token : Token) (value : Float) :
    Agree Q (Rule.literal token value) (Rule.literal token value) :=
  ite (reject _) (ite (reject _) (bind (skip hQ) fun _ => pure _))

theorem register {name : Token} (hname : env.lookup? name.text = env'.lookup? name.text) :
    Agree Q (Rule.register env name) (Rule.register env' name) := by
  unfold Rule.register
  rw [hname]
  refine bind (skip hQ) fun _ => ?_
  cases env'.lookup? name.text with
  | some value => exact pure value
  | none => exact bind peek fun _ => ite (rejectAt _ _) (rejectAt _ _)

end Parts

section Primary

variable (hQ : Behind Q Q') {operand operand' : Rule Float}
include hQ

/-- The name of a function is a token before its arguments. -/
theorem callOf (h : Agree Q operand operand') {f : Function}
    (hf : ∀ args, f.apply args env.angleUnit = f.apply args env'.angleUnit) :
    Agree Q' (Rule.callOf env operand f) (Rule.callOf env' operand' f) := by
  unfold Rule.callOf
  refine bind peek fun name => skip_bind hQ (bind peek fun _ => ite ?_ (reject _))
  refine bind (skip hQ.inner) fun _ => bind (argumentsOf hQ.inner h) fun args => ?_
  rw [hf args]
  cases f.apply args env'.angleUnit with
  | ok value => exact pure value
  | error flaw => exact rejectAt _ _

/-- A primary inside another one starts behind the first token. -/
theorem primaryOf (henv : ∀ c, Q' c → env.Alike env' c.current) (h : Agree Q operand operand') :
    Agree Q' (Rule.primaryOf env operand) (Rule.primaryOf env' operand') := by
  unfold Rule.primaryOf
  refine peek_bind fun c hc => ?_
  have hsame := henv c hc
  generalize c.current = token at hsame
  split
  · exact literal hQ.outer _ _
  · exact bind (skip hQ.outer) fun _ => pure _
  · next hkind => exact register hQ.outer (hsame.lookup hkind)
  · exact skip_bind hQ (bind h fun _ => pure _)
  · exact skip_bind hQ h
  · exact skip_bind hQ (bind (expressionOf hQ.inner h) fun _ => bind (closing hQ.inner) fun _ =>
      pure _)
  · next f hkind => exact callOf hQ (expressionOf hQ.inner h) (hsame.apply f hkind)
  all_goals exact reject _

end Primary

end Agree

/-! ### Bounds -/

/-- Where the text has ended there is no primary. -/
theorem primaryOf_nil {c : Cursor} (h : c.ahead = []) (primary : Rule Float) :
    primaryOf env primary c = (reject .unexpectedEnd : Rule Float) c := by
  unfold primaryOf
  simp only [bind, EStateM.bind, show peek c = .ok c.current c from rfl, Cursor.current_nil h,
    Token.finish]

theorem primaryWithin_nil {c : Cursor} (h : c.ahead = []) (bound : Nat) :
    primaryWithin env bound c = (reject .unexpectedEnd : Rule Float) c := by
  cases bound with
  | zero => rfl
  | succ bound => exact primaryOf_nil h _

/-- At most so many tokens are ahead. -/
def Within (n : Nat) (c : Cursor) : Prop := c.ahead.length ≤ n

theorem behind_within (n : Nat) : Behind (Within n) (Within (n + 1)) := by
  refine ⟨fun c h => ?_, fun c h => Nat.le_succ_of_le h⟩
  have hc : c.ahead.length ≤ n + 1 := h
  rw [Within, Cursor.ahead_advance, List.length_tail]
  omega

/-- **Any bound that is large enough gives the same.** -/
theorem primaryWithin_agree {m m' : Nat} (hm : n ≤ m) (hm' : n ≤ m') :
    Agree (Within n) (primaryWithin env m) (primaryWithin env m') := by
  induction n generalizing m m' with
  | zero =>
    intro c h
    have hc := List.length_eq_zero_iff.1 (Nat.le_zero.1 h)
    rw [primaryWithin_nil hc, primaryWithin_nil hc]
    exact ⟨rfl, h⟩
  | succ n ih =>
    obtain ⟨k, rfl⟩ : ∃ k, m = k + 1 := ⟨m - 1, by omega⟩
    obtain ⟨k', rfl⟩ : ∃ k', m' = k' + 1 := ⟨m' - 1, by omega⟩
    exact .primaryOf (behind_within n) (fun c _ => .refl env c.current) (ih (by omega) (by omega))

theorem primaryWithin_agree_primary {m : Nat} (hm : n ≤ m) :
    Agree (Within n) (primaryWithin env m) (primary env) := by
  intro c h
  have hagree : Agree (Within c.ahead.length) (primaryWithin env m)
      (primaryWithin env c.ahead.length) :=
    primaryWithin_agree (Nat.le_trans h hm) (Nat.le_refl _)
  obtain ⟨heq, hle⟩ := hagree c (Nat.le_refl _)
  exact ⟨heq, Nat.le_trans hle h⟩

/-- What agrees on all cursors with so many tokens ahead is the same there. -/
theorem Agree.eq_self {r r' : Rule α} {c : Cursor} (h : Agree (Within c.ahead.length) r r') :
    r c = r' c := (h c (Nat.le_refl _)).1

/-! ### The equations of the grammar -/

variable (env)

theorem primary_eq : primary env = primaryOf env (primary env) := by
  funext c
  show primaryWithin env c.ahead.length c = _
  cases h : c.ahead with
  | nil => rw [primaryWithin_nil h, primaryOf_nil h]
  | cons token rest =>
    exact (Agree.primaryOf (behind_within rest.length) (fun c _ => .refl env c.current)
      (primaryWithin_agree_primary (Nat.le_refl _)) c (by rw [Within, h]; exact Nat.le_refl _)).1

theorem factor_eq : factor env = chain .power (primary env) := by
  funext c
  exact (Agree.factorOf (behind_within _).inner
    (primaryWithin_agree_primary (Nat.le_refl _))).eq_self

theorem term_eq : term env = chain .product (factor env) := by
  rw [factor_eq]
  funext c
  exact (Agree.termOf (behind_within _).inner
    (primaryWithin_agree_primary (Nat.le_refl _))).eq_self

theorem expressionOf_primary : expressionOf (primary env) = expression env := by
  funext c
  exact (Agree.expressionOf (behind_within _).inner
    (primaryWithin_agree_primary (Nat.le_refl _))).eq_self.symm

theorem expression_eq : expression env = chain .sum (term env) := by
  rw [term_eq, factor_eq, ← expressionOf_primary]
  rfl

theorem arguments_eq : arguments env = argumentsOf (expression env) := by
  rw [← expressionOf_primary]
  funext c
  exact (Agree.argumentsOf (behind_within _).inner (Agree.expressionOf (behind_within _).inner
    (primaryWithin_agree_primary (Nat.le_refl _)))).eq_self

theorem call_eq (f : Function) : call env f = callOf env (expression env) f := by
  rw [← expressionOf_primary]
  funext c
  have hbehind := (behind_within c.ahead.length).inner
  exact (Agree.callOf hbehind (Agree.expressionOf hbehind
    (primaryWithin_agree_primary (Nat.le_refl _))) fun _ => rfl).eq_self

end Calculator.Rule
