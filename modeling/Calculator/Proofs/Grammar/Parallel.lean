import Calculator.Expression
import Mathlib.Data.List.Forall2

/-!
# Rules in two texts that differ in places only

Two cursors are alike if the tokens ahead of them have the same kinds and texts, one by one. Where
these tokens stand may differ: `P` says which places of the two texts correspond.

`Parallel P r r'` says that `r` and `r'` do the same in front of such cursors: they give the same
value, or reject for the same cause at places that correspond, and the cursors they leave are alike
again. A rule that looks at a token uses its place for nothing but a rejection, so all rules of the
grammar are parallel to themselves (`Parallel.complete`).
-/

namespace Calculator

variable {P : Nat → Nat → Prop}

/-- **Tokens that differ in their places only.** -/
structure Token.SameUpTo (P : Nat → Nat → Prop) (t t' : Token) : Prop where
  kind : t.kind = t'.kind
  text : t.text = t'.text
  offset : P t.offset t'.offset

/-- **Cursors in front of tokens that differ in their places only.** -/
structure Cursor.SameUpTo (P : Nat → Nat → Prop) (c c' : Cursor) : Prop where
  ahead : List.Forall₂ (Token.SameUpTo P) c.ahead c'.ahead
  size : P c.size c'.size

namespace Cursor.SameUpTo

variable {c c' : Cursor}

theorem current (h : c.SameUpTo P c') : c.current.SameUpTo P c'.current := by
  obtain ⟨ahead, n⟩ := c
  obtain ⟨ahead', n'⟩ := c'
  obtain ⟨hahead, hsize⟩ := h
  rcases hahead with _ | ⟨htoken, -⟩
  · exact ⟨rfl, rfl, hsize⟩
  · exact htoken

theorem advance (h : c.SameUpTo P c') : c.advance.SameUpTo P c'.advance := by
  obtain ⟨ahead, n⟩ := c
  obtain ⟨ahead', n'⟩ := c'
  obtain ⟨hahead, hsize⟩ := h
  rcases hahead with _ | ⟨-, hrest⟩
  · exact ⟨.nil, hsize⟩
  · exact ⟨hrest, hsize⟩

theorem length (h : c.SameUpTo P c') : c.ahead.length = c'.ahead.length := h.ahead.length_eq

end Cursor.SameUpTo

namespace Rule

variable {α β : Type} {env : Environment}

/-- **Results that differ in places only.** -/
inductive SameUpTo (P : Nat → Nat → Prop) :
    EStateM.Result Rejection Cursor α → EStateM.Result Rejection Cursor α → Prop
  | ok (a : α) {d d' : Cursor} (hd : d.SameUpTo P d') : SameUpTo P (.ok a d) (.ok a d')
  | error (cause : Cause) {p p' : Nat} (hp : P p p') {d d' : Cursor} (hd : d.SameUpTo P d') :
      SameUpTo P (.error ⟨cause, p⟩ d) (.error ⟨cause, p'⟩ d')

/-- **Two rules do the same** in front of cursors that differ in places only. -/
def Parallel (P : Nat → Nat → Prop) (r r' : Rule α) : Prop :=
  ∀ c c' : Cursor, c.SameUpTo P c' → SameUpTo P (r c) (r' c')

namespace Parallel

/-! ### Rules made of rules -/

theorem pure (a : α) : Parallel P (Pure.pure a : Rule α) (Pure.pure a) := fun _ _ h => .ok a h

theorem bind {r r' : Rule α} {f f' : α → Rule β} (hr : Parallel P r r')
    (hf : ∀ a, Parallel P (f a) (f' a)) : Parallel P (r >>= f) (r' >>= f') := by
  intro c c' h
  have hsame := hr c c' h
  show SameUpTo P (EStateM.bind r f c) (EStateM.bind r' f' c')
  unfold EStateM.bind
  generalize r c = x at hsame
  generalize r' c' = x' at hsame
  rcases hsame with ⟨a, hd⟩ | ⟨cause, hp, hd⟩
  · exact hf a _ _ hd
  · exact .error cause hp hd

/-- What is done with the current token may use its place. -/
theorem peek_bind {f f' : Token → Rule α}
    (h : ∀ t t', t.SameUpTo P t' → Parallel P (f t) (f' t')) :
    Parallel P (Rule.peek >>= f) (Rule.peek >>= f') := fun c c' hc => h _ _ hc.current c c' hc

theorem get_bind {f f' : Nat → Rule α} (h : ∀ n, Parallel P (f n) (f' n)) :
    Parallel P (MonadState.get >>= fun c : Cursor => f c.ahead.length)
      (MonadState.get >>= fun c : Cursor => f' c.ahead.length) := by
  intro c c' hc
  have hsame := h c.ahead.length c c' hc
  rw [hc.length] at hsame
  show SameUpTo P (f c.ahead.length c) (f' c'.ahead.length c')
  rw [hc.length]
  exact hsame

theorem skip : Parallel P Rule.skip Rule.skip := fun _ _ h => .ok () h.advance

theorem rejectAt {p p' : Nat} (hp : P p p') (cause : Cause) :
    Parallel P (Rule.rejectAt p cause : Rule α) (Rule.rejectAt p' cause) :=
  fun _ _ h => .error cause hp h

theorem reject (cause : Cause) : Parallel P (Rule.reject cause : Rule α) (Rule.reject cause) :=
  fun _ _ h => .error cause h.current.offset h

theorem ite {p p' : Prop} [Decidable p] [Decidable p'] {r r' s s' : Rule α} (hp : p ↔ p')
    (hr : Parallel P r r') (hs : Parallel P s s') :
    Parallel P (if p then r else s) (if p' then r' else s') := by
  by_cases h : p
  · rw [if_pos h, if_pos (hp.1 h)]
    exact hr
  · rw [if_neg h, if_neg fun h' => h (hp.2 h')]
    exact hs

theorem kind_ite {kind : TokenKind} {r r' s s' : Rule α} (hr : Parallel P r r')
    (hs : Parallel P s s') :
    Parallel P (Rule.peek >>= fun t => if t.kind = kind then r else s)
      (Rule.peek >>= fun t => if t.kind = kind then r' else s') :=
  peek_bind fun _ _ h => ite (by rw [h.kind]) hr hs

/-! ### The rules of the grammar -/

section Parts

variable {operand : Rule Float} (h : Parallel P operand operand)
include h

theorem chainFrom (level : Level) (bound : Nat) (value : Float) :
    Parallel P (Rule.chainFrom level operand bound value)
      (Rule.chainFrom level operand bound value) := by
  induction bound generalizing value with
  | zero => exact pure value
  | succ bound ih =>
    unfold Rule.chainFrom
    refine peek_bind fun t t' ht => ?_
    have hop : t.operatorAt? level = t'.operatorAt? level := by
      unfold Token.operatorAt?
      rw [ht.kind]
    rw [hop]
    rcases t'.operatorAt? level with _ | op
    · exact pure value
    · refine bind skip fun _ => bind h fun right => ?_
      rcases op.apply value right with flaw | value
      · exact rejectAt ht.offset _
      · exact ih value

theorem chain (level : Level) :
    Parallel P (Rule.chain level operand) (Rule.chain level operand) :=
  bind h fun first => get_bind (f := fun n => Rule.chainFrom level operand n first)
    fun n => chainFrom h level n first

theorem expressionOf : Parallel P (Rule.expressionOf operand) (Rule.expressionOf operand) :=
  chain (chain (chain h _) _) _

omit h in
theorem closing : Parallel P Rule.closing Rule.closing := kind_ite skip (reject _)

theorem argumentsFrom (room : Nat) (before : List Float) :
    Parallel P (Rule.argumentsFrom operand room before)
      (Rule.argumentsFrom operand room before) := by
  induction room generalizing before with
  | zero => exact reject _
  | succ room ih =>
    exact bind h fun _ => kind_ite (bind skip fun _ => ih _) (bind closing fun _ => pure _)

theorem argumentsOf : Parallel P (Rule.argumentsOf operand) (Rule.argumentsOf operand) :=
  kind_ite (bind skip fun _ => pure _) (argumentsFrom h _ _)

theorem callOf (f : Function) :
    Parallel P (Rule.callOf env operand f) (Rule.callOf env operand f) := by
  unfold Rule.callOf
  refine peek_bind fun name name' hname => bind skip fun _ => kind_ite ?_ (reject _)
  refine bind skip fun _ => bind (argumentsOf h) fun args => ?_
  rcases f.apply args env.angleUnit with flaw | value
  · exact rejectAt hname.offset _
  · exact pure value

omit h in
theorem literal {t t' : Token} (ht : t.SameUpTo P t') (value : Float) :
    Parallel P (Rule.literal t value) (Rule.literal t' value) := by
  unfold Rule.literal
  rw [ht.text]
  exact ite Iff.rfl (reject _) (ite Iff.rfl (reject _) (bind skip fun _ => pure _))

omit h in
theorem register {name name' : Token} (hname : name.SameUpTo P name') :
    Parallel P (Rule.register env name) (Rule.register env name') := by
  unfold Rule.register
  rw [hname.text]
  refine bind skip fun _ => ?_
  rcases env.lookup? name'.text with _ | value
  · exact kind_ite (rejectAt hname.offset _) (rejectAt hname.offset _)
  · exact pure value

theorem primaryOf : Parallel P (Rule.primaryOf env operand) (Rule.primaryOf env operand) := by
  unfold Rule.primaryOf
  refine peek_bind fun t t' ht => ?_
  rw [ht.kind, ht.text]
  split
  · exact literal ht _
  · exact bind skip fun _ => pure _
  · exact register ht
  · exact bind skip fun _ => bind h fun _ => pure _
  · exact bind skip fun _ => h
  · exact bind skip fun _ => bind (expressionOf h) fun _ => bind closing fun _ => pure _
  · exact callOf (expressionOf h) _
  all_goals exact reject _

end Parts

theorem primaryWithin (bound : Nat) :
    Parallel P (Rule.primaryWithin env bound) (Rule.primaryWithin env bound) := by
  induction bound with
  | zero => exact reject _
  | succ bound ih => exact primaryOf ih

theorem expression (env : Environment) :
    Parallel P (Rule.expression env) (Rule.expression env) :=
  get_bind (f := fun n => Rule.expressionOf (Rule.primaryWithin env n))
    fun n => expressionOf (primaryWithin n)

/-- **A whole expression goes the same way** in texts that differ in places only. -/
theorem complete (env : Environment) : Parallel P (Rule.complete env) (Rule.complete env) := by
  refine kind_ite (reject _) (bind (expression env) fun value => peek_bind fun t t' ht => ?_)
  rw [ht.kind, ht.text]
  exact ite Iff.rfl (pure value) (reject _)

end Parallel

end Rule

end Calculator
