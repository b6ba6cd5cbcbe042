import Calculator.Proofs.Grammar.Rules

/-!
# Rules look at one token after the other

A rule is *stepwise* if it is made of looking at the current token, stepping over it, and rejecting.
All rules of the grammar are, up to `Stepwise.complete`, and this bounds what they can depend on.

* `Stepwise.suffix`: what a rule leaves ahead is a rest of what was ahead;
* `Stepwise.same`: a rule that has not stepped over a token does the same whatever follows it, so a
  rejection in front of a token stays (`Stepwise.error_of_stuck`).
-/

namespace Calculator.Rule

variable {α β : Type} {env : Environment} {r : Rule α}

/-- **Rules made of single steps.** A bound on the tokens ahead may be used where any larger one does
the same. -/
inductive Stepwise : {α : Type} → Rule α → Prop
  | pure {α : Type} (a : α) : Stepwise (Pure.pure a : Rule α)
  | peek : Stepwise Rule.peek
  | skip : Stepwise Rule.skip
  | rejectAt {α : Type} (p : Nat) (cause : Cause) : Stepwise (Rule.rejectAt p cause : Rule α)
  | bind {α β : Type} {r : Rule α} {f : α → Rule β} (hr : Stepwise r)
      (hf : ∀ a, Stepwise (f a)) : Stepwise (r >>= f)
  | bounded {α : Type} {f : Nat → Rule α} (hf : ∀ n, Stepwise (f n))
      (h : ∀ (c : Cursor) n, c.ahead.length ≤ n → f c.ahead.length c = f n c) :
      Stepwise (MonadState.get >>= fun c : Cursor => f c.ahead.length)

/-! ### Going forward -/

namespace Stepwise

/-- **A rule only goes forward**, in a text of the same size. -/
theorem suffix (h : Stepwise r) (c : Cursor) :
    (stop (r c)).ahead <:+ c.ahead ∧ (stop (r c)).size = c.size := by
  induction h generalizing c with
  | pure | peek | rejectAt => exact ⟨List.suffix_rfl, rfl⟩
  | skip => exact ⟨List.tail_suffix _, rfl⟩
  | @bind α β r f hr hf ihr ihf =>
    obtain ⟨hle, hsize⟩ := ihr c
    cases hc : r c with
    | error e d =>
      rw [hc] at hle hsize
      rw [bind_of_error hc]
      exact ⟨hle, hsize⟩
    | ok a d =>
      rw [hc] at hle hsize
      obtain ⟨hle', hsize'⟩ := ihf a d
      rw [bind_of_ok hc]
      exact ⟨hle'.trans hle, hsize'.trans hsize⟩
  | bounded hf h ih => exact ih c.ahead.length c

theorem agree (h : Stepwise r) (n : Nat) : Agree (Within n) r r :=
  fun c hc => ⟨rfl, Nat.le_trans (h.suffix c).1.length_le hc⟩

/-! ### What a rule has not seen -/

section Same

variable {token : Token} {rest rest' : List Token} {n n' : Nat}

/-- **Two results with the same value or rejection**, in front of a token behind which the texts may
differ. -/
inductive Same (token : Token) (rest : List Token) (n : Nat) (rest' : List Token) (n' : Nat) :
    EStateM.Result Rejection Cursor α → EStateM.Result Rejection Cursor α → Prop
  | ok (a : α) (pre : List Token) : Same token rest n rest' n'
      (.ok a ⟨pre ++ token :: rest, n⟩) (.ok a ⟨pre ++ token :: rest', n'⟩)
  | error (e : Rejection) (pre : List Token) : Same token rest n rest' n'
      (.error e ⟨pre ++ token :: rest, n⟩) (.error e ⟨pre ++ token :: rest', n'⟩)

/-- **A rule that has not stepped over a token does the same whatever follows it.** -/
theorem same (h : Stepwise r) (token : Token) (rest : List Token) (n : Nat) (rest' : List Token)
    (n' : Nat) (pre : List Token) : (stop (r ⟨pre ++ token :: rest, n⟩)).ahead <:+ rest ∨
      Same token rest n rest' n' (r ⟨pre ++ token :: rest, n⟩) (r ⟨pre ++ token :: rest', n'⟩) := by
  induction h generalizing pre with
  | pure a => exact Or.inr (.ok a pre)
  | rejectAt p cause => exact Or.inr (.error ⟨cause, p⟩ pre)
  | peek =>
    cases pre with
    | nil => exact Or.inr (.ok token [])
    | cons t pre => exact Or.inr (.ok t (t :: pre))
  | skip =>
    cases pre with
    | nil => exact Or.inl List.suffix_rfl
    | cons t pre => exact Or.inr (.ok () pre)
  | @bind α β r f hr hf ihr ihf =>
    have hfirst := ihr pre
    generalize hx : r ⟨pre ++ token :: rest, n⟩ = x at hfirst
    generalize hy : r ⟨pre ++ token :: rest', n'⟩ = y at hfirst
    rcases hfirst with hpast | hsame
    · refine Or.inl ?_
      cases x with
      | error e d =>
        rw [bind_of_error hx]
        exact hpast
      | ok a d =>
        rw [bind_of_ok hx]
        exact ((hf a).suffix d).1.trans hpast
    · cases hsame with
      | error e pre' =>
        rw [bind_of_error hx, bind_of_error hy]
        exact Or.inr (.error e pre')
      | ok a pre' =>
        rw [bind_of_ok hx, bind_of_ok hy]
        exact ihf a pre'
  | @bounded α f hf h ih =>
    -- One bound is enough for both texts.
    have hrest := h ⟨pre ++ token :: rest, n⟩ _
      (Nat.le_max_left _ (pre ++ token :: rest').length)
    have hrest' := h ⟨pre ++ token :: rest', n'⟩ _
      (Nat.le_max_right (pre ++ token :: rest).length _)
    show (stop (f (pre ++ token :: rest).length _)).ahead <:+ rest ∨
      Same token rest n rest' n' (f (pre ++ token :: rest).length _)
        (f (pre ++ token :: rest').length _)
    rw [show f (pre ++ token :: rest).length ⟨pre ++ token :: rest, n⟩ = _ from hrest,
      show f (pre ++ token :: rest').length ⟨pre ++ token :: rest', n'⟩ = _ from hrest']
    exact ih _ pre

/-- **A rejection in front of a token stays**, whatever follows the token. -/
theorem error_of_stuck (h : Stepwise r) {pre : List Token} {e : Rejection} {d : Cursor}
    (hr : r ⟨pre ++ token :: rest, n⟩ = .error e d) (hd : d.ahead = token :: rest)
    (rest' : List Token) (n' : Nat) : ∃ d', r ⟨pre ++ token :: rest', n'⟩ = .error e d' := by
  have hsame := h.same token rest n rest' n' pre
  rw [hr] at hsame
  rcases hsame with hpast | hsame
  · have hle : d.ahead.length ≤ rest.length := hpast.length_le
    rw [hd, List.length_cons] at hle
    omega
  · generalize r ⟨pre ++ token :: rest', n'⟩ = y at hsame
    cases hsame
    exact ⟨_, rfl⟩

end Same

/-! ### The rules of the grammar -/

variable {operand : Rule Float}

theorem reject (cause : Cause) : Stepwise (Rule.reject cause : Rule α) :=
  .bind .peek fun _ => .rejectAt _ _

theorem ite {p : Prop} [Decidable p] {r s : Rule α} (hr : Stepwise r) (hs : Stepwise s) :
    Stepwise (if p then r else s) := by
  split
  · exact hr
  · exact hs

theorem chainFrom (level : Level) (h : Stepwise operand) (bound : Nat) (value : Float) :
    Stepwise (Rule.chainFrom level operand bound value) := by
  induction bound generalizing value with
  | zero => exact .pure value
  | succ bound ih =>
    unfold Rule.chainFrom
    refine .bind .peek fun token => ?_
    cases token.operatorAt? level with
    | none => exact .pure value
    | some op =>
      refine .bind .skip fun _ => .bind h fun right => ?_
      cases op.apply value right with
      | ok value => exact ih value
      | error flaw => exact .rejectAt _ _

theorem chain (level : Level) (h : Stepwise operand) : Stepwise (Rule.chain level operand) := by
  refine .bind h fun first => .bounded (fun n => chainFrom level h n first) fun c n hn => ?_
  exact chainFrom_bound h.agree (Nat.le_refl _) hn

theorem expressionOf (h : Stepwise operand) : Stepwise (Rule.expressionOf operand) :=
  chain _ (chain _ (chain _ h))

theorem closing : Stepwise Rule.closing := .bind .peek fun _ => ite .skip (reject _)

theorem argumentsFrom (h : Stepwise operand) (room : Nat) (before : List Float) :
    Stepwise (Rule.argumentsFrom operand room before) := by
  induction room generalizing before with
  | zero => exact reject _
  | succ room ih =>
    exact .bind h fun _ => .bind .peek fun _ =>
      ite (.bind .skip fun _ => ih _) (.bind closing fun _ => .pure _)

theorem argumentsOf (h : Stepwise operand) : Stepwise (Rule.argumentsOf operand) :=
  .bind .peek fun _ => ite (.bind .skip fun _ => .pure _) (argumentsFrom h _ _)

theorem callOf (h : Stepwise operand) (f : Function) : Stepwise (Rule.callOf env operand f) := by
  unfold Rule.callOf
  refine .bind .peek fun name => .bind .skip fun _ => .bind .peek fun _ =>
    ite (.bind .skip fun _ => .bind (argumentsOf h) fun args => ?_) (reject _)
  cases f.apply args env.angleUnit with
  | ok value => exact .pure value
  | error flaw => exact .rejectAt _ _

theorem literal (token : Token) (value : Float) : Stepwise (Rule.literal token value) :=
  ite (reject _) (ite (reject _) (.bind .skip fun _ => .pure _))

theorem register (name : Token) : Stepwise (Rule.register env name) := by
  unfold Rule.register
  refine .bind .skip fun _ => ?_
  cases env.lookup? name.text with
  | some value => exact .pure value
  | none => exact .bind .peek fun _ => ite (.rejectAt _ _) (.rejectAt _ _)

theorem primaryOf (h : Stepwise operand) : Stepwise (Rule.primaryOf env operand) := by
  unfold Rule.primaryOf
  refine .bind .peek fun token => ?_
  split
  · exact literal _ _
  · exact .bind .skip fun _ => .pure _
  · exact register _
  · exact .bind .skip fun _ => .bind h fun _ => .pure _
  · exact .bind .skip fun _ => h
  · exact .bind .skip fun _ => .bind (expressionOf h) fun _ => .bind closing fun _ => .pure _
  · exact callOf (expressionOf h) _
  all_goals exact reject _

theorem primaryWithin (bound : Nat) : Stepwise (Rule.primaryWithin env bound) := by
  induction bound with
  | zero => exact reject _
  | succ bound ih => exact primaryOf ih

variable (env)

theorem primary : Stepwise (Rule.primary env) := by
  refine .bounded primaryWithin fun c n hn => ?_
  exact (primaryWithin_agree (Nat.le_refl _) hn).eq_self

theorem expression : Stepwise (Rule.expression env) := by
  rw [← expressionOf_primary]
  exact expressionOf (primary env)

/-- **Whole expressions are read step by step.** -/
theorem complete : Stepwise (Rule.complete env) :=
  .bind .peek fun _ => ite (reject _)
    (.bind (expression env) fun _ => .bind .peek fun _ => ite (.pure _) (reject _))

end Stepwise

end Calculator.Rule
