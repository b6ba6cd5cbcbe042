import Calculator.Proofs.Grammar.Whole
import Calculator.Session

/-!
# Sessions stay finite

An expression reads numbers, constants and the registers, and everything it computes from them
passes a guard. So finite registers give a finite value (`isFinite_of_evaluate`), which is the next
last result: one step keeps the registers finite (`finite_evaluate`), and so does any run of
evaluations (`finite_after`).

What one evaluation gives, and what it changes, is `Session.fst_evaluate` and
`Session.toEnvironment_evaluate`.
-/

namespace Calculator

/-- **Neither register holds an infinity or NaN.** -/
structure Environment.Finite (env : Environment) : Prop where
  memory : IsFinite env.memory
  lastResult : IsFinite env.lastResult

/-- What the registers have in common with all finite numbers, the value has too. -/
theorem all_of_evaluate {P : Float → Prop} (hfinite : ∀ x, IsFinite x → P x)
    (hneg : ∀ x, P x → P (-x)) {env : Environment} (hm : P env.memory) (hl : P env.lastResult)
    {source : String} {value : Float} (hv : evaluate env source = .ok value) : P value := by
  obtain ⟨t, -, heval⟩ := Grammar.evaluate_eq_ok_iff.1 hv
  exact t.all_of_eval hfinite hneg hm hl heval

theorem isFinite_of_evaluate {env : Environment} (h : env.Finite) {source : String} {value : Float}
    (hv : evaluate env source = .ok value) : IsFinite value := by
  obtain ⟨t, -, heval⟩ := Grammar.evaluate_eq_ok_iff.1 hv
  exact t.isFinite_of_eval h.memory h.lastResult heval

namespace Session

/-- **The session after some evaluations**, one after the other. -/
def after (s : Session) (expressions : List String) : Session :=
  expressions.foldl (fun s e => (s.evaluate e).2) s

/-! ### One evaluation -/

theorem fst_evaluate (s : Session) (expression : String) : (s.evaluate expression).1 =
    if expression.isEmpty then .error (.ofFault .invalidInput expression)
    else (Calculator.evaluate s.toEnvironment expression).mapError (.ofRejection · expression) := by
  unfold evaluate
  split
  · rfl
  · cases Calculator.evaluate s.toEnvironment expression <;> rfl

theorem fst_evaluate_eq_ok_iff {s : Session} {expression : String} {value : Float} :
    (s.evaluate expression).1 = .ok value ↔
      Calculator.evaluate s.toEnvironment expression = .ok value := by
  rw [fst_evaluate]
  split
  · next hempty =>
    obtain rfl := String.isEmpty_iff.1 hempty
    constructor
    · intro h
      cases h
    · intro h
      cases h
  · exact Grammar.mapError_eq_ok

theorem toEnvironment_evaluate {s : Session} {expression : String} {value : Float}
    (h : Calculator.evaluate s.toEnvironment expression = .ok value) :
    (s.evaluate expression).2.toEnvironment = { s.toEnvironment with lastResult := value } := by
  have hne : expression.isEmpty = false := by
    rw [Bool.eq_false_iff]
    intro hempty
    obtain rfl := String.isEmpty_iff.1 hempty
    cases h
  unfold evaluate
  rw [hne, h]
  rfl

/-! ### Steps and runs -/

theorem finite_evaluate {s : Session} (h : s.toEnvironment.Finite) (expression : String) :
    (s.evaluate expression).2.toEnvironment.Finite := by
  unfold evaluate
  split
  · exact h
  · split
    · next value hv => exact ⟨h.memory, isFinite_of_evaluate h hv⟩
    · exact ⟨h.memory, h.lastResult⟩

theorem finite_after {s : Session} (h : s.toEnvironment.Finite) (expressions : List String) :
    (s.after expressions).toEnvironment.Finite := by
  induction expressions generalizing s with
  | nil => exact h
  | cons e es ih => exact ih (finite_evaluate h e)

end Session

/-- **Everything that is computed is finite**: the value of an expression, the value of a call of any
numbers, and the registers along every run of evaluations. -/
theorem finite_results :
    (∀ env source value, Environment.Finite env → evaluate env source = .ok value →
      value.isFinite = true) ∧
    (∀ (f : Function) args unit value, f.apply args unit = .ok value → value.isFinite = true) ∧
    ∀ (s : Session) expressions, s.toEnvironment.Finite →
      (s.after expressions).memory.isFinite = true ∧
        (s.after expressions).lastResult.isFinite = true := by
  refine ⟨fun env source value h => isFinite_of_evaluate h,
    fun f args unit value => Function.isFinite_of_apply, fun s expressions h => ?_⟩
  obtain ⟨hm, hl⟩ := Session.finite_after h expressions
  exact ⟨hm, hl⟩

/-- A new session divides, fails to, and goes on with the result. -/
theorem finite_results_new : Session.new.toEnvironment.Finite ∧
    (Session.new.after ["10 / 4", "ans / 0", "ans * 2"]).lastResult = 5.0 ∧
    (Session.new.after ["10 / 4", "ans / 0", "ans * 2"]).lastResult.isFinite = true := by
  have h : Session.new.toEnvironment.Finite := ⟨by decide, by decide⟩
  exact ⟨h, by decide +kernel, (finite_results.2.2 Session.new _ h).2⟩

end Calculator
