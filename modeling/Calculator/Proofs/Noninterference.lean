import Calculator.Expression.Bound
import Calculator.Proofs.Sessions

/-!
# What an evaluation depends on

Of a session, an expression sees the registers that it names, and the unit of angles if it names one
of the functions in `angularNames`.

Rules in two environments agree as long as these say the same about every token that is ahead
(`Rule.agree_complete`), so the tokens of a text are all that matters (`evaluate_congr`). What the
environments have to share for that is read off the names of the tokens (`alike_of_mentions`).
-/

namespace Calculator

variable {env env' : Environment} {source : String} {token : Token}

/-! ### Rules in two environments -/

namespace Rule

/-- Two environments say the same about every token that is ahead. -/
def AllAlike (env env' : Environment) (c : Cursor) : Prop := ∀ token ∈ c.ahead, env.Alike env' token

theorem behind_allAlike : Behind (AllAlike env env') (AllAlike env env') :=
  ⟨fun _ h token ht => h token (List.mem_of_mem_tail ht), fun _ h => h⟩

theorem AllAlike.current {c : Cursor} (h : AllAlike env env' c) : env.Alike env' c.current := by
  obtain ⟨ahead, n⟩ := c
  cases ahead with
  | nil =>
    constructor
    · intro hk
      cases hk
    · intro f hk
      cases hk
  | cons token rest => exact h token List.mem_cons_self

theorem agree_primaryWithin (bound : Nat) :
    Agree (AllAlike env env') (primaryWithin env bound) (primaryWithin env' bound) := by
  induction bound with
  | zero => exact .reject _
  | succ bound ih => exact .primaryOf behind_allAlike (fun _ h => h.current) ih

theorem agree_expression :
    Agree (AllAlike env env') (expression env) (expression env') :=
  .bind .get fun c => .expressionOf behind_allAlike (agree_primaryWithin c.ahead.length)

/-- **A whole expression goes the same way in both environments.** -/
theorem agree_complete : Agree (AllAlike env env') (complete env) (complete env') :=
  .bind .peek fun _ => .ite (.reject _)
    (.bind agree_expression fun _ => .bind .peek fun _ => .ite (.pure _) (.reject _))

end Rule

/-- **The outcome depends on what the tokens mean**, also if there is no value. -/
theorem evaluate_congr (h : ∀ token ∈ tokens source, env.Alike env' token) :
    evaluate env source = evaluate env' source := by
  have hrule : Rule.complete env (.ofString source) = Rule.complete env' (.ofString source) :=
    (Rule.agree_complete (.ofString source) h).1
  unfold evaluate
  rw [EStateM.run, EStateM.run, hrule]

/-! ### What tokens mean -/

/-- The functions of angles and those that give angles. -/
def angularNames : List String :=
  ["sin", "cos", "tan", "sec", "csc", "cot", "asin", "acos", "atan", "asec", "acsc", "acot",
   "atan2"]

theorem UnaryFunction.apply_unit {f : UnaryFunction} (h : f.name ∉ angularNames) (x : Float)
    (unit unit' : AngleUnit) : f.apply x unit = f.apply x unit' := by
  cases f with
  | sin | cos | tan | sec | csc | cot | asin | acos | atan | asec | acsc | acot =>
    exact absurd (by decide) h
  | _ => rfl

theorem BinaryFunction.apply_unit {f : BinaryFunction} (h : f.name ∉ angularNames) (x y : Float)
    (unit unit' : AngleUnit) : f.apply x y unit = f.apply x y unit' := by
  cases f with
  | atan2 => exact absurd (by decide) h
  | _ => rfl

/-- **No other function has to do with angles.** -/
theorem Function.apply_unit {f : Function} (h : f.name ∉ angularNames) (args : List Float)
    (unit unit' : AngleUnit) : f.apply args unit = f.apply args unit' := by
  unfold Function.apply
  split
  · next f x => rw [f.apply_unit h x unit unit']
  · next f x y => rw [f.apply_unit h x y unit unit']
  · rfl

theorem Environment.lookup?_congr {name : String}
    (hm : name ∈ ["M", "mem"] → env.memory = env'.memory)
    (hl : name ∈ ["ans", "ANS"] → env.lastResult = env'.lastResult) :
    env.lookup? name = env'.lookup? name := by
  unfold lookup?
  split
  · rw [hm (by simp)]
  · rw [hm (by simp)]
  · rw [hl (by simp)]
  · rw [hl (by simp)]
  · rfl

/-- **Some token of the text is one of the names.** -/
def Mentions (source : String) (names : List String) : Prop :=
  ∃ token ∈ tokens source, token.text ∈ names

instance (source : String) (names : List String) : Decidable (Mentions source names) :=
  inferInstanceAs (Decidable (∃ token ∈ tokens source, token.text ∈ names))

theorem alike_of_mentions (hm : Mentions source ["M", "mem"] → env.memory = env'.memory)
    (hl : Mentions source ["ans", "ANS"] → env.lastResult = env'.lastResult)
    (hu : Mentions source angularNames → env.angleUnit = env'.angleUnit)
    (h : token ∈ tokens source) : env.Alike env' token := by
  constructor
  · intro _
    exact Environment.lookup?_congr (fun hname => hm ⟨token, h, hname⟩)
      fun hname => hl ⟨token, h, hname⟩
  · intro f hk args
    by_cases hf : f.name ∈ angularNames
    · have hunit := hu ⟨token, h, by rwa [text_of_function h hk]⟩
      rw [hunit]
    · exact f.apply_unit hf args _ _

/-! ### Sessions -/

namespace Session

theorem memory_after (s : Session) (expressions : List String) :
    (s.after expressions).memory = s.memory := by
  induction expressions generalizing s with
  | nil => rfl
  | cons e es ih => exact (ih _).trans (s.memory_evaluate e)

theorem angleUnit_after (s : Session) (expressions : List String) :
    (s.after expressions).angleUnit = s.angleUnit := by
  induction expressions generalizing s with
  | nil => rfl
  | cons e es ih => exact (ih _).trans (s.angleUnit_evaluate e)

/-- Sessions that share what a text mentions evaluate it alike. -/
theorem evaluate_congr {s s' : Session}
    (hm : Mentions source ["M", "mem"] → s.memory = s'.memory)
    (hl : Mentions source ["ans", "ANS"] → s.lastResult = s'.lastResult)
    (hu : Mentions source angularNames → s.angleUnit = s'.angleUnit) :
    Calculator.evaluate s.toEnvironment source = Calculator.evaluate s'.toEnvironment source ∧
      (s.evaluate source).1 = (s'.evaluate source).1 := by
  have heval : Calculator.evaluate s.toEnvironment source =
      Calculator.evaluate s'.toEnvironment source :=
    Calculator.evaluate_congr fun _ => alike_of_mentions hm hl hu
  refine ⟨heval, ?_⟩
  rw [fst_evaluate, fst_evaluate, heval]

end Session

/-- **Noninterference.** Two sessions give the same outcome if they share what the text mentions:
the memory, the last result and, for a function of angles, their unit. So what has been evaluated
before does not matter to a text without the last result. -/
theorem noninterference :
    (∀ (s s' : Session) (source : String),
      (Mentions source ["M", "mem"] → s.memory = s'.memory) →
      (Mentions source ["ans", "ANS"] → s.lastResult = s'.lastResult) →
      (Mentions source angularNames → s.angleUnit = s'.angleUnit) →
      evaluate s.toEnvironment source = evaluate s'.toEnvironment source ∧
        (s.evaluate source).1 = (s'.evaluate source).1) ∧
    ∀ (s : Session) (expressions : List String) (source : String),
      ¬ Mentions source ["ans", "ANS"] →
        ((s.after expressions).evaluate source).1 = (s.evaluate source).1 := by
  refine ⟨fun s s' source => Session.evaluate_congr, fun s expressions source hans => ?_⟩
  have hm := s.memory_after expressions
  have hu := s.angleUnit_after expressions
  exact (Session.evaluate_congr (fun _ => hm) (fun h => absurd h hans) fun _ => hu).2

/-- The memory is all that an expression with `M` sees of a session. -/
theorem noninterference_memory :
    let s : Session := { memory := 4.0, lastResult := 7.0, precision := 3 }
    let s' : Session := { memory := 4.0, angleUnit := .radians, lastExpression := "1 / 0" }
    Mentions "2 * (3 + M) / 0" ["M", "mem"] ∧ s.memory = s'.memory ∧
    (s.evaluate "2 * (3 + M) / 0").1 = (s'.evaluate "2 * (3 + M) / 0").1 ∧
    ¬ Mentions "2 * sin(M)" ["ans", "ANS"] ∧
    ((s.after ["asin(90)", "ans / 0", ")"]).evaluate "2 * sin(M)").1 =
      (s.evaluate "2 * sin(M)").1 := by
  intro s s'
  have hans : ¬ Mentions "2 * sin(M)" ["ans", "ANS"] := by decide +kernel
  refine ⟨by decide +kernel, rfl, ?_, hans, noninterference.2 s _ _ hans⟩
  exact (noninterference.1 s s' _ (fun _ => rfl) (fun h => absurd h (by decide +kernel))
    fun h => absurd h (by decide +kernel)).2

end Calculator
