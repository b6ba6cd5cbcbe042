import Calculator.Expression
import Calculator.Proofs.Doubles.Finite

/-!
# What the guards let through

Every primitive ends in a guard, so what the functions of the platform compute does not matter here.

* `Guarded P zero o`: `o` is a value with the property `P`, a domain error, an overflow or, only if
  `zero` holds, a division by zero;
* `UnaryFunction.guarded`, `BinaryFunction.guarded`: the value of a function is finite, and only
  `csch`, `coth`, `pow`, `nthrt` and `mod` divide by zero;
* `Function.flaw_of_apply`, `Operator.flaw_of_apply`: the flaws that calls and operations have.
-/

namespace Calculator

variable {α β : Type} {zero : Prop}

/-- **The results of guarded computations.** -/
inductive Guarded (P : α → Prop) (zero : Prop) : Outcome α → Prop
  | ok {a : α} (h : P a) : Guarded P zero (.ok a)
  | domainError : Guarded P zero (.error .domainError)
  | overflow : Guarded P zero (.error .overflow)
  | divisionByZero (h : zero) : Guarded P zero (.error .divisionByZero)

/-- Not an infinity and not NaN. -/
abbrev IsFinite (x : Float) : Prop := x.isFinite = true

theorem isFinite_one : IsFinite 1.0 := by decide

namespace Guarded

variable {P : α → Prop} {Q : β → Prop}

theorem bind {o : Outcome α} {f : α → Outcome β} (ho : Guarded P zero o)
    (hf : ∀ a, P a → Guarded Q zero (f a)) : Guarded Q zero (o >>= f) := by
  cases ho with
  | ok h => exact hf _ h
  | domainError => exact .domainError
  | overflow => exact .overflow
  | divisionByZero h => exact .divisionByZero h

theorem ite {c : Prop} [Decidable c] {o o' : Outcome α} (ho : c → Guarded P zero o)
    (ho' : ¬ c → Guarded P zero o') : Guarded P zero (if c then o else o') := by
  split
  · next h => exact ho h
  · next h => exact ho' h

theorem mono {zero' : Prop} {o : Outcome α} (h : Guarded P zero o) (hz : zero → zero') :
    Guarded P zero' o := by
  cases h with
  | ok h => exact .ok h
  | domainError => exact .domainError
  | overflow => exact .overflow
  | divisionByZero h => exact .divisionByZero (hz h)

theorem of_narrow_ok {o : Outcome α} {a : α} (h : Guarded P zero o) (ha : o.narrow = .ok a) :
    P a := by
  obtain rfl := Outcome.narrow_eq_ok_iff.1 ha
  cases h with
  | ok h => exact h

theorem of_narrow_error {o : Outcome α} {flaw : Flaw} (h : Guarded P zero o)
    (ho : o.narrow = .error flaw) : flaw = .domainError ∨ flaw = .divisionByZero ∧ zero := by
  cases h with
  | ok h => cases ho
  | domainError | overflow =>
    cases ho
    exact Or.inl rfl
  | divisionByZero h =>
    cases ho
    exact Or.inr ⟨rfl, h⟩

end Guarded

theorem guarded_checked (x : Float) : Guarded IsFinite zero (checked x) := by
  unfold checked
  exact .ite (fun h => .ok h) fun _ => .overflow

/-! ### Trigonometric functions and logarithms -/

theorem Trigonometry.guarded_tan (x : Float) (unit : AngleUnit) :
    Guarded IsFinite zero (tan x unit) :=
  .ite (fun _ => .domainError) fun _ => guarded_checked _

theorem Trigonometry.guarded_reciprocal (x : Float) : Guarded IsFinite zero (reciprocal x) :=
  .ite (fun _ => .domainError) fun _ => guarded_checked _

theorem Trigonometry.guarded_asin (x : Float) (unit : AngleUnit) :
    Guarded IsFinite zero (asin x unit) :=
  .ite (fun _ => guarded_checked _) fun _ => .domainError

theorem Trigonometry.guarded_acos (x : Float) (unit : AngleUnit) :
    Guarded IsFinite zero (acos x unit) :=
  .ite (fun _ => guarded_checked _) fun _ => .domainError

theorem Logarithm.guarded_requirePositive (x : Float) :
    Guarded (fun _ => True) zero (requirePositive x) :=
  .ite (fun _ => .ok trivial) fun _ => .domainError

theorem Logarithm.guarded_logBase (x base : Float) : Guarded IsFinite zero (logBase x base) :=
  .ite (fun _ => .domainError) fun _ =>
    (guarded_requirePositive x).bind fun _ _ =>
      (guarded_requirePositive base).bind fun _ _ => guarded_checked _

/-! ### Functions on integers -/

theorem Whole.guarded_ofDouble (x : Float) : Guarded (fun _ => True) zero (ofDouble x) := by
  unfold ofDouble
  split
  · exact .domainError
  · exact .ite (fun _ => .ok trivial) fun _ => .overflow

theorem Whole.guarded_signed (n : UInt64) : Guarded (fun _ => True) zero (signed n) :=
  .ite (fun _ => .ok trivial) fun _ => .overflow

theorem Whole.guarded_toDouble (n : Int64) : Guarded IsFinite zero (toDouble n .overflow) :=
  .ite (fun h => .ok (Double.isFinite_ofInt h)) fun _ => .overflow

namespace Combinatorics

theorem guarded_factorial (n : Int64) : Guarded IsFinite zero (factorial n) := by
  refine .ite (fun _ => .domainError) fun _ => .ite (fun _ => .overflow) fun h => .ok ?_
  have hle := Int64.le_iff_toInt_le.1 (Int64.not_lt.1 h)
  have hmax : maxFactorial.toInt = 170 := by decide
  exact Double.isFinite_factorialOf (by omega)

theorem guarded_fallingProduct {acc : Float} (h : IsFinite acc) (top : Int64) (factors : Nat) :
    Guarded IsFinite zero (fallingProduct acc top factors) := by
  induction factors generalizing acc top with
  | zero => exact .ok h
  | succ factors ih => exact (guarded_checked _).bind fun _ h => ih h _

theorem guarded_binomialProduct (n : Int64) {acc : Float} (h : IsFinite acc) (i : Int64)
    (fractions : Nat) : Guarded IsFinite zero (binomialProduct n acc i fractions) := by
  induction fractions generalizing acc i with
  | zero => exact .ok h
  | succ fractions ih => exact (guarded_checked _).bind fun _ h => ih h _

theorem guarded_permutation (n r : Int64) : Guarded IsFinite zero (permutation n r) :=
  .ite (fun _ => .domainError) fun _ => guarded_fallingProduct isFinite_one _ _

theorem guarded_combination (n r : Int64) : Guarded IsFinite zero (combination n r) :=
  .ite (fun _ => .domainError) fun _ => guarded_binomialProduct _ isFinite_one _ _

end Combinatorics

namespace Divisor

theorem guarded_toDouble (n : UInt64) : Guarded IsFinite zero (toDouble n) :=
  .ite (fun _ => .overflow) fun _ =>
    (Whole.guarded_signed n).bind fun _ _ => Whole.guarded_toDouble _

theorem guarded_mulChecked (a b : UInt64) : Guarded (fun _ => True) zero (mulChecked a b) :=
  .ite (fun _ => .ok trivial) fun _ => .overflow

theorem guarded_lcm (a b : Int64) : Guarded IsFinite zero (lcm a b) :=
  .ite (fun _ => .ok (by decide)) fun _ =>
    (guarded_mulChecked _ _).bind fun _ _ => guarded_toDouble _

end Divisor

/-! ### Arithmetic -/

namespace Arithmetic

/-- The operations that divide are guarded by their divisor. -/
theorem guarded_divide (a b : Float) : Guarded IsFinite ((b == 0.0) = true) (divide a b) :=
  .ite (fun h => .divisionByZero h) fun _ => guarded_checked _

theorem guarded_modulo (a b : Float) : Guarded IsFinite ((b == 0.0) = true) (modulo a b) :=
  .ite (fun h => .divisionByZero h) fun _ => guarded_checked _

theorem guarded_power (a b : Float) : Guarded IsFinite True (power a b) :=
  .ite (fun _ => .divisionByZero trivial) fun _ =>
    .ite (fun _ => .domainError) fun _ => guarded_checked _

theorem guarded_nthRoot (x : Float) (n : Int64) : Guarded IsFinite True (nthRoot x n) :=
  .ite (fun _ => .divisionByZero trivial) fun _ =>
    .ite (fun _ => .domainError) fun _ => guarded_checked _

end Arithmetic

/-! ### Functions and operators -/

theorem UnaryFunction.guarded (f : UnaryFunction) (x : Float) (unit : AngleUnit) :
    Guarded IsFinite (f = .csch ∨ f = .coth) (f.apply x unit) := by
  cases f with
  | sin | cos | atan | sinh | cosh | tanh | asinh | exp | exp10 | exp2 | cbrt | abs | floor | ceil
  | round => exact guarded_checked _
  | tan => exact Trigonometry.guarded_tan _ _
  | sec | csc => exact (guarded_checked _).bind fun _ _ => Trigonometry.guarded_reciprocal _
  | cot => exact (Trigonometry.guarded_tan _ _).bind fun _ _ => Trigonometry.guarded_reciprocal _
  | asin => exact Trigonometry.guarded_asin _ _
  | acos => exact Trigonometry.guarded_acos _ _
  | asec => exact .ite (fun _ => .domainError) fun _ => Trigonometry.guarded_acos _ _
  | acsc => exact .ite (fun _ => .domainError) fun _ => Trigonometry.guarded_asin _ _
  | acot => exact .ite (fun _ => guarded_checked _) fun _ => guarded_checked _
  | sech => exact (guarded_checked _).bind fun _ _ => guarded_checked _
  | csch =>
    exact .ite (fun _ => .divisionByZero (Or.inl rfl)) fun _ =>
      (guarded_checked _).bind fun _ _ => guarded_checked _
  | coth => exact .ite (fun _ => .divisionByZero (Or.inr rfl)) fun _ => guarded_checked _
  | acosh | atanh | sqrt | gamma => exact .ite (fun _ => .domainError) fun _ => guarded_checked _
  | log | ln | log10 | log2 =>
    exact (Logarithm.guarded_requirePositive _).bind fun _ _ => guarded_checked _
  | factorial =>
    exact (Whole.guarded_ofDouble _).bind fun _ _ => Combinatorics.guarded_factorial _

theorem BinaryFunction.guarded (f : BinaryFunction) (x y : Float) (unit : AngleUnit) :
    Guarded IsFinite (f = .power ∨ f = .root ∨ f = .modulo) (f.apply x y unit) := by
  cases f with
  | atan2 | min | max => exact guarded_checked _
  | power => exact (Arithmetic.guarded_power x y).mono fun _ => Or.inl rfl
  | root =>
    exact (Whole.guarded_ofDouble _).bind fun n _ =>
      (Arithmetic.guarded_nthRoot x n).mono fun _ => Or.inr (Or.inl rfl)
  | modulo => exact (Arithmetic.guarded_modulo x y).mono fun _ => Or.inr (Or.inr rfl)
  | logBase => exact Logarithm.guarded_logBase _ _
  | permutation =>
    exact (Whole.guarded_ofDouble _).bind fun _ _ =>
      (Whole.guarded_ofDouble _).bind fun _ _ => Combinatorics.guarded_permutation _ _
  | combination =>
    exact (Whole.guarded_ofDouble _).bind fun _ _ =>
      (Whole.guarded_ofDouble _).bind fun _ _ => Combinatorics.guarded_combination _ _
  | gcd =>
    exact (Whole.guarded_ofDouble _).bind fun _ _ =>
      (Whole.guarded_ofDouble _).bind fun _ _ => Divisor.guarded_toDouble _
  | lcm =>
    exact (Whole.guarded_ofDouble _).bind fun _ _ =>
      (Whole.guarded_ofDouble _).bind fun _ _ => Divisor.guarded_lcm _ _

/-- The functions that can divide by zero. -/
def Function.dividing : List Function :=
  [.binary .power, .binary .root, .binary .modulo, .unary .csch, .unary .coth]

variable {f : Function} {op : Operator} {args : List Float} {unit : AngleUnit} {a b value : Float}
  {flaw : Flaw}

theorem Function.isFinite_of_apply (h : f.apply args unit = .ok value) : IsFinite value := by
  unfold apply at h
  split at h
  · exact (UnaryFunction.guarded ..).of_narrow_ok h
  · exact (BinaryFunction.guarded ..).of_narrow_ok h
  · cases h

theorem Function.flaw_of_apply (h : f.apply args unit = .error flaw) :
    flaw = .tooFewArguments ∧ args.length < f.arity ∨
      flaw = .tooManyArguments ∧ f.arity < args.length ∨
      flaw = .divisionByZero ∧ f ∈ dividing ∨ flaw = .domainError := by
  unfold apply at h
  split at h
  · next f x =>
    rcases (UnaryFunction.guarded ..).of_narrow_error h with rfl | ⟨rfl, rfl | rfl⟩
    · simp
    · simp [dividing]
    · simp [dividing]
  · next f x y =>
    rcases (BinaryFunction.guarded ..).of_narrow_error h with rfl | ⟨rfl, rfl | rfl | rfl⟩
    · simp
    · simp [dividing]
    · simp [dividing]
    · simp [dividing]
  · next hunary hbinary =>
    split at h
    · next hlen =>
      cases h
      exact Or.inl ⟨rfl, hlen⟩
    · next hlen =>
      cases h
      have hne : args.length ≠ f.arity := by
        intro hlen
        cases f with
        | unary f =>
          obtain ⟨x, rfl⟩ := List.length_eq_one_iff.1 hlen
          exact hunary f x rfl rfl
        | binary f =>
          match args, hlen with
          | [x, y], _ => exact hbinary f x y rfl rfl
      exact Or.inr (Or.inl ⟨rfl, by omega⟩)

/-- **Every operation narrows a guarded result**; only `/` and `%` divide, by their right operand. -/
theorem Operator.guarded (op : Operator) (a b : Float) :
    ∃ o : Outcome Float, op.apply a b = o.narrow ∧
      Guarded IsFinite ((op = .div ∨ op = .mod) ∧ (b == 0.0) = true) o := by
  cases op with
  | add | sub | mul => exact ⟨_, rfl, guarded_checked _⟩
  | div => exact ⟨_, rfl, (Arithmetic.guarded_divide a b).mono fun h => ⟨Or.inl rfl, h⟩⟩
  | mod => exact ⟨_, rfl, (Arithmetic.guarded_modulo a b).mono fun h => ⟨Or.inr rfl, h⟩⟩
  | pow =>
    refine ⟨checked (a.pow b), ?_, guarded_checked _⟩
    show (if (a.pow b).isFinite then _ else _) = _
    unfold checked
    split <;> rfl

theorem Operator.isFinite_of_apply (h : op.apply a b = .ok value) : IsFinite value := by
  obtain ⟨o, ho, hg⟩ := op.guarded a b
  exact hg.of_narrow_ok (ho ▸ h)

theorem Operator.flaw_of_apply (h : op.apply a b = .error flaw) :
    flaw = .domainError ∨
      flaw = .divisionByZero ∧ (op = .div ∨ op = .mod) ∧ (b == 0.0) = true := by
  obtain ⟨o, ho, hg⟩ := op.guarded a b
  exact hg.of_narrow_error (ho ▸ h)

end Calculator
