import Calculator.Function.Apply
import Calculator.Proofs.Conversions
import Calculator.Proofs.Divisors
import Calculator.Proofs.Permutations

/-!
# No operation on words overflows

The functions on integers compute with 64-bit words, whose operations wrap around silently. Here
they are evaluated a second time, strictly: an operation whose result is not a word, a division by
zero and an operand that is not safe stop the evaluation, with a result that is neither a value nor
a fault. Where the strict evaluation gives what the other one gives, none of that has happened.

* `word?`, `add?`, `sub?`, `div?`, `operand`: the operations that may stop;
* `strictFalling_eq`, `strictBinomial_eq`: no step of the loops stops;
* `strictPermutation_eq_iff`: only the least factor of an empty product can stop;
* `strict_evaluation`: no call stops, whatever its arguments are.
-/

namespace Calculator

open Whole (ofDouble maxSafe)

/-! ### Strict computations -/

/-- **A computation that may be stopped**, by an operation that goes wrong. -/
abbrev Strict := ExceptT Fault Option

namespace Strict

variable {α β : Type} {o : Outcome α} {f : α → Outcome β} {g : α → Strict β}

/-- **The computation was stopped.** -/
def stopped : Strict α := ExceptT.mk none

/-- **The computation ran to its end**, to a value or a fault. -/
def runs (o : Outcome α) : Strict α := ExceptT.mk (some o)

theorem stopped_ne_runs : (stopped : Strict α) ≠ runs o := nofun

theorem runs_bind (h : ∀ a, o = .ok a → g a = runs (f a)) : (runs o >>= g) = runs (o >>= f) := by
  cases o with
  | error fault => rfl
  | ok a => exact h a rfl

/-! ### Operations on words -/

/-- **An integer as a word**, if it is one. -/
def word? (i : ℤ) : Strict Int64 :=
  if -2 ^ 63 ≤ i ∧ i < 2 ^ 63 then pure (.ofInt i) else stopped

def add? (a b : Int64) : Strict Int64 := word? (a.toInt + b.toInt)

def sub? (a b : Int64) : Strict Int64 := word? (a.toInt - b.toInt)

/-- **A quotient of doubles**, if the divisor is not zero. -/
def div? (x y : Float) : Strict Float := if y == 0.0 then stopped else pure (x / y)

/-- **A quotient of words**, if the divisor is not zero. -/
def quotient? (a b : UInt64) : Strict UInt64 := if b = 0 then stopped else pure (a / b)

/-- **An operand of a function on integers**: the integer part of a double, if it is safe. -/
def operand (x : Float) : Strict Int64 := do
  let n ← runs (ofDouble x)
  if n.toInt.natAbs ≤ maxSafe then pure n else stopped

variable {a b : Int64}

theorem add?_eq (hlow : -2 ^ 63 ≤ a.toInt + b.toInt) (hhigh : a.toInt + b.toInt < 2 ^ 63) :
    add? a b = pure (a + b) := by
  unfold add? word?
  rw [if_pos ⟨hlow, hhigh⟩, Int64.ofInt_add, Int64.ofInt_toInt, Int64.ofInt_toInt]

theorem sub?_eq (hlow : -2 ^ 63 ≤ a.toInt - b.toInt) (hhigh : a.toInt - b.toInt < 2 ^ 63) :
    sub? a b = pure (a - b) := by
  unfold sub? word?
  rw [if_pos ⟨hlow, hhigh⟩, Int64.ofInt_sub, Int64.ofInt_toInt, Int64.ofInt_toInt]

/-- A word that is not zero is not rounded to zero. -/
theorem div?_eq {m : ℤ} (x : Float) (hpos : 0 < m) (hword : m < 2 ^ 63) :
    div? x (Double.ofInt m) = pure (x / Double.ofInt m) := by
  obtain ⟨k, rfl⟩ := Int.eq_ofNat_of_zero_le hpos.le
  have hk : 0 < k := by omega
  obtain ⟨p, hp, hwithin⟩ := Double.exists_ofInt hk (by omega)
  have hhalf := hwithin.half_le (by exact_mod_cast hk) (by norm_num)
  have hne : p ≠ 0 := by
    intro hzero
    rw [hzero] at hhalf
    norm_num at hhalf
  unfold div?
  rw [if_neg (mt hp.beq_zero_iff.1 hne)]

theorem safe_of_ofDouble {x : Float} {n : Int64} (hx : ofDouble x = .ok n) :
    n.toInt.natAbs ≤ maxSafe := by
  obtain ⟨-, hsafe, hn⟩ := (Whole.ofDouble_eq_ok_iff x n).1 hx
  rwa [hn]

theorem operand_eq (x : Float) : operand x = runs (ofDouble x) := by
  unfold operand
  cases hx : ofDouble x with
  | error fault => rfl
  | ok n => exact if_pos (safe_of_ofDouble hx)

theorem operand_bind {f : Int64 → Outcome β} {g : Int64 → Strict β} (x : Float)
    (h : ∀ n, n.toInt.natAbs ≤ maxSafe → g n = runs (f n)) :
    (operand x >>= g) = runs (ofDouble x >>= f) := by
  rw [operand_eq]
  exact runs_bind fun n hx => h n (safe_of_ofDouble hx)

end Strict

open Strict

/-! ### Permutations and combinations -/

namespace Combinatorics

variable {n r top i : Int64} {k : Nat}

def strictFalling (acc : Float) (top : Int64) : Nat → Strict Float
  | 0 => pure acc
  | factors + 1 => do
    let next ← runs (checked (acc * Double.ofInt top.toInt))
    strictFalling next (← sub? top 1) factors

/-- **Permutations, strictly.** The factors go down from `n` to `n - r + 1`. -/
def strictPermutation (n r : Int64) : Strict Float :=
  if n < 0 || r < 0 || n < r then runs (.error .domainError)
  else do
    let least ← add? (← sub? n r) 1
    strictFalling 1.0 n (rangeLength least n)

def strictBinomial (n : Int64) (acc : Float) (i : Int64) : Nat → Strict Float
  | 0 => pure acc
  | fractions + 1 => do
    let factor ← sub? n i
    let divisor ← add? i 1
    let quotient ← div? (acc * Double.ofInt factor.toInt) (Double.ofInt divisor.toInt)
    strictBinomial n (← runs (checked quotient)) (← add? i 1) fractions

/-- **Combinations, strictly.** -/
def strictCombination (n r : Int64) : Strict Float :=
  if n < 0 || r < 0 || n < r then runs (.error .domainError)
  else do
    let others ← sub? n r
    strictBinomial n 1.0 0 (min r others).toInt.toNat

/-- **No factor falls below zero**, and neither does what comes after the last one. -/
theorem strictFalling_eq (acc : Float) (h : k ≤ top.toInt) :
    strictFalling acc top k = runs (fallingProduct acc top k) := by
  induction k generalizing acc top with
  | zero => rfl
  | succ k ih =>
    have hlt := Int64.toInt_lt top
    have hone := Int64.toInt_one
    have hsub : (top - 1).toInt = top.toInt - 1 := by
      rw [Int64.toInt_sub, hone, Int.bmod_eq_of_le (by omega) (by omega)]
    refine runs_bind fun next _ => ?_
    rw [sub?_eq (by omega) (by omega), pure_bind]
    exact ih next (by omega)

/-- **No fraction has a term outside the words**, or a zero for a denominator. -/
theorem strictBinomial_eq (acc : Float) (hi : 0 ≤ i.toInt) (h : i.toInt + k ≤ n.toInt) :
    strictBinomial n acc i k = runs (binomialProduct n acc i k) := by
  induction k generalizing acc i with
  | zero => rfl
  | succ k ih =>
    have hlt := Int64.toInt_lt n
    have hone := Int64.toInt_one
    have hadd : (i + 1).toInt = i.toInt + 1 := by
      rw [Int64.toInt_add, hone, Int.bmod_eq_of_le (by omega) (by omega)]
    unfold strictBinomial
    rw [sub?_eq (by omega) (by omega), add?_eq (by omega) (by omega)]
    simp only [pure_bind]
    rw [div?_eq _ (by omega) (by omega), pure_bind]
    exact runs_bind fun next _ => ih next (by omega) (by omega)

theorem strictCombination_eq (n r : Int64) : strictCombination n r = runs (combination n r) := by
  unfold strictCombination combination
  split
  · rfl
  · next hguard =>
    obtain ⟨hr, hrn⟩ := guard_eq_false_iff.1 (Bool.eq_false_iff.2 hguard)
    have hr' := toInt_nonneg hr
    have hrn' := Int64.le_iff_toInt_le.1 hrn
    have hlt := Int64.toInt_lt n
    have hcount := toInt_min_sub hr hrn
    rw [sub?_eq (by omega) (by omega), pure_bind]
    exact strictBinomial_eq 1.0 le_rfl (by rw [hcount, Int64.toInt_zero]; omega)

theorem least_eq (hr : 0 ≤ r) (hrn : r ≤ n) (hne : (n, r) ≠ (Int64.maxValue, 0)) :
    (do add? (← sub? n r) 1) = (pure (n - r + 1) : Strict Int64) := by
  have hr' := toInt_nonneg hr
  have hrn' := Int64.le_iff_toInt_le.1 hrn
  have hlt := Int64.toInt_lt n
  have hone := Int64.toInt_one
  have hsub := toInt_sub_of_le hr hrn
  obtain ⟨-, hfit⟩ := toInt_least hr hrn hne
  rw [sub?_eq (by omega) (by omega), pure_bind, add?_eq (by omega) (by omega)]

theorem strictPermutation_eq (hne : (n, r) ≠ (Int64.maxValue, 0)) :
    strictPermutation n r = runs (permutation n r) := by
  unfold strictPermutation permutation
  split
  · rfl
  · next hguard =>
    obtain ⟨hr, hrn⟩ := guard_eq_false_iff.1 (Bool.eq_false_iff.2 hguard)
    have hr' := toInt_nonneg hr
    have hrn' := Int64.le_iff_toInt_le.1 hrn
    rw [← bind_assoc, least_eq hr hrn hne, pure_bind, rangeLength_least hr hrn hne]
    exact strictFalling_eq 1.0 (by omega)

theorem strictPermutation_maxValue_zero : strictPermutation Int64.maxValue 0 = stopped := rfl

/-- **Only below no factor of the largest word** the least factor is no word. -/
theorem strictPermutation_eq_iff (n r : Int64) :
    strictPermutation n r = runs (permutation n r) ↔ (n, r) ≠ (Int64.maxValue, 0) := by
  refine ⟨fun h hpair => ?_, strictPermutation_eq⟩
  obtain ⟨rfl, rfl⟩ := Prod.mk.inj hpair
  rw [strictPermutation_maxValue_zero] at h
  exact stopped_ne_runs h

end Combinatorics

/-! ### Multiples -/

namespace Divisor

open Whole (magnitude)

/-- **Multiples, strictly.** The algorithm divides only by what it has compared with zero, so that
the division before the product is the only one that could go wrong. -/
def strictLcm (a b : Int64) : Strict Float :=
  if a = 0 || b = 0 then pure 0.0
  else do
    let factor ← quotient? (magnitude a) (euclid (magnitude a) (magnitude b))
    runs (mulChecked factor (magnitude b) >>= toDouble)

theorem strictLcm_eq (a b : Int64) : strictLcm a b = runs (lcm a b) := by
  unfold strictLcm lcm
  split
  · rfl
  · next hguard =>
    have ha : a ≠ 0 := by
      rintro rfl
      exact hguard rfl
    unfold quotient?
    rw [if_neg (euclid_ne_zero ha b), pure_bind]

end Divisor

/-! ### Function calls -/

/-- The value of a function of one argument, strictly. A factorial counts up to its operand, so that
no operation of its own can go wrong. -/
def UnaryFunction.strictApply (f : UnaryFunction) (x : Float) (unit : AngleUnit) : Strict Float :=
  match f with
  | factorial => do runs (Combinatorics.factorial (← operand x))
  | f => runs (f.apply x unit)

/-- The value of a function of two arguments, strictly. A root only takes the remainder by two of its
operand, and a divisor is computed with remainders by words that are not zero. -/
def BinaryFunction.strictApply (f : BinaryFunction) (x y : Float) (unit : AngleUnit) :
    Strict Float :=
  match f with
  | root => do runs (Arithmetic.nthRoot x (← operand y))
  | permutation => do Combinatorics.strictPermutation (← operand x) (← operand y)
  | combination => do Combinatorics.strictCombination (← operand x) (← operand y)
  | gcd => do runs (Divisor.gcd (← operand x) (← operand y))
  | lcm => do Divisor.strictLcm (← operand x) (← operand y)
  | f => runs (f.apply x y unit)

/-- **A function call, strictly.** Any other number of arguments than the arity is refused. -/
def Function.strictApply (f : Function) (args : List Float) (unit : AngleUnit) :
    Option (Except Flaw Float) :=
  match f, args with
  | unary f, [x] => (f.strictApply x unit).run.map Outcome.narrow
  | binary f, [x, y] => (f.strictApply x y unit).run.map Outcome.narrow
  | f, args => some (f.apply args unit)

theorem UnaryFunction.strictApply_eq (f : UnaryFunction) (x : Float) (unit : AngleUnit) :
    f.strictApply x unit = runs (f.apply x unit) := by
  cases f with
  | factorial => exact operand_bind x fun n _ => rfl
  | _ => rfl

/-- The pair that is left out is no pair of safe operands. -/
theorem BinaryFunction.strictApply_eq (f : BinaryFunction) (x y : Float) (unit : AngleUnit) :
    f.strictApply x y unit = runs (f.apply x y unit) := by
  cases f with
  | root => exact operand_bind y fun n _ => rfl
  | permutation =>
    refine operand_bind x fun n hn => operand_bind y fun r _ => ?_
    refine Combinatorics.strictPermutation_eq fun hpair => ?_
    rw [(Prod.mk.inj hpair).1] at hn
    exact absurd hn (by decide)
  | combination =>
    exact operand_bind x fun n _ => operand_bind y fun r _ => Combinatorics.strictCombination_eq n r
  | gcd => exact operand_bind x fun a _ => operand_bind y fun b _ => rfl
  | lcm => exact operand_bind x fun a _ => operand_bind y fun b _ => Divisor.strictLcm_eq a b
  | _ => rfl

theorem Function.strictApply_eq (f : Function) (args : List Float) (unit : AngleUnit) :
    f.strictApply args unit = some (f.apply args unit) := by
  unfold Function.strictApply
  split
  · next f x =>
    rw [f.strictApply_eq]
    rfl
  · next f x y =>
    rw [f.strictApply_eq]
    rfl
  · rfl

/-- **No operation on words overflows.** The permutations and combinations of all words are computed
without leaving the words, and without a division by zero. The only exception is an empty product
below the largest word: its least factor would come after that. And whatever the arguments of a call
are, the functions on integers are reached with safe operands only, and nothing goes wrong. -/
theorem strict_evaluation (n r : Int64) (f : Function) (args : List Float) (unit : AngleUnit) :
    (Combinatorics.strictPermutation n r = runs (Combinatorics.permutation n r) ↔
      (n, r) ≠ (Int64.maxValue, 0)) ∧
    Combinatorics.strictCombination n r = runs (Combinatorics.combination n r) ∧
    f.strictApply args unit = some (f.apply args unit) :=
  ⟨Combinatorics.strictPermutation_eq_iff n r, Combinatorics.strictCombination_eq n r,
    f.strictApply_eq args unit⟩

end Calculator
