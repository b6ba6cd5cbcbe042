import Calculator.Arithmetic

/-!
# Functions on whole numbers

The functions on integers work on 64-bit integers of at most `maxSafe` in absolute value: these and
the doubles without a fractional part in the same range correspond to each other.

* `Whole`: the conversions in both directions;
* `Combinatorics`: factorials, permutations and combinations. The results are doubles, computed
  factor by factor from the left; an intermediate result that is out of range is an overflow;
* `Divisor`: common divisors and multiples. Both work on absolute values, so that also the least
  integer has one, and give their result as a double if it is safe.
-/

namespace Calculator

namespace Whole

/-- The largest integer up to which every integer is a double and no other integer rounds to it,
`2 ^ 53 - 1`. -/
def maxSafe : Nat := 9007199254740991

/-- The absolute value, which fits also for the least integer. -/
def magnitude (n : Int64) : UInt64 := n.toInt.natAbs.toUInt64

/-- A number without a sign as one with a sign, if it fits. -/
def signed (n : UInt64) : Outcome Int64 :=
  if n.toNat ≤ Int64.maxValue.toInt.toNat then .ok n.toInt64 else .error .overflow

/-- **The integer part of a double**, toward zero. -/
def ofDouble (x : Float) : Outcome Int64 :=
  match Double.integerPart? x with
  | none => .error .domainError
  | some n => if n.natAbs ≤ maxSafe then .ok (.ofInt n) else .error .overflow

/-- **The double of an integer** that is safe, else the given error. -/
def toDouble {ε : Type} (n : Int64) (otherwise : ε) : Except ε Float :=
  if n.toInt.natAbs ≤ maxSafe then .ok (Double.ofInt n.toInt) else .error otherwise

end Whole

namespace Combinatorics

/-- The largest number whose factorial is in the range of doubles. -/
def maxFactorial : Int64 := 170

/-- The product `1 · 2 · … · n`, rounded after each factor. -/
def factorialOf : Nat → Float
  | 0 => 1.0
  | n + 1 => factorialOf n * Double.ofNat (n + 1)

def factorial (n : Int64) : Outcome Float :=
  if n < 0 then .error .domainError
  else if maxFactorial < n then .error .overflow
  else .ok (factorialOf n.toInt.toNat)

/-- `acc · top · (top - 1) · …`, with the given number of factors after `acc`. -/
def fallingProduct (acc : Float) (top : Int64) : Nat → Outcome Float
  | 0 => .ok acc
  | factors + 1 => do
    fallingProduct (← checked (acc * Double.ofInt top.toInt)) (top - 1) factors

/-- How many integers there are from `first` to `last`. -/
def rangeLength (first last : Int64) : Nat := (last.toInt + 1 - first.toInt).toNat

/-- The ways to arrange `r` of `n` things: the product of the integers from `n` down to
`n - r + 1`. -/
def permutation (n r : Int64) : Outcome Float :=
  if n < 0 || r < 0 || n < r then .error .domainError
  else fallingProduct 1.0 n (rangeLength (n - r + 1) n)

/-- `acc · (n - i) / (i + 1) · (n - i - 1) / (i + 2) · …`, with the given number of fractions. -/
def binomialProduct (n : Int64) (acc : Float) (i : Int64) : Nat → Outcome Float
  | 0 => .ok acc
  | fractions + 1 => do
    let next ← checked (acc * Double.ofInt (n - i).toInt / Double.ofInt (i + 1).toInt)
    binomialProduct n next (i + 1) fractions

/-- The ways to choose `r` of `n` things; choosing the ones left out is the same. -/
def combination (n r : Int64) : Outcome Float :=
  if n < 0 || r < 0 || n < r then .error .domainError
  else binomialProduct n 1.0 0 (min r (n - r)).toInt.toNat

end Combinatorics

namespace Divisor

/-- **The Euclidean algorithm.** -/
def euclid (a b : UInt64) : UInt64 := if b = 0 then a else euclid b (a % b)
termination_by b.toNat
decreasing_by
  rename_i h
  rw [UInt64.toNat_mod]
  exact Nat.mod_lt _ (Nat.pos_of_ne_zero fun h0 => h (UInt64.toNat_inj.1 h0))

/-- A safe number, as a double. -/
def toDouble (n : UInt64) : Outcome Float :=
  if Whole.maxSafe < n.toNat then .error .overflow
  else do Whole.toDouble (← Whole.signed n) .overflow

def gcd (a b : Int64) : Outcome Float := toDouble (euclid (Whole.magnitude a) (Whole.magnitude b))

/-- The product, if it fits in 64 bits. -/
def mulChecked (a b : UInt64) : Outcome UInt64 :=
  if a.toNat * b.toNat < UInt64.size then .ok (a * b) else .error .overflow

/-- The least common multiple, divided before it is multiplied; zero if one of the two is. -/
def lcm (a b : Int64) : Outcome Float :=
  if a = 0 || b = 0 then .ok 0.0
  else do
    let (m, n) := (Whole.magnitude a, Whole.magnitude b)
    toDouble (← mulChecked (m / euclid m n) n)

end Divisor

end Calculator
