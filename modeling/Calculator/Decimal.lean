import Calculator.Double

/-!
# Decimal numbers

A decimal is `coefficient · 10 ^ exponent`, without a sign. Reading goes from decimals to doubles
(`toFloat`), writing from fractions to decimals with a given number of significant digits
(`ofRatio`); both round to nearest, a half going to the even neighbour.
-/

namespace Calculator

/-- `10 ^ k`, or `1` if `k` is negative. -/
def tenTo (k : Int) : Nat := Nat.pow 10 k.toNat

theorem tenTo_pos (k : Int) : 0 < tenTo k := Nat.pow_pos (by decide)

/-- The number `coefficient · 10 ^ exponent`. -/
structure Decimal where
  coefficient : Nat
  exponent : Int
deriving DecidableEq, Repr

namespace Decimal

/-- **The double nearest to a decimal**, a tie going to the even one; an infinity from half a unit
above the largest double on. -/
def toFloat (d : Decimal) : Float := .ofModel (.ofScientific d.coefficient d.exponent)

/-- The integer nearest to `num / den`, a half going to the even one. -/
def roundRatio (num den : Nat) : Nat :=
  let q := num / den
  let r := num % den
  if 2 * r < den ∨ (2 * r = den ∧ q % 2 = 0) then q else q + 1

/-! The rounded number is at most half a unit away, and a tie is even. -/

theorem roundRatio_le {num den : Nat} : 2 * (roundRatio num den * den) ≤ 2 * num + den := by
  have h := Nat.div_add_mod num den
  have hc := Nat.mul_comm (num / den) den
  simp only [roundRatio]
  split
  · omega
  · rw [Nat.add_mul]
    omega

theorem le_roundRatio {num den : Nat} (hd : 0 < den) :
    2 * num ≤ 2 * (roundRatio num den * den) + den := by
  have h := Nat.div_add_mod num den
  have hc := Nat.mul_comm (num / den) den
  have := Nat.mod_lt num hd
  simp only [roundRatio]
  split
  · omega
  · rw [Nat.add_mul]
    omega

theorem roundRatio_even {num den : Nat} (h : 2 * (num % den) = den) :
    roundRatio num den % 2 = 0 := by
  simp only [roundRatio]
  split <;> omega

/-- The decimal digits of a number; zero has one. -/
def digits (n : Nat) : List Char := Nat.toDigits 10 n

/-- The power of ten of the leading digit of `num / den`, which is positive: the `k` with
`10 ^ k ≤ num / den < 10 ^ (k + 1)`. Below one, it is minus the number of digits of the largest
integer that is less than `den / num`. -/
def leadingExponent (num den : Nat) : Int :=
  if den ≤ num then (digits (num / den)).length - 1 else -(digits ((den - 1) / num)).length

/-- `num / den` times `10 ^ (-unit)`, as a pair. -/
def scaled (num den : Nat) (unit : Int) : Nat × Nat :=
  (num * tenTo (-unit), den * tenTo unit)

/-- **The decimal with `places + 1` significant digits nearest to `num / den`**, which is positive,
a half going to the even one. A carry into a new power of ten drops the last zero. -/
def ofRatio (num den places : Nat) : Decimal :=
  let unit := leadingExponent num den - places
  let (n, d) := scaled num den unit
  let c := roundRatio n d
  if c = tenTo (places + 1) then ⟨tenTo places, unit + 1⟩ else ⟨c, unit⟩

end Decimal

end Calculator
