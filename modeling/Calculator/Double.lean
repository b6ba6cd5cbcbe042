/-!
# Doubles and their exact values

A `Float` is read through its exact value (`parts`): NaN, an infinity, a signed zero, or
`±m · 2 ^ e` with `m > 0`. The operations below compute on those integers and round once, at the
end (`nearest`), so each of them is the double nearest to the exact result. They scale with powers
of two (`twoTo`); a negative exponent gives `1`, so that `m · 2 ^ e` is the fraction
`m * twoTo e / twoTo (-e)` whatever the sign of `e` is.

* `ofInt n` is the double nearest to the integer `n`;
* `remainder a b` is exact: what is left of `a` after a whole number of `b`s, with the sign of `a`;
* `mulAdd a b c` is `a · b + c`, `hypot a b` is `√(a² + b²)`, both with a single rounding.
-/

namespace Calculator

/-- `2 ^ k`, or `1` if `k` is negative. -/
def twoTo (k : Int) : Nat := Nat.pow 2 k.toNat

theorem twoTo_pos (k : Int) : 0 < twoTo k := Nat.two_pow_pos _

theorem twoTo_of_nonpos {k : Int} (h : k ≤ 0) : twoTo k = 1 := by
  rw [twoTo, Int.toNat_of_nonpos h]

namespace Double

open Float.Model (UnpackedFloat Format)
open Float.Model.UnpackedFloat (Sign)

/-- **The exact value of a double.** -/
def parts (x : Float) : UnpackedFloat := x.toModel.unpack

/-- The double with the given value, which has to lie on the grid of doubles or beyond its end
(and is then an infinity). -/
def ofParts (v : UnpackedFloat) : Float := .ofModel (.pack v)

/-- The double nearest to `n · 2 ^ e`, a tie going to the even one; `zero` is the sign that a zero
result gets when `n` is `0`. -/
def nearest (n e : Int) (zero : Sign) : Float :=
  ofParts (UnpackedFloat.normalize .binary64 n e zero)

/-- The double nearest to an integer. -/
def ofInt (n : Int) : Float := nearest n 0 .positive

/-- The double nearest to a natural number. -/
def ofNat (n : Nat) : Float := ofInt n

/-- Has a negative sign; zeros have one, NaN has none. -/
def isNegative (x : Float) : Bool :=
  match parts x with
  | .finite .negative .. | .zero .negative | .infinity .negative => true
  | _ => false

/-! ### Special values -/

def nan : Float := ofParts .notANumber

def infinity : Float := ofParts (.infinity .positive)

/-! ### Exact operations -/

/-- What is left of `a` after taking away `b` as often as it fits, toward zero. It has the sign
of `a`, and is always a double, so it is not rounded. -/
def remainder (a b : Float) : Float :=
  match parts a, parts b with
  | .finite s m e _, .finite _ n f _ =>
    let least := min e f
    nearest (s.apply (m * twoTo (e - least) % (n * twoTo (f - least)) : Nat)) least s
  | .finite .., .infinity _ | .zero _, .infinity _ | .zero _, .finite .. => a
  | _, _ => nan

/-- **Fused multiply-add.** `a · b + c`, rounded once. Where an operand is no nonzero number the
product is exact, and the sum is the usual one. -/
def mulAdd (a b c : Float) : Float :=
  match parts a, parts b, parts c with
  | .finite s m e _, .finite t n f _, .finite u k g _ =>
    let least := min (e + f) g
    nearest ((s * t).apply (m * n * twoTo (e + f - least) : Nat)
      + u.apply (k * twoTo (g - least) : Nat)) least .positive
  | .finite .., .finite .., .zero _ => a * b
  | .finite .., .finite .., _ => c
  | _, _, _ => a * b + c

/-- The length `√(a² + b²)`, rounded once. An infinite side makes it infinite, whatever the other
side is. -/
def hypot (a b : Float) : Float :=
  match parts a, parts b with
  | .infinity _, _ | _, .infinity _ => infinity
  | .notANumber, _ | _, .notANumber => nan
  | .zero _, _ => b.abs
  | _, .zero _ => a.abs
  | .finite _ m e hm, .finite _ n f _ =>
    let least := min e f
    let a := m * twoTo (e - least)
    let b := n * twoTo (f - least)
    have ha : 0 < a := Nat.mul_pos hm (twoTo_pos _)
    ofParts (UnpackedFloat.sqrt .binary64 (.finite .positive (a * a + b * b) (2 * least)
      (Nat.add_pos_left (Nat.mul_pos ha ha) _)))

end Double

end Calculator
