import Calculator.Double

/-!
# The cube root of a double

`cubeRoot n` is the integer part of the cube root of `n`, one binary digit at a time, and
`cbrt x` is the double nearest to the cube root of `x`. So the root of a cube is exact.
-/

namespace Calculator.Double

def cube (n : Nat) : Nat := n * n * n

theorem cube_two_mul (n : Nat) : cube (2 * n) = 8 * cube n := by
  simp only [cube]
  grind

/-- The integer part of the cube root of a number of at most `3 * k` bits. Twice the root of
`n / 8` is the root of `n` up to its last bit. -/
def cubeRootBits : Nat → Nat → Nat
  | 0, _ => 0
  | k + 1, n =>
    let r := 2 * cubeRootBits k (n / 8)
    if cube (r + 1) ≤ n then r + 1 else r

/-- **The integer part of the cube root.** -/
def cubeRoot (n : Nat) : Nat := cubeRootBits (n.log2 / 3 + 1) n

/-! ### The root and its successor enclose the number -/

theorem cube_cubeRootBits_le (k n : Nat) : cube (cubeRootBits k n) ≤ n := by
  induction k generalizing n with
  | zero => simp [cubeRootBits, cube]
  | succ k ih =>
    simp only [cubeRootBits]
    split
    · assumption
    · have := ih (n / 8)
      rw [cube_two_mul]
      omega

theorem lt_cube_cubeRootBits {k n : Nat} (h : n < twoTo (3 * k)) :
    n < cube (cubeRootBits k n + 1) := by
  induction k generalizing n with
  | zero => simpa [cubeRootBits, cube, twoTo] using h
  | succ k ih =>
    have e : twoTo (3 * (k + 1 : Nat)) = 8 * twoTo (3 * k) := by
      have : (3 * ((k + 1 : Nat) : Int)).toNat = (3 * (k : Int)).toNat + 3 := by omega
      rw [twoTo, twoTo, this]
      simp only [Nat.pow_eq, Nat.pow_succ]
      omega
    rw [e] at h
    have := ih (n := n / 8) (by omega)
    simp only [cubeRootBits]
    split
    · rw [show 2 * cubeRootBits k (n / 8) + 1 + 1 = 2 * (cubeRootBits k (n / 8) + 1) by omega,
        cube_two_mul]
      omega
    · omega

theorem cube_cubeRoot_le (n : Nat) : cube (cubeRoot n) ≤ n := cube_cubeRootBits_le _ n

theorem lt_cube_cubeRoot (n : Nat) : n < cube (cubeRoot n + 1) := by
  refine lt_cube_cubeRootBits (Nat.lt_of_lt_of_le Nat.lt_log2_self ?_)
  exact Nat.pow_le_pow_right (by decide) (by omega)

/-! ### Rounding -/

/-- **The double nearest to the cube root.** The significand is scaled so that its root has at
least 55 bits. A root that is not a whole number gets one more bit, which stands for what is left:
the places where rounding changes lie at least two bits higher. -/
def cbrt (x : Float) : Float :=
  match parts x with
  | .finite s m e _ =>
    let unit := e / 3 - 54
    let n := m * twoTo (e - 3 * unit)
    let r := cubeRoot n
    let rest := if cube r = n then 0 else 1
    nearest (s.apply (2 * r + rest : Nat)) (unit - 1) s
  | _ => x

end Calculator.Double
