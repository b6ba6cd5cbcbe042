import Calculator.Proofs.Doubles.Signed

/-!
# The double that a number is rounded to

Every number is rounded to one double, apart from the sign of a zero. So two results are equal if
they are rounded from the same number, however they have been computed.

* `IsRounded x q`: `x` is the double that `q` is rounded to, and `IsRounded.same` the only one;
* `HasValue.isRounded_mul`, `HasValue.isRounded_mulAdd`: what is rounded by an operation;
* `IsSum x p y`: `x` is rounded from `p` plus the double `y`, which may be infinite;
* `HasValue.isSum_mulAdd`: a fused multiply-add is such a sum.
-/

namespace Calculator.Double

open Float.Model (UnpackedFloat)
open Float.Model.UnpackedFloat

variable {x y z : Float} {p q c : ℚ}

/-! ### One double for each number -/

theorem RoundsSigned.unique (h : RoundsSigned x q) (h' : RoundsSigned y q) : x = y := by
  obtain ⟨s, p, hp, rfl, hround⟩ := h
  obtain ⟨t, r, hr, hvalue, hround'⟩ := h'
  have habs : p = r := by
    have habs := congrArg (|·|) hvalue
    rwa [abs_mul, abs_mul, abs_apply_one, abs_apply_one, one_mul, one_mul, abs_of_pos hp,
      abs_of_pos hr] at habs
  subst habs
  have hsign : s = t := by
    have hsign := mul_right_cancel₀ hp.ne' hvalue
    cases s <;> cases t <;> first | rfl | norm_num [Sign.apply] at hsign
  subst hsign
  exact hround.unique hround'

/-- **`x` is the double that `q` is rounded to**, up to the sign of a zero. -/
def IsRounded (x : Float) (q : ℚ) : Prop :=
  ∃ y, Same x y ∧ (RoundsSigned y q ∨ q = 0 ∧ HasValue y 0)

theorem RoundsSigned.isRounded (h : RoundsSigned x q) : IsRounded x q := ⟨x, .refl x, .inl h⟩

theorem HasValue.isRounded_zero (h : HasValue x 0) : IsRounded x 0 := ⟨x, .refl x, .inr ⟨rfl, h⟩⟩

theorem RoundsSigned.ne_zero (h : RoundsSigned x q) : q ≠ 0 := abs_pos.1 h.exists_rounds.1

theorem IsRounded.of_same (h : IsRounded x q) (hxy : Same y x) : IsRounded y q := by
  obtain ⟨z, hz, hround⟩ := h
  exact ⟨z, hxy.trans hz, hround⟩

/-- **Two doubles that a number is rounded to** differ at most in the sign of a zero. -/
theorem IsRounded.same (h : IsRounded x q) (h' : IsRounded y q) : Same x y := by
  obtain ⟨v, hv, hround⟩ := h
  obtain ⟨w, hw, hround'⟩ := h'
  suffices hvw : Same v w from hv.trans (hvw.trans hw.symm)
  rcases hround with hround | ⟨rfl, hzero⟩
  · rcases hround' with hround' | ⟨rfl, -⟩
    · exact .inl (hround.unique hround')
    · exact absurd rfl hround.ne_zero
  · rcases hround' with hround' | ⟨-, hzero'⟩
    · exact absurd rfl hround'.ne_zero
    · exact .inr ⟨hzero, hzero'⟩

/-- **A number is rounded to zero** if it is at most half of the least double. -/
theorem IsRounded.hasValue_zero_iff (h : IsRounded x q) : HasValue x 0 ↔ |q| ≤ underflowEnd := by
  have hsame {x y : Float} (hxy : Same x y) (hx : HasValue x 0) : HasValue y 0 := by
    rcases hxy with rfl | ⟨-, hy⟩
    · exact hx
    · exact hy
  obtain ⟨y, hxy, hround⟩ := h
  rw [show HasValue x 0 ↔ HasValue y 0 from ⟨hsame hxy, hsame hxy.symm⟩]
  rcases hround with hround | ⟨rfl, hzero⟩
  · rw [← hround.beq_zero_iff]
    constructor
    · exact fun hy => hy.beq_zero_iff.2 rfl
    · intro hy
      obtain ⟨-, rfl | ⟨hy', -⟩⟩ := beq_iff_same.1 hy
      · exact hasValue_zero (s := .positive) rfl
      · exact hy'
  · refine iff_of_true hzero ?_
    rw [abs_zero]
    unfold underflowEnd
    positivity

theorem IsRounded.isNaN (h : IsRounded x q) : x.isNaN = false := by
  obtain ⟨y, rfl | ⟨hx, -⟩, hround⟩ := h
  · rcases hround with hround | ⟨-, hzero⟩
    · exact hround.isNaN
    · exact isNaN_of_isFinite hzero.finite
  · exact isNaN_of_isFinite hx.finite

/-! ### Operations -/

theorem HasValue.isRounded (hx : HasValue x q) : IsRounded x q := by
  by_cases hq : q = 0
  · subst hq
    exact hx.isRounded_zero
  · exact (roundsSigned_self hx hq).isRounded

theorem HasValue.same (hx : HasValue x q) (hy : HasValue y q) : Same x y :=
  hx.isRounded.same hy.isRounded

theorem HasValue.isRounded_mul (hx : HasValue x p) (hy : HasValue y q) :
    IsRounded (x * y) (p * q) := by
  by_cases h : p * q = 0
  · have hzero := hx.mul hy (.inl h)
    rw [h] at hzero ⊢
    exact hzero.isRounded_zero
  · exact (hx.roundsSigned_mul hy h).isRounded

theorem HasValue.isRounded_mulAdd (hx : HasValue x p) (hy : HasValue y q) (hz : HasValue z c) :
    IsRounded (Double.mulAdd x y z) (p * q + c) := by
  by_cases h : p * q + c = 0
  · have hzero := hx.mulAdd hy hz (.inl h)
    rw [h] at hzero ⊢
    exact hzero.isRounded_zero
  · exact (hx.roundsSigned_mulAdd hy hz h).isRounded

/-! ### Sums with a double -/

/-- **`x` is the sum of the number `p` and the double `y`**, rounded once. An infinite `y` stays as
it is. -/
def IsSum (x : Float) (p : ℚ) (y : Float) : Prop :=
  if y.isFinite = true then IsRounded x (p + exact y) else Same x y

theorem IsSum.of_same (h : IsSum x p z) (hxy : Same y x) : IsSum y p z := by
  unfold IsSum at h ⊢
  split_ifs at h ⊢
  · exact h.of_same hxy
  · exact hxy.trans h

theorem IsSum.same (h : IsSum x p z) (h' : IsSum y p z) : Same x y := by
  unfold IsSum at h h'
  split_ifs at h h'
  · exact h.same h'
  · exact h.trans h'.symm

theorem HasValue.isSum_mulAdd (hx : HasValue x p) (hy : HasValue y q) (z : Float) :
    IsSum (Double.mulAdd x y z) (p * q) z := by
  unfold IsSum
  split
  · next hz => exact hx.isRounded_mulAdd hy ⟨hz, rfl⟩
  · next hz =>
    rw [hx.mulAdd_of_not_isFinite hy (Bool.eq_false_iff.2 hz)]
    exact .refl z

theorem isSum_zero (x : Float) : IsSum x 0 x := by
  unfold IsSum
  split
  · next hx =>
    rw [zero_add]
    exact HasValue.isRounded ⟨hx, rfl⟩
  · exact .refl x

end Calculator.Double
