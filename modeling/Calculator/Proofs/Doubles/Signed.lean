import Calculator.Proofs.Doubles.Error
import Calculator.Proofs.Doubles.Symmetry

/-!
# Rounding numbers of either sign

Before a number is rounded its sign is taken off, and afterwards it is put back. So the absolute
value says everything: from the end of the range on the result is an infinity, up to half of the
least double it is zero, and in between the relative error is small.

* `RoundsSigned x q`: `x` is rounded from the number `q`, of either sign, but not zero;
* `RoundsSigned.exists_rounds`: up to the sign, it is rounded from `|q|`;
* `RoundsSigned.isFinite_iff`, `RoundsSigned.isNaN`, `RoundsSigned.exists_within`: the range;
* `Rounds.underflow_cases`, `RoundsSigned.beq_zero_iff`: underflow;
* `HasValue.roundsSigned_mul`, `HasValue.roundsSigned_div`, `HasValue.roundsSigned_add`,
  `HasValue.roundsSigned_mulAdd`: what is rounded by an operation.
-/

namespace Calculator.Double

open Float.Model (UnpackedFloat Format totalExponent)
open Float.Model.UnpackedFloat
open Decimal (RoundsTo)

variable {x y z : Float} {s t : Sign} {m n r : Nat} {e f u : Int} {hm : 0 < m} {p q c : ℚ}

/-! ### The sign -/

/-- **`x` is rounded from the number `q`**, which is not zero. -/
def RoundsSigned (x : Float) (q : ℚ) : Prop :=
  ∃ (s : Sign) (p : ℚ), 0 < p ∧ q = (s.apply 1 : Int) * p ∧ RoundedFrom x s p

theorem carried_neg (s : Sign) (r : Nat) (t : Int) : carried (-s) r t = (carried s r t).neg := by
  unfold carried
  split
  · rfl
  · split
    · rfl
    · rfl

/-- **Up to its sign, a number is rounded like its absolute value.** -/
theorem RoundedFrom.exists_rounds (h : RoundedFrom x s q) : ∃ y, Rounds y q ∧ (x = y ∨ x = -y) := by
  obtain ⟨m, e, a, rfl, hplaced, he⟩ := h
  obtain ⟨u, em, hscale, hshifted, hround⟩ := exists_carried s hplaced he
  have hr := roundsTo_of_placed hshifted
  refine ⟨_, ⟨u, em.roundedMantissa, hscale, hr, rfl⟩, ?_⟩
  rw [hround]
  cases s with
  | positive => exact .inl rfl
  | negative =>
    right
    rw [← ofParts_neg, ← carried_neg]
    rfl

theorem RoundsSigned.exists_rounds (h : RoundsSigned x q) :
    0 < |q| ∧ ∃ y, Rounds y |q| ∧ (x = y ∨ x = -y) := by
  obtain ⟨s, p, hp, rfl, hround⟩ := h
  rw [abs_mul, abs_apply_one, one_mul, abs_of_pos hp]
  exact ⟨hp, hround.exists_rounds⟩

/-! ### The range -/

theorem RoundsSigned.isFinite_iff (h : RoundsSigned x q) :
    x.isFinite = true ↔ |q| < rangeEnd := by
  obtain ⟨-, y, hy, hx⟩ := h.exists_rounds
  have hxy : x.isFinite = y.isFinite := by
    rcases hx with rfl | rfl
    · rfl
    · exact isFinite_neg y
  rw [hxy]
  rcases hy.cases with ⟨hend, rfl⟩ | ⟨u, r, -, -, hrange⟩
  · exact iff_of_false (by decide) hend.not_gt
  · exact iff_of_true hrange.value.finite hrange.lt

theorem RoundsSigned.isNaN (h : RoundsSigned x q) : x.isNaN = false := by
  obtain ⟨s, p, -, -, m, e, a, rfl, -⟩ := h
  rw [isNaN_ofParts]
  exact isNaN_roundWithAccuracy s m e a

/-- **In the range, and away from zero, rounding is one factor.** -/
theorem RoundsSigned.exists_within (h : RoundsSigned x q) (hlow : 1 / 2 ≤ |q|)
    (hhigh : |q| < rangeEnd) : ∃ r, HasValue x r ∧ Within 1 |r| |q| := by
  obtain ⟨-, y, hy, hx⟩ := h.exists_rounds
  rcases hy.cases_within hlow with ⟨hend, -⟩ | ⟨-, r, hr, hwithin⟩
  · exact absurd hhigh hend.not_gt
  · have hpos : 0 ≤ r := by
      have hone := roundoff_lt_one
      exact hwithin.ge.trans' (mul_nonneg (abs_nonneg q) (pow_nonneg (by linarith) 1))
    rcases hx with rfl | rfl
    · exact ⟨r, hr, by rwa [abs_of_nonneg hpos]⟩
    · exact ⟨-r, hr.neg, by rwa [abs_neg, abs_of_nonneg hpos]⟩

/-! ### Underflow -/

/-- **Half of the least double.** -/
def underflowEnd : ℚ := 2 ^ (-1075 : Int)

theorem underflowEnd_eq : underflowEnd = 1 / 2 * 2 ^ (-1074 : Int) := by
  unfold underflowEnd
  rw [show (-1075 : Int) = -1 + -1074 by norm_num, zpow_add₀ two_ne_zero]
  norm_num

theorem Scale.rounded_eq_zero_iff (h : Scale q u) (hr : RoundsTo (q / 2 ^ u) r) :
    r = 0 ↔ q ≤ underflowEnd := by
  obtain ⟨hlow, hhigh⟩ := abs_le.1 hr.near
  have hunit : (0 : ℚ) < 2 ^ u := by positivity
  rw [underflowEnd_eq]
  constructor
  · rintro rfl
    obtain rfl : u = -1074 := by
      by_contra hne
      have := h.le_rounded hr hne
      omega
    rw [Nat.cast_zero] at hlow
    rw [← div_le_iff₀ hunit]
    linarith
  · intro hle
    obtain rfl : u = -1074 := by
      by_contra hne
      have hpow : (2 : ℚ) ^ (-1074 : Int) ≤ 2 ^ (u + 52) :=
        zpow_le_zpow_right₀ one_le_two (by have := h.min; omega)
      have := h.le hne
      have hleast : (0 : ℚ) < 2 ^ (-1074 : Int) := by positivity
      linarith
    rw [← div_le_iff₀ hunit] at hle
    -- The only other candidate is one, at a tie, and it is odd.
    have hr1 : r ≤ 1 := by
      have : (r : ℚ) ≤ 1 := by linarith
      exact_mod_cast this
    by_contra hne
    obtain rfl : r = 1 := by omega
    rw [Nat.cast_one] at hlow hhigh
    have hodd := hr.even (by rw [Nat.cast_one, abs_of_nonneg (by linarith)]; linarith)
    exact absurd hodd (by decide)

/-- **What rounding gives**: zero up to half of the least double, then positive doubles, and in the
end an infinity. -/
theorem Rounds.underflow_cases (h : Rounds x q) :
    (q ≤ underflowEnd ∧ HasValue x 0) ∨
    (underflowEnd < q ∧ ((∃ p, 2 ^ (-1074 : Int) ≤ p ∧ HasValue x p) ∨ x = infinity)) := by
  rcases h.cases with ⟨hend, rfl⟩ | ⟨u, r, hscale, hr, hrange⟩
  · refine .inr ⟨lt_of_lt_of_le ?_ hend, .inr rfl⟩
    refine lt_trans ?_ largest_lt_rangeEnd
    refine lt_of_lt_of_le ?_ two_pow_le_largest
    unfold underflowEnd
    rw [← zpow_natCast]
    exact zpow_lt_zpow_right₀ one_lt_two (by norm_num)
  · have hiff := hscale.rounded_eq_zero_iff hr
    have hvalue := hrange.value
    by_cases hzero : r = 0
    · rw [hzero, Nat.cast_zero, zero_mul] at hvalue
      exact .inl ⟨hiff.1 hzero, hvalue⟩
    · refine .inr ⟨not_le.1 (mt hiff.2 hzero), .inl ⟨_, ?_, hvalue⟩⟩
      have hone : (1 : ℚ) ≤ r := by exact_mod_cast Nat.one_le_iff_ne_zero.2 hzero
      calc (2 : ℚ) ^ (-1074 : Int) ≤ 2 ^ u := zpow_le_zpow_right₀ one_le_two hscale.min
        _ ≤ r * 2 ^ u := le_mul_of_one_le_left (by positivity) hone

theorem RoundsSigned.beq_zero_iff (h : RoundsSigned x q) :
    (x == 0.0) = true ↔ |q| ≤ underflowEnd := by
  obtain ⟨-, y, hy, hx⟩ := h.exists_rounds
  have hleast : (0 : ℚ) < 2 ^ (-1074 : Int) := by positivity
  rcases hy.underflow_cases with ⟨hle, hzero⟩ | ⟨hlt, ⟨p, hp, hvalue⟩ | rfl⟩
  · refine iff_of_true ?_ hle
    rcases hx with rfl | rfl
    · exact hzero.beq_zero_iff.2 rfl
    · exact hzero.neg.beq_zero_iff.2 neg_zero
  · refine iff_of_false ?_ hlt.not_ge
    rcases hx with rfl | rfl
    · rw [hvalue.beq_zero_iff]
      linarith
    · rw [hvalue.neg.beq_zero_iff]
      linarith
  · refine iff_of_false ?_ hlt.not_ge
    rcases hx with rfl | rfl
    · decide
    · decide

/-! ### Operations -/

theorem roundsSigned_nearest {k : Int} (hk : k ≠ 0) (f : Int) (z : Sign) :
    RoundsSigned (nearest k f z) (k * 2 ^ f) := by
  obtain ⟨s, n, hn, rfl⟩ := exists_apply hk
  refine ⟨s, n * 2 ^ f, by positivity, apply_mul_eq s n f, ?_⟩
  unfold nearest
  rw [normalize_apply hn]
  exact roundedFrom_round s hn f

theorem roundsSigned_self (hx : HasValue x p) (hp : p ≠ 0) : RoundsSigned x p := by
  rcases hx.cases with ⟨-, -, rfl⟩ | ⟨s, m, e, hm, hx', rfl⟩
  · exact absurd rfl hp
  · have hc := canonical_of_parts hx'
    have htarget : e ≤ Format.binary64.targetExponent (totalExponent m e) := by
      rw [targetExponent_eq, totalExponent]
      by_cases he : e = -1074
      · omega
      · have := (Nat.le_log2 hm.ne').2 (hc.full he)
        omega
    have hplaced : Placed m .exact (m * 2 ^ e / 2 ^ e) := mul_div_cancel_right₀ _ (by positivity)
    refine ⟨s, m * 2 ^ e, by positivity, rfl, m, e, .exact, ?_, hplaced, htarget⟩
    rw [roundWithAccuracy_of_canonical s hc hplaced htarget, ← hx', ofParts_parts]

theorem HasValue.roundsSigned_mul (hx : HasValue x p) (hy : HasValue y q) (h : p * q ≠ 0) :
    RoundsSigned (x * y) (p * q) := by
  rcases hx.cases with ⟨-, -, rfl⟩ | ⟨s, m, e, hm, hx', rfl⟩
  · exact absurd (zero_mul q) h
  · rcases hy.cases with ⟨-, -, rfl⟩ | ⟨t, n, f, hn, hy', rfl⟩
    · exact absurd (mul_zero _) h
    · refine ⟨s * t, m * 2 ^ e * (n * 2 ^ f), by positivity, ?_, roundedFrom_mul hx' hy'⟩
      rw [apply_one_mul, Int.cast_mul, mul_mul_mul_comm]

theorem HasValue.roundsSigned_div (hx : HasValue x p) (hy : HasValue y q) (hp : p ≠ 0)
    (hq : q ≠ 0) : RoundsSigned (x / y) (p / q) := by
  rcases hx.cases with ⟨-, -, rfl⟩ | ⟨s, m, e, hm, hx', rfl⟩
  · exact absurd rfl hp
  · rcases hy.cases with ⟨-, -, rfl⟩ | ⟨t, n, f, hn, hy', rfl⟩
    · exact absurd rfl hq
    · refine ⟨s / t, m * 2 ^ e / (n * 2 ^ f), by positivity, ?_, roundedFrom_div hx' hy'⟩
      rw [apply_one_div, mul_div_mul_comm]

theorem HasValue.roundsSigned_add (hx : HasValue x p) (hy : HasValue y q) (h : p + q ≠ 0) :
    RoundsSigned (x + y) (p + q) := by
  rcases hx.add_cases hy with ⟨rfl, rfl, -⟩ | ⟨rfl, hright⟩ | ⟨rfl, hleft⟩ | ⟨k, f, hk, hvalue⟩
  · exact absurd (zero_add 0) h
  · rw [zero_add] at h ⊢
    rw [hright]
    exact roundsSigned_self hy h
  · rw [add_zero] at h ⊢
    rw [hleft]
    exact roundsSigned_self hx h
  · rw [← hvalue] at h ⊢
    rw [hk]
    exact roundsSigned_nearest (by exact_mod_cast left_ne_zero_of_mul h) f .positive

theorem HasValue.roundsSigned_mulAdd (hx : HasValue x p) (hy : HasValue y q) (hz : HasValue z c)
    (h : p * q + c ≠ 0) : RoundsSigned (Double.mulAdd x y z) (p * q + c) := by
  rcases hx.mulAdd_cases hy hz with ⟨rfl, hmul⟩ | ⟨hzero, hadd⟩ | ⟨k, f, hk, hvalue⟩
  · rw [add_zero] at h ⊢
    rw [hmul]
    exact hx.roundsSigned_mul hy h
  · have hproduct := hx.mul hy (.inl hzero)
    rw [hadd]
    exact hproduct.roundsSigned_add hz h
  · rw [← hvalue] at h ⊢
    rw [hk]
    exact roundsSigned_nearest (by exact_mod_cast left_ne_zero_of_mul h) f .positive

/-! ### Sums -/

theorem HasValue.isFinite_add_iff (hx : HasValue x p) (hy : HasValue y q) :
    (x + y).isFinite = true ↔ |p + q| < rangeEnd := by
  by_cases h : p + q = 0
  · have hzero := hx.add hy (.inl h)
    rw [h, abs_zero]
    refine iff_of_true hzero.finite ?_
    unfold rangeEnd
    positivity
  · exact (hx.roundsSigned_add hy h).isFinite_iff

theorem HasValue.isNaN_add (hx : HasValue x p) (hy : HasValue y q) : (x + y).isNaN = false := by
  by_cases h : p + q = 0
  · exact isNaN_of_isFinite (hx.add hy (.inl h)).finite
  · exact (hx.roundsSigned_add hy h).isNaN

/-- **What is added to an infinity or to NaN is lost.** -/
theorem HasValue.add_of_not_isFinite (hx : HasValue x p) (hz : z.isFinite = false) : x + z = z := by
  have hsum : x + z = ofParts (UnpackedFloat.add .binary64 (parts x) (parts z)) := rfl
  rw [isFinite_eq] at hz
  conv_rhs => rw [← ofParts_parts z]
  rw [hsum]
  cases hz' : parts z with
  | zero | finite => rw [hz'] at hz; cases hz
  | notANumber | infinity =>
    rcases hx.cases with ⟨s, hx', -⟩ | ⟨s, m, e, hm, hx', -⟩
    · rw [hx']
      rfl
    · rw [hx']
      rfl

theorem HasValue.mulAdd_of_not_isFinite (hx : HasValue x p) (hy : HasValue y q)
    (hz : z.isFinite = false) : Double.mulAdd x y z = z := by
  have hsum (hzero : p * q = 0) : x * y + z = z :=
    (hx.mul hy (.inl hzero)).add_of_not_isFinite hz
  unfold Double.mulAdd
  rcases hx.cases with ⟨s, hx', rfl⟩ | ⟨s, m, e, hm, hx', -⟩
  · rw [hx']
    exact hsum (zero_mul q)
  · rcases hy.cases with ⟨t, hy', rfl⟩ | ⟨t, n, f, hn, hy', -⟩
    · rw [hx', hy']
      exact hsum (mul_zero p)
    · rw [hx', hy']
      rw [isFinite_eq] at hz
      cases hz' : parts z with
      | zero | finite => rw [hz'] at hz; cases hz
      | notANumber | infinity => rfl

end Calculator.Double
