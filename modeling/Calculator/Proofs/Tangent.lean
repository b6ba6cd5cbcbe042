import Calculator.Proofs.Doubles.Order
import Calculator.Proofs.Doubles.Signed
import Calculator.Trigonometry
import Mathlib.Analysis.Real.Pi.Bounds

/-!
# Poles of the tangent

Whether an angle is at a pole is seen from what it leaves after multiples of `pi` are taken away,
which is exact. But `pi` itself is a double, an odd number of units of `2 ^ -48`, and `halfPi` an
odd number of half units. From 16 on every double is a whole number of units, and so is what it
leaves: it differs from `halfPi` by at least half a unit, which is more than the tolerance.

* `tan_eq_domainError_iff`: the test of the tangent, `NearPole`;
* `not_nearPole_of_units`, `not_nearPole_of_large`: no large angle passes it;
* `tan_poles`: of the poles in degrees the first four on each side are rejected, and no other one;
* `tan_pole_accepted`: an angle that is accepted much closer to a pole than the tolerance.
-/

namespace Calculator.Trigonometry

open Double
open Float.Model.UnpackedFloat (Sign)

variable {x y : Float} {q : ℚ} {k n : Int}

/-! ### The test -/

/-- **What the tangent takes for a pole**, in radians. -/
def NearPole (x : Float) : Prop :=
  (remainder x pi - halfPi).abs < poleTolerance ∨ (remainder x pi + halfPi).abs < poleTolerance

instance (x : Float) : Decidable (NearPole x) := inferInstanceAs (Decidable (_ ∨ _))

theorem checked_ne_domainError (x : Float) : checked x ≠ .error .domainError := by
  unfold checked
  split
  · nofun
  · nofun

theorem tan_eq_domainError_iff (x : Float) (unit : AngleUnit) :
    tan x unit = .error .domainError ↔ NearPole (unit.toRadians x) := by
  by_cases h : NearPole (unit.toRadians x)
  · exact iff_of_true (if_pos (by simpa [NearPole] using h)) h
  · refine iff_of_false ?_ h
    have htan : tan x unit = checked (unit.toRadians x).tan := if_neg (by simpa [NearPole] using h)
    rw [htan]
    exact checked_ne_domainError _

/-! ### Units -/

/-- `pi` in units of `2 ^ -48`, and `halfPi` in half units. -/
def piUnits : Int := 884279719003555

theorem hasValue_pi : HasValue pi (piUnits * 2 ^ (-48 : Int)) := by
  have hparts : parts pi = .finite .positive 7074237752028440 (-51) (by decide) := by rfl
  have hunits : ((7074237752028440 : Nat) : ℚ) * 2 ^ (-51 : Int) = piUnits * 2 ^ (-48 : Int) := by
    unfold piUnits
    norm_num
  rw [← hunits]
  exact hasValue_positive hparts

theorem hasValue_halfPi : HasValue halfPi (piUnits * 2 ^ (-49 : Int)) := by
  have hparts : parts halfPi = .finite .positive 7074237752028440 (-52) (by decide) := by rfl
  have hunits : ((7074237752028440 : Nat) : ℚ) * 2 ^ (-52 : Int) = piUnits * 2 ^ (-49 : Int) := by
    unfold piUnits
    norm_num
  rw [← hunits]
  exact hasValue_positive hparts

theorem not_lt_poleTolerance (hx : HasValue x (k * 2 ^ (-49 : Int))) (hk : Odd k) :
    ¬ x.abs < poleTolerance := by
  have hunit : (0 : ℚ) < 2 ^ (-49 : Int) := by positivity
  have hone : (1 : ℚ) ≤ |(k : ℚ)| := by
    rw [← Int.cast_abs]
    exact_mod_cast Int.one_le_abs (by rintro rfl; exact absurd hk (by decide))
  have hlarge : (2 : ℚ) ^ (-49 : Int) ≤ |(k : ℚ) * 2 ^ (-49 : Int)| := by
    rw [abs_mul, abs_of_pos hunit]
    exact le_mul_of_one_le_left hunit.le hone
  have htolerance : parts poleTolerance =
      .finite .positive 5070602400912918 (-102) (by decide) := by rfl
  obtain ⟨m, e, hm, habs, hvalue⟩ := hx.abs.exists_parts (hunit.trans_le hlarge)
  rw [lt_iff habs htolerance, ← hvalue, not_lt]
  refine le_trans ?_ hlarge
  norm_num

/-- **Whole units and an odd number of half units** do not cancel out. -/
theorem not_lt_of_turned (hx : HasValue x (k * 2 ^ (-48 : Int)))
    (hy : HasValue y (n * 2 ^ (-49 : Int))) (hk : k.natAbs < 2 ^ 50) (hn : n.natAbs < 2 ^ 50)
    (hodd : Odd n) : ¬ (x + y).abs < poleTolerance := by
  have hsum : (k : ℚ) * 2 ^ (-48 : Int) + n * 2 ^ (-49 : Int) =
      (2 * k + n : Int) * 2 ^ (-49 : Int) := by
    push_cast
    norm_num
    ring
  have hvalue := hx.add hy
    (by rw [hsum]; exact representable_scaled (by omega) (by decide) (by decide))
  rw [hsum] at hvalue
  exact not_lt_poleTolerance hvalue ((even_two_mul k).add_odd hodd)

/-- **A whole number of units is no pole**: what it leaves are whole units too. -/
theorem not_nearPole_of_units (hx : HasValue x (k * 2 ^ (-48 : Int))) : ¬ NearPole x := by
  have hpi : piUnits ≠ 0 := by decide
  have hsmall : (k.tmod piUnits).natAbs < 2 ^ 50 := by
    rw [Int.natAbs_tmod]
    exact (Nat.mod_lt _ (by decide)).trans (by decide)
  have hturned := hx.remainder_scaled hasValue_pi hpi
    (representable_scaled (by omega) (by decide) (by decide))
  have hneg := hasValue_halfPi.neg
  rw [← neg_mul, ← Int.cast_neg] at hneg
  rintro (hlow | hhigh)
  · rw [sub_eq_add] at hlow
    exact not_lt_of_turned hturned hneg hsmall (by decide) (by decide) hlow
  · exact not_lt_of_turned hturned hasValue_halfPi hsmall (by decide) (by decide) hhigh

/-- **No angle from 16 on is taken for a pole.** -/
theorem not_nearPole_of_large (hx : HasValue x q) (hq : 16 ≤ |q|) : ¬ NearPole x := by
  obtain ⟨k, rfl⟩ := hx.exists_scaled (u := -48) (by norm_num at hq ⊢; exact hq)
  exact not_nearPole_of_units hx

/-! ### Degrees -/

/-- One rounding loses less than a hundredth, and does not double a number. -/
theorem bounds_of_within {p : ℚ} (h : Within 1 p q) (hq : 0 ≤ q) :
    q * (99 / 100) ≤ p ∧ p ≤ q * 2 := by
  have hunit : roundoff ≤ 1 / 100 := by
    unfold roundoff
    norm_num
  constructor
  · calc q * (99 / 100) ≤ q * (1 - roundoff) ^ 1 := by
          rw [pow_one]
          gcongr
          linarith
      _ ≤ p := h.ge
  · calc p ≤ q * (1 + roundoff) ^ 1 := h.le
      _ ≤ q * 2 := by
          rw [pow_one]
          gcongr
          linarith

theorem exists_toRadians (hlow : 990 ≤ n.natAbs) (hhigh : n.natAbs ≤ 2 ^ 53) :
    ∃ q, HasValue (AngleUnit.degrees.toRadians (ofInt n)) q ∧ 16 ≤ |q| := by
  have hend : (2 : ℚ) ^ 64 < rangeEnd := two_pow_le_largest.trans_lt largest_lt_rangeEnd
  obtain ⟨c, hc⟩ : ∃ c : ℚ, piUnits * 2 ^ (-48 : Int) = c := ⟨_, rfl⟩
  have hthree : 314 / 100 ≤ c ∧ c ≤ 4 := by
    rw [← hc]
    unfold piUnits
    norm_num
  have hpi := hasValue_pi
  rw [hc] at hpi
  have hlow' : (990 : ℚ) ≤ |(n : ℚ)| := by
    rw [← Int.cast_abs, ← Nat.cast_natAbs]
    exact_mod_cast hlow
  have hhigh' : |(n : ℚ)| ≤ 2 ^ 53 := by
    rw [← Int.cast_abs, ← Nat.cast_natAbs]
    exact_mod_cast hhigh
  have hproduct : |(n : ℚ) * c| = |(n : ℚ)| * c := by
    rw [abs_mul, abs_of_pos (by linarith : 0 < c)]
  have hproduct_ge : 990 * (314 / 100) ≤ |(n : ℚ) * c| := by
    rw [hproduct]
    exact mul_le_mul hlow' hthree.1 (by norm_num) (abs_nonneg _)
  have hproduct_le : |(n : ℚ) * c| ≤ 2 ^ 53 * 4 := by
    rw [hproduct]
    exact mul_le_mul hhigh' hthree.2 (by linarith) (by norm_num)
  have hne : (n : ℚ) * c ≠ 0 := abs_pos.1 (by linarith)
  obtain ⟨p, hp, hp_within⟩ := ((hasValue_ofInt hhigh).roundsSigned_mul hpi hne).exists_within
    (by linarith) (by linarith)
  obtain ⟨hp_ge, hp_le⟩ := bounds_of_within hp_within (abs_nonneg _)
  have h180 : HasValue 180.0 180 := hasValue_ofInt (n := 180) (by decide)
  have hquotient : |p / 180| = |p| / 180 := by
    rw [abs_div]
    norm_num
  obtain ⟨q, hq, hq_within⟩ :=
    (hp.roundsSigned_div h180 (abs_pos.1 (by linarith)) (by norm_num)).exists_within
      (by linarith) (by linarith)
  obtain ⟨hq_ge, -⟩ := bounds_of_within hq_within (abs_nonneg _)
  exact ⟨q, hq, by linarith⟩

theorem nearPole_of_first (hlow : -4 ≤ k) (hhigh : k ≤ 3) :
    NearPole (AngleUnit.degrees.toRadians (ofInt (90 + 180 * k))) := by
  interval_cases k <;> decide +kernel

/-- The fifth ones are not, although they are not large yet. -/
theorem not_nearPole_of_fifth (h : k = -5 ∨ k = 4) :
    ¬ NearPole (AngleUnit.degrees.toRadians (ofInt (90 + 180 * k))) := by
  rcases h with rfl | rfl
  · decide +kernel
  · decide +kernel

/-- **The poles in degrees**: the first four on each side are rejected, and no other one. -/
theorem tan_poles (k : Int) (hk : |90 + 180 * k| ≤ 2 ^ 53) :
    tan (ofInt (90 + 180 * k)) .degrees = .error .domainError ↔ |90 + 180 * k| ≤ 630 := by
  rw [tan_eq_domainError_iff]
  by_cases hfirst : -4 ≤ k ∧ k ≤ 3
  · exact iff_of_true (nearPole_of_first hfirst.1 hfirst.2) (abs_le.2 (by omega))
  · refine iff_of_false ?_ fun hle => hfirst (by have := abs_le.1 hle; omega)
    by_cases hfifth : k = -5 ∨ k = 4
    · exact not_nearPole_of_fifth hfifth
    · rw [Int.abs_eq_natAbs] at hk
      obtain ⟨q, hq, hlarge⟩ := exists_toRadians (n := 90 + 180 * k) (by omega) (by omega)
      exact not_nearPole_of_large hq hlarge

/-- The last pole that is rejected, and a later one. -/
theorem tan_poles_2610 :
    (|90 + 180 * 3| ≤ (2 : Int) ^ 53 ∧ tan (ofInt (90 + 180 * 3)) .degrees = .error .domainError) ∧
    |90 + 180 * 14| ≤ (2 : Int) ^ 53 ∧ tan (ofInt (90 + 180 * 14)) .degrees ≠ .error .domainError :=
  ⟨⟨by decide, (tan_poles 3 (by decide)).2 (by decide)⟩, by decide,
    fun h => absurd ((tan_poles 14 (by decide)).1 h) (by decide)⟩

/-- **A pole is accepted**: 2610 degrees are converted to within the tolerance of an odd multiple of
π / 2, and have a tangent. -/
theorem tan_pole_accepted :
    |90 + 180 * 14| ≤ (2 : Int) ^ 53 ∧
    (∃ q, HasValue (AngleUnit.degrees.toRadians (ofInt (90 + 180 * 14))) q ∧
      |(q : ℝ) - 29 * (Real.pi / 2)| < 1 / 10 ^ 15) ∧
    tan (ofInt (90 + 180 * 14)) .degrees ≠ .error .domainError := by
  have hc : Canonical 6411027962775774 (-47) :=
    ⟨by decide, by decide, by decide, by decide, fun _ => by decide⟩
  have hangle : AngleUnit.degrees.toRadians (ofInt (90 + 180 * 14)) =
      ofParts (.finite .positive 6411027962775774 (-47) (by decide)) := by decide +kernel
  have hvalue := hasValue_positive (parts_ofParts_finite hc .positive)
  rw [← hangle] at hvalue
  refine ⟨by decide, ⟨_, hvalue, ?_⟩, ?_⟩
  · have hlow := Real.pi_gt_d20
    have hhigh := Real.pi_lt_d20
    push_cast
    rw [abs_lt]
    constructor
    · norm_num
      linarith
    · norm_num
      linarith
  · rw [Ne, tan_eq_domainError_iff]
    refine not_nearPole_of_large hvalue ?_
    norm_num

end Calculator.Trigonometry
