import Calculator.Complex
import Calculator.Proofs.Doubles.Signed

/-!
# Divisors that count as zero

A quotient of complex numbers is infinite in both parts if the squared modulus of the divisor is
zero. But squares underflow: a part whose square is at most half of the least double, which is about
`1.57e-162`, is lost. The modulus itself is not computed from squares that are rounded, and is zero
for zero only.

* `Complex.squaredModulus_beq_zero_iff`: when the squared modulus is zero;
* `hypot_beq_zero_iff`: when the modulus is;
* `Complex.div_infinite_iff`: the divisors for which every quotient is infinite;
* `Complex.div_underflow`: one of them that is not zero.
-/

namespace Calculator.Double

open Float.Model (UnpackedFloat Format totalExponent)
open Float.Model.UnpackedFloat

variable {x y : Float} {s t : Sign} {m n : Nat} {e f : Int} {hm : 0 < m} {hn : 0 < n} {p q : ℚ}
  {a : Accuracy}

/-! ### Squares -/

theorem HasValue.rounds_square (hx : HasValue x q) (hq : q ≠ 0) : Rounds (x * x) (q ^ 2) := by
  rcases hx.cases with ⟨-, -, rfl⟩ | ⟨s, m, e, hm, hx', rfl⟩
  · exact absurd rfl hq
  · have hsquare := roundedFrom_mul hx' hx'
    have hsign : s * s = .positive := by cases s <;> rfl
    have hvalue : ((s.apply 1 : Int) * (m * 2 ^ e) : ℚ) ^ 2 = m * 2 ^ e * (m * 2 ^ e) := by
      rw [mul_pow, ← sq_abs, abs_apply_one, one_pow, one_mul, sq]
    rw [hsign] at hsquare
    rw [hvalue]
    exact hsquare.rounds

/-- **A square** is zero if the number is small, and else a positive double or infinite. -/
theorem HasValue.square_cases (hx : HasValue x q) :
    (q ^ 2 ≤ underflowEnd ∧ HasValue (x * x) 0) ∨
    (underflowEnd < q ^ 2 ∧
      ((∃ p, 2 ^ (-1074 : Int) ≤ p ∧ HasValue (x * x) p) ∨ x * x = infinity)) := by
  by_cases hq : q = 0
  · subst hq
    have hzero := hx.mul hx (.inl (zero_mul 0))
    rw [zero_mul] at hzero
    refine .inl ⟨?_, hzero⟩
    unfold underflowEnd
    positivity
  · exact (hx.rounds_square hq).underflow_cases

theorem underflowEnd_lt : underflowEnd < 2 ^ (-1074 : Int) := by
  have hleast : (0 : ℚ) < 2 ^ (-1074 : Int) := by positivity
  rw [underflowEnd_eq]
  linarith

theorem HasValue.zero_div_ne_infinity (hx : HasValue x 0) (y : Float) : x / y ≠ infinity := by
  obtain ⟨s, hs⟩ := hx.exists_zero
  have hquotient : x / y = ofParts (UnpackedFloat.div .binary64 (.zero s) (parts y)) := by
    rw [← hs]
    rfl
  have hzero (t : Sign) : ofParts (.zero t) ≠ infinity := by cases t <;> decide
  rw [hquotient]
  cases parts y with
  | notANumber => exact (by decide : nan ≠ infinity)
  | zero t => exact (by decide : nan ≠ infinity)
  | infinity t => exact hzero (s * t)
  | finite t n f hn => exact hzero (s / t)

/-! ### The modulus -/

theorem exists_placed (m : Nat) (a : Accuracy) : ∃ q, Placed m a q := by
  unfold Placed
  split
  · exact ⟨m, rfl⟩
  · exact ⟨m + 1 / 4, by linarith, by linarith⟩
  · exact ⟨m + 1 / 2, rfl⟩
  · exact ⟨m + 3 / 4, by linarith, by linarith⟩

/-- **A root is rounded from a number that is not small**: at least as many units as the integer
part of the root of the mantissa, which is taken with more bits than a double has. -/
theorem exists_rounds_sqrt (hn : 0 < n) (he : -1074 ≤ e) :
    ∃ q, 2 ^ (-1074 : Int) ≤ q ∧
      Rounds (ofParts (UnpackedFloat.sqrt .binary64 (.finite .positive n (2 * e) hn))) q := by
  obtain ⟨t, ht⟩ : ∃ t, min ((2 * e).ediv 2) (Format.binary64.targetExponent
    ((totalExponent n (2 * e) + 1).ediv 2)) = t := ⟨_, rfl⟩
  obtain ⟨k, hk⟩ : ∃ k : Nat, (2 * e - 2 * t).toNat = k := ⟨_, rfl⟩
  obtain ⟨a, hcore⟩ : ∃ a, sqrtCore .binary64 n (2 * e) = (Nat.sqrt (n <<< k), t, a) := by
    unfold sqrtCore
    simp only [ht, hk]
    exact ⟨_, rfl⟩
  obtain ⟨q, hq⟩ := exists_placed (Nat.sqrt (n <<< k)) a
  rw [targetExponent_eq, totalExponent] at ht
  change min (2 * e / 2) (max ((n.log2 + 1 + 2 * e + 1) / 2 - 53) (-1074)) = t at ht
  have hleast : -1074 ≤ t := by omega
  -- Half of the bits of the mantissa are bits of the root.
  have hbits : 2 ^ ((n.log2 + k) / 2) ≤ Nat.sqrt (n <<< k) := by
    rw [Nat.le_sqrt, ← pow_add, ← Nat.le_log2 (by simp [Nat.shiftLeft_eq, hn.ne']),
      log2_shiftLeft hn]
    omega
  have hroot : 0 < Nat.sqrt (n <<< k) := (Nat.two_pow_pos _).trans_le hbits
  have htarget : t ≤ Format.binary64.targetExponent (totalExponent (Nat.sqrt (n <<< k)) t) := by
    have hlog := (Nat.le_log2 hroot.ne').2 hbits
    rw [targetExponent_eq, totalExponent]
    omega
  have hfrom : RoundedFrom (ofParts (UnpackedFloat.sqrt .binary64 (.finite .positive n (2 * e) hn)))
      .positive (q * 2 ^ t) := by
    refine ⟨Nat.sqrt (n <<< k), t, a, ?_, ?_, htarget⟩
    · unfold UnpackedFloat.sqrt
      simp only [hcore]
    · rwa [mul_div_cancel_right₀ _ (by positivity)]
  have hone : (1 : ℚ) ≤ q := by
    obtain ⟨hplaced, -⟩ := Placed.bounds hq
    have : (1 : ℚ) ≤ Nat.sqrt (n <<< k) := by exact_mod_cast hroot
    linarith
  refine ⟨q * 2 ^ t, ?_, hfrom.rounds⟩
  calc (2 : ℚ) ^ (-1074 : Int) ≤ 2 ^ t := zpow_le_zpow_right₀ one_le_two hleast
    _ ≤ q * 2 ^ t := le_mul_of_one_le_left (by positivity) hone

theorem exists_hypot (hx : parts x = .finite s m e hm) (hy : parts y = .finite t n f hn) :
    ∃ k g hk, -1074 ≤ g ∧
      hypot x y = ofParts (UnpackedFloat.sqrt .binary64 (.finite .positive k (2 * g) hk)) := by
  have he := (canonical_of_parts hx).min
  have hf := (canonical_of_parts hy).min
  have hleft := Nat.mul_pos hm (twoTo_pos (e - min e f))
  refine ⟨m * twoTo (e - min e f) * (m * twoTo (e - min e f)) +
    n * twoTo (f - min e f) * (n * twoTo (f - min e f)), min e f,
    Nat.add_pos_left (Nat.mul_pos hleft hleft) _, by omega, ?_⟩
  unfold hypot
  rw [hx, hy]

/-- **The modulus is zero for zero only**: it does not underflow. -/
theorem hypot_beq_zero_iff (hx : HasValue x p) (hy : HasValue y q) :
    (hypot x y == 0.0) = true ↔ p = 0 ∧ q = 0 := by
  have hx_abs := hx.abs.beq_zero_iff
  have hy_abs := hy.abs.beq_zero_iff
  rw [abs_eq_zero] at hx_abs hy_abs
  rcases hx.cases with ⟨s, hx', rfl⟩ | ⟨s, m, e, hm, hx', hp⟩
  · have hside : hypot x y = y.abs := by
      unfold hypot
      rw [hx']
      rcases hy.cases with ⟨t, hy', -⟩ | ⟨t, n, f, hn, hy', -⟩ <;> rw [hy']
    rw [hside, hy_abs, and_iff_right rfl]
  · have hp' := ne_zero_of_parts hp hm
    refine iff_of_false ?_ fun h => hp' h.1
    rcases hy.cases with ⟨t, hy', -⟩ | ⟨t, n, f, hn, hy', -⟩
    · have hside : hypot x y = x.abs := by
        unfold hypot
        rw [hx', hy']
      rwa [hside, hx_abs]
    · obtain ⟨k, g, hk, hg, hroot⟩ := exists_hypot hx' hy'
      obtain ⟨r, hr, hrounds⟩ := exists_rounds_sqrt hk hg
      have hlarge := underflowEnd_lt.trans_le hr
      rw [hroot]
      rcases hrounds.underflow_cases with ⟨hle, -⟩ | ⟨-, ⟨c, hc, hvalue⟩ | hinfinity⟩
      · exact absurd hle hlarge.not_ge
      · have hleast : (0 : ℚ) < 2 ^ (-1074 : Int) := by positivity
        rw [hvalue.beq_zero_iff]
        exact (hleast.trans_le hc).ne'
      · rw [hinfinity]
        decide

end Calculator.Double

namespace Calculator.Complex

open Double

variable {b : Complex}

/-- Both parts are finite. -/
structure IsFinite (b : Complex) : Prop where
  re : b.re.isFinite = true
  im : b.im.isFinite = true

theorem IsFinite.hasValue_re (hb : b.IsFinite) : HasValue b.re (exact b.re) := ⟨hb.re, rfl⟩

theorem IsFinite.hasValue_im (hb : b.IsFinite) : HasValue b.im (exact b.im) := ⟨hb.im, rfl⟩

/-- **The squared modulus is zero** exactly if both squares underflow. -/
theorem IsFinite.squaredModulus_beq_zero_iff (hb : b.IsFinite) :
    (b.squaredModulus == 0.0) = true ↔
      exact b.re ^ 2 ≤ underflowEnd ∧ exact b.im ^ 2 ≤ underflowEnd := by
  have hre := hb.hasValue_re
  have hsquare : 0 ≤ exact b.re ^ 2 := sq_nonneg _
  unfold squaredModulus
  rcases hb.hasValue_im.square_cases with ⟨hle, hzero⟩ | ⟨hlt, ⟨c, hc, hvalue⟩ | hinfinity⟩
  · rw [and_iff_left hle]
    by_cases hp : exact b.re * exact b.re + 0 = 0
    · have hsum := hre.mulAdd hre hzero (.inl hp)
      rw [hp] at hsum
      rw [add_zero, ← sq] at hp
      rw [hp]
      refine iff_of_true (hsum.beq_zero_iff.2 rfl) ?_
      unfold underflowEnd
      positivity
    · have hsum := hre.roundsSigned_mulAdd hre hzero hp
      rw [hsum.beq_zero_iff, add_zero, ← sq, abs_of_nonneg hsquare]
  · refine iff_of_false ?_ fun h => h.2.not_gt hlt
    have hlarge : underflowEnd < exact b.re * exact b.re + c := by
      have := underflowEnd_lt
      rw [← sq]
      linarith
    have hpos : 0 < exact b.re * exact b.re + c := by
      refine lt_of_le_of_lt ?_ hlarge
      unfold underflowEnd
      positivity
    rw [(hre.roundsSigned_mulAdd hre hvalue hpos.ne').beq_zero_iff, abs_of_pos hpos]
    exact hlarge.not_ge
  · refine iff_of_false ?_ fun h => h.2.not_gt hlt
    rw [hinfinity, hre.mulAdd_of_not_isFinite hre (by decide)]
    decide

theorem div_eq_of_zero (h : (b.squaredModulus == 0.0) = true) (a : Complex) :
    a / b = ⟨infinity, infinity⟩ := if_pos h

theorem IsFinite.zero_div_ne (hb : b.IsFinite) (h : ¬(b.squaredModulus == 0.0) = true) :
    zero / b ≠ ⟨infinity, infinity⟩ := by
  have hquotient : zero / b =
      { re := mulAdd 0.0 b.re (0.0 * b.im) / b.squaredModulus
        im := mulAdd 0.0 b.re (-(0.0 * b.im)) / b.squaredModulus } := if_neg h
  have hzero : HasValue 0.0 0 := hasValue_zero (s := .positive) rfl
  have hproduct := hzero.mul hb.hasValue_im (.inl (zero_mul _))
  rw [zero_mul] at hproduct
  have hsum := hzero.mulAdd hb.hasValue_re hproduct (.inl (by rw [zero_mul, add_zero]))
  rw [zero_mul, add_zero] at hsum
  rw [hquotient]
  intro hinfinite
  exact hsum.zero_div_ne_infinity _ (congrArg Complex.re hinfinite)

/-- **The divisors that count as zero**: every quotient by them is infinite in both parts. They are
the numbers both of whose squares underflow, while the modulus is zero for zero only. -/
theorem div_infinite_iff (hb : b.IsFinite) :
    ((∀ a : Complex, a.IsFinite → a / b = ⟨infinity, infinity⟩) ↔
      exact b.re ^ 2 ≤ underflowEnd ∧ exact b.im ^ 2 ≤ underflowEnd) ∧
    ((b.magnitude == 0.0) = true ↔ (b.re == 0.0) = true ∧ (b.im == 0.0) = true) := by
  refine ⟨?_, ?_⟩
  · rw [← hb.squaredModulus_beq_zero_iff]
    constructor
    · intro hall
      by_contra h
      exact hb.zero_div_ne h (hall zero ⟨by decide, by decide⟩)
    · exact fun h a _ => div_eq_of_zero h a
  · rw [hb.hasValue_re.beq_zero_iff, hb.hasValue_im.beq_zero_iff]
    exact hypot_beq_zero_iff hb.hasValue_re hb.hasValue_im

/-- One is not such a divisor. -/
theorem div_infinite_one : (⟨1.0, 0.0⟩ : Complex).IsFinite ∧
    (¬ ∀ a : Complex, a.IsFinite → a / ⟨1.0, 0.0⟩ = ⟨infinity, infinity⟩) ∧
    ¬((⟨1.0, 0.0⟩ : Complex).magnitude == 0.0) = true := by
  have hone : (⟨1.0, 0.0⟩ : Complex).IsFinite := ⟨by decide, by decide⟩
  have hvalue : exact 1.0 = 1 := (hasValue_ofInt (n := 1) (by decide)).value.trans Int.cast_one
  refine ⟨hone, fun h => ?_, fun h => ?_⟩
  · obtain ⟨hre, -⟩ := (div_infinite_iff hone).1.1 h
    rw [hvalue, one_pow] at hre
    exact hre.not_gt (zpow_lt_one_of_neg₀ one_lt_two (by decide))
  · obtain ⟨hre, -⟩ := (div_infinite_iff hone).2.1 h
    exact absurd hre (by decide)

/-- **A divisor that is not zero counts as zero.** -/
theorem div_underflow : (⟨1e-200, 0.0⟩ : Complex).IsFinite ∧
    ((⟨1e-200, 0.0⟩ : Complex).magnitude == 0.0) = false ∧
    ∀ a : Complex, a / ⟨1e-200, 0.0⟩ = ⟨infinity, infinity⟩ :=
  ⟨⟨by decide +kernel, by decide⟩, by decide +kernel, div_eq_of_zero (by decide +kernel)⟩

end Calculator.Complex
