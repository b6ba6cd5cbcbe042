import Calculator.Proofs.Doubles.Ranking
import Calculator.Whole

/-!
# Doubles and integers correspond on the safe range

A double becomes an integer by dropping its fraction, and an integer becomes a double as it is. Both
are refused outside the safe range, so nothing is rounded, and nothing stops at the ends of the
64-bit integers.

* `towardZero q`: the integer part of a number;
* `HasValue.integerPart?`, `HasValue.trunc`: two ways to take it of a double;
* `HasValue.toInt64`: the cast of a double stops only at the ends of its range;
* `ofDouble_cases`: what the conversion of a double gives;
* `ofDouble_eq_castTruncated`: the same step by step;
* `conversions_inverse`: when each conversion succeeds, and that each undoes the other.
-/

namespace Calculator

namespace Double

open Float.Model (UnpackedFloat Format)
open Float.Model.UnpackedFloat

variable {x y : Float} {s : Sign} {m n : Nat} {e : Int} {hm : 0 < m} {q : ℚ}

/-! ### Integer parts -/

/-- **The integer part of a number**, toward zero. -/
def towardZero (q : ℚ) : ℤ := if 0 ≤ q then ⌊q⌋ else ⌈q⌉

theorem towardZero_intCast (n : ℤ) : towardZero n = n := by
  unfold towardZero
  split
  · exact Int.floor_intCast n
  · exact Int.ceil_intCast n

theorem towardZero_apply (s : Sign) (hq : 0 < q) (hn : ⌊q⌋ = n) :
    towardZero (s.apply 1 * q) = s.apply n := by
  unfold towardZero
  cases s with
  | positive =>
    rw [apply_positive_mul, if_pos hq.le, hn]
    rfl
  | negative =>
    rw [apply_negative_mul, if_neg (by linarith), Int.ceil_neg, hn]
    rfl

theorem floor_value (m : Nat) (e : Int) :
    ⌊(m : ℚ) * 2 ^ e⌋ = (m * twoTo e / twoTo (-e) : Nat) := by
  rw [← mul_twoTo_div, Rat.floor_natCast_div_natCast, Int.natCast_ediv]

theorem HasValue.integerPart? (hx : HasValue x q) : integerPart? x = some (towardZero q) := by
  unfold Double.integerPart?
  rcases hx.cases with ⟨s, hx', rfl⟩ | ⟨s, m, e, hm, hx', rfl⟩
  · rw [hx', show towardZero 0 = 0 from towardZero_intCast 0]
  · rw [hx', towardZero_apply s (by positivity) (floor_value m e)]
    show some ((s.apply (m * twoTo e : Nat)).tdiv (twoTo (-e))) = _
    rw [apply_tdiv]

theorem integerPart?_of_not_isFinite (h : x.isFinite = false) : integerPart? x = none := by
  rw [isFinite_eq] at h
  unfold integerPart?
  cases hx : parts x with
  | notANumber | infinity => rfl
  | zero | finite => rw [hx] at h; cases h

theorem HasValue.trunc (hx : HasValue x q) : HasValue (trunc x) (towardZero q) := by
  rcases hx.cases with ⟨s, hx', rfl⟩ | ⟨s, m, e, hm, hx', rfl⟩
  · have hself : Double.trunc x = x := by
      unfold Double.trunc toIntegral
      rw [hx']
    rw [hself, show towardZero 0 = 0 from towardZero_intCast 0]
    exact hasValue_zero hx'
  · rw [towardZero_apply s (by positivity) (floor_value m e)]
    rcases Int.lt_or_le e 0 with he | he
    · have hle : m / twoTo (-e) ≤ 2 ^ 53 :=
        (Nat.div_le_self _ _).trans (canonical_of_parts hx').lt.le
      have hint : (s.apply (m / twoTo (-e) : Nat)).natAbs ≤ 2 ^ 53 := by
        cases s with
        | positive => exact hle
        | negative => exact (Int.natAbs_neg _).trans_le hle
      have hrep := representable_scaled (f := 0) hint (by decide) (by decide)
      have hvalue := hasValue_nearest hrep s
      rw [zpow_zero, mul_one] at hvalue
      rwa [trunc_of_neg hx' he, twoTo_of_nonpos he.le, Nat.mul_one]
    · have hone : twoTo (-e) = 1 := twoTo_of_nonpos (by omega)
      have hwhole : (m : ℚ) * 2 ^ e = (m * twoTo e : Nat) := by
        rw [← mul_twoTo_div, hone, Nat.cast_one, div_one]
      have hint : ((s.apply (m * twoTo e : Nat) : Int) : ℚ) = s.apply 1 * (m * 2 ^ e) := by
        rw [hwhole, apply_eq, Int.cast_mul, Int.cast_natCast]
      rw [trunc_of_nonneg hx' he, hone, Nat.div_one, hint]
      exact hasValue_finite hx'

/-! ### The cast -/

/-- **The cast to a 64-bit integer** drops the fraction and stops at the ends of the range; NaN
becomes zero. -/
def toInt64 (x : Float) : Int64 := (parts x).toInt64

theorem mantissa_shiftRight (em : ExtendedMantissa) (k : Nat) :
    (em >>> k).mantissa = em.mantissa / 2 ^ k := by
  induction k with
  | zero => exact (Nat.div_one _).symm
  | succ k ih =>
    show (em >>> k).mantissa / 2 = _
    rw [ih, Nat.div_div_eq_div_mul, Nat.pow_succ]

/-- The bits behind the point are shifted out. -/
theorem roundToInt_eq (s : Sign) (m : Nat) (e : Int) :
    roundToInt s m e = s.apply (m * twoTo e / twoTo (-e) : Nat) := by
  unfold roundToInt decreaseExponent shiftToExponent
  have hshift : (0 - (e - (e - 0).toNat)).toNat = (-e).toNat := by omega
  dsimp only
  rw [mantissa_shiftRight, hshift]
  show s.apply (m <<< (e - 0).toNat / 2 ^ (-e).toNat : Nat) = _
  rw [Nat.shiftLeft_eq, Int.sub_zero]
  rfl

theorem HasValue.toInt64 (hx : HasValue x q) (hlow : -2 ^ 63 ≤ towardZero q)
    (hhigh : towardZero q < 2 ^ 63) : (Double.toInt64 x).toInt = towardZero q := by
  have hcast : UnpackedFloat.toInt Int64.minValue.toInt Int64.maxValue.toInt (parts x) =
      towardZero q := by
    rcases hx.cases with ⟨s, hx', rfl⟩ | ⟨s, m, e, hm, hx', rfl⟩
    · rw [hx', show towardZero 0 = 0 from towardZero_intCast 0]
      rfl
    · rw [hx', towardZero_apply s (by positivity) (floor_value m e)]
      exact roundToInt_eq s m e
  have hmin : Int64.minValue.toInt = -2 ^ 63 := rfl
  have hmax : Int64.maxValue.toInt = 2 ^ 63 - 1 := rfl
  unfold Double.toInt64 UnpackedFloat.toInt64
  rw [hcast]
  unfold Int64.ofIntClamp
  rw [dif_pos (by omega), dif_pos (by omega)]
  exact Int64.toInt_ofIntLE

end Double

namespace Whole

open Double

variable {x : Float} {n : Int64} {ε : Type}

/-- **The conversion step by step**: of a finite double the fraction is dropped, what is left is
compared with the largest safe integer, and then cast. -/
def castTruncated (x : Float) : Outcome Int64 :=
  if x.isFinite then
    if Double.ofNat maxSafe < (trunc x).abs then .error .overflow else .ok (toInt64 (trunc x))
  else .error .domainError

theorem toInt_ofInt_of_safe {i : ℤ} (h : i.natAbs ≤ maxSafe) : (Int64.ofInt i).toInt = i := by
  unfold maxSafe at h
  exact Int64.toInt_ofInt_of_le (by omega) (by omega)

/-! ### From doubles to integers -/

theorem ofDouble_of_hasValue {q : ℚ} (hx : HasValue x q) :
    ofDouble x = if (towardZero q).natAbs ≤ maxSafe then .ok (.ofInt (towardZero q))
      else .error .overflow := by
  unfold ofDouble
  rw [hx.integerPart?]

/-- **The three outcomes**: no number, a safe integer part, and one that is not safe. -/
theorem ofDouble_cases (x : Float) :
    x.isFinite = false ∧ ofDouble x = .error .domainError ∨
    x.isFinite = true ∧ (towardZero (exact x)).natAbs ≤ maxSafe ∧
      ofDouble x = .ok (.ofInt (towardZero (exact x))) ∨
    x.isFinite = true ∧ maxSafe < (towardZero (exact x)).natAbs ∧
      ofDouble x = .error .overflow := by
  cases hfinite : x.isFinite with
  | false =>
    refine .inl ⟨rfl, ?_⟩
    unfold ofDouble
    rw [integerPart?_of_not_isFinite hfinite]
  | true =>
    have hvalue := ofDouble_of_hasValue ⟨hfinite, rfl⟩
    rcases Nat.lt_or_ge maxSafe (towardZero (exact x)).natAbs with hlarge | hsafe
    · exact .inr (.inr ⟨rfl, hlarge, hvalue.trans (if_neg hlarge.not_ge)⟩)
    · exact .inr (.inl ⟨rfl, hsafe, hvalue.trans (if_pos hsafe)⟩)

theorem ofDouble_eq_ok_iff (x : Float) (n : Int64) : ofDouble x = .ok n ↔
    x.isFinite = true ∧ (towardZero (exact x)).natAbs ≤ maxSafe ∧
      n.toInt = towardZero (exact x) := by
  rcases ofDouble_cases x with ⟨hx, h⟩ | ⟨hx, hsafe, h⟩ | ⟨hx, hlarge, h⟩
  · simp [h, hx]
  · rw [h, Except.ok.injEq, and_iff_right hx, and_iff_right hsafe, ← Int64.toInt_inj,
      toInt_ofInt_of_safe hsafe, eq_comm]
  · simp [h, hlarge.not_ge]

theorem ofDouble_eq_overflow_iff (x : Float) : ofDouble x = .error .overflow ↔
    x.isFinite = true ∧ maxSafe < (towardZero (exact x)).natAbs := by
  rcases ofDouble_cases x with ⟨hx, h⟩ | ⟨hx, hsafe, h⟩ | ⟨hx, hlarge, h⟩
  · simp [h, hx]
  · simp [h, hsafe.not_gt]
  · simp [h, hx, hlarge]

theorem isFinite_eq_false_iff (x : Float) :
    x.isFinite = false ↔ x.isNaN = true ∨ x.isInf = true := by
  constructor
  · intro hx
    cases hnan : x.isNaN with
    | true => exact .inl rfl
    | false => exact .inr (isInf_of_not_isFinite hx hnan)
  · rintro (hnan | hinf)
    · exact isFinite_of_isNaN hnan
    · exact isFinite_of_isInf hinf

theorem ofDouble_eq_domainError_iff (x : Float) :
    ofDouble x = .error .domainError ↔ x.isNaN = true ∨ x.isInf = true := by
  rw [← isFinite_eq_false_iff]
  rcases ofDouble_cases x with ⟨hx, h⟩ | ⟨hx, -, h⟩ | ⟨hx, -, h⟩
  · exact iff_of_true h hx
  · simp [h, hx]
  · simp [h, hx]

/-! ### Step by step -/

/-- **The cast does not stop** at the ends of its range, if the integer part is safe. -/
theorem toInt64_trunc {q : ℚ} (hx : HasValue x q) (hsafe : (towardZero q).natAbs ≤ maxSafe) :
    toInt64 (trunc x) = .ofInt (towardZero q) := by
  have hcast := hx.trunc.toInt64
  rw [towardZero_intCast] at hcast
  unfold maxSafe at hsafe
  rw [← hcast (by omega) (by omega), Int64.ofInt_toInt]

theorem lt_abs_iff {i : ℤ} (hx : HasValue x i) :
    Double.ofNat maxSafe < x.abs ↔ maxSafe < i.natAbs := by
  have hmax := hasValue_ofNat (n := maxSafe) (by decide)
  rw [hmax.lt_iff hx.abs, ← Int.cast_abs, Int.abs_eq_natAbs]
  exact_mod_cast Iff.rfl

/-- **The steps give the integer part**: a double that the comparison lets through is cast as it
is. -/
theorem ofDouble_eq_castTruncated (x : Float) : ofDouble x = castTruncated x := by
  unfold castTruncated
  rcases ofDouble_cases x with ⟨hx, h⟩ | ⟨hx, hsafe, h⟩ | ⟨hx, hlarge, h⟩
  · rw [h, if_neg (Bool.eq_false_iff.1 hx)]
  · have hvalue : HasValue x (exact x) := ⟨hx, rfl⟩
    rw [h, if_pos hx, if_neg (mt (lt_abs_iff hvalue.trunc).1 hsafe.not_gt),
      toInt64_trunc hvalue hsafe]
  · have hvalue : HasValue x (exact x) := ⟨hx, rfl⟩
    rw [h, if_pos hx, if_pos ((lt_abs_iff hvalue.trunc).2 hlarge)]

/-! ### From integers to doubles -/

theorem toDouble_eq_ok_iff (n : Int64) (otherwise : ε) (y : Float) :
    toDouble n otherwise = .ok y ↔ n.toInt.natAbs ≤ maxSafe ∧ y = Double.ofInt n.toInt := by
  unfold toDouble
  split
  · next hsafe => simp [hsafe, eq_comm]
  · next hlarge => simp [hlarge]

theorem toDouble_eq_error_iff (n : Int64) (otherwise : ε) :
    toDouble n otherwise = .error otherwise ↔ maxSafe < n.toInt.natAbs := by
  unfold toDouble
  split
  · next hsafe => simp [hsafe.not_gt]
  · next hlarge => simp [Nat.lt_of_not_le hlarge]

theorem ofDouble_ofInt (h : n.toInt.natAbs ≤ maxSafe) :
    HasValue (Double.ofInt n.toInt) n.toInt ∧ ofDouble (Double.ofInt n.toInt) = .ok n := by
  have hvalue : HasValue (Double.ofInt n.toInt) n.toInt :=
    hasValue_ofInt (by unfold maxSafe at h; omega)
  refine ⟨hvalue, (ofDouble_eq_ok_iff _ _).2 ?_⟩
  rw [hvalue.value, towardZero_intCast]
  exact ⟨hvalue.finite, h, rfl⟩

/-- **Doubles and integers correspond on the safe range.** A double becomes its integer part, toward
zero, exactly if it is finite and that is safe; it is outside the domain exactly if it is NaN or an
infinity, and an overflow otherwise. That is what dropping the fraction, comparing and casting give:
the cast is not stopped by the ends of its range. An integer becomes a double exactly if it is safe.
Either conversion undoes the other, up to the fraction and the sign of a zero. -/
theorem conversions_inverse (x : Float) (n : Int64) (otherwise : ε) :
    (ofDouble x = .error .domainError ↔ x.isNaN = true ∨ x.isInf = true) ∧
    (ofDouble x = .error .overflow ↔
      x.isFinite = true ∧ maxSafe < (towardZero (exact x)).natAbs) ∧
    ((∃ k, ofDouble x = .ok k) ↔
      x.isFinite = true ∧ (towardZero (exact x)).natAbs ≤ maxSafe) ∧
    ofDouble x = castTruncated x ∧
    (ofDouble x = .ok n →
      n.toInt = towardZero (exact x) ∧ n = toInt64 (trunc x) ∧
      ∃ y, toDouble n otherwise = .ok y ∧ (y == trunc x) = true) ∧
    ((∃ y, toDouble n otherwise = .ok y) ↔ n.toInt.natAbs ≤ maxSafe) ∧
    (toDouble n otherwise = .error otherwise ↔ maxSafe < n.toInt.natAbs) ∧
    ∀ y, toDouble n otherwise = .ok y → HasValue y n.toInt ∧ ofDouble y = .ok n := by
  refine ⟨ofDouble_eq_domainError_iff x, ofDouble_eq_overflow_iff x, ?_,
    ofDouble_eq_castTruncated x, ?_, ?_, toDouble_eq_error_iff n otherwise, ?_⟩
  · constructor
    · rintro ⟨k, hk⟩
      obtain ⟨hfinite, hsafe, -⟩ := (ofDouble_eq_ok_iff x k).1 hk
      exact ⟨hfinite, hsafe⟩
    · rintro ⟨hfinite, hsafe⟩
      exact ⟨_, (ofDouble_eq_ok_iff x _).2 ⟨hfinite, hsafe, toInt_ofInt_of_safe hsafe⟩⟩
  · intro h
    obtain ⟨hfinite, hsafe, hn⟩ := (ofDouble_eq_ok_iff x n).1 h
    have hx : HasValue x (exact x) := ⟨hfinite, rfl⟩
    have hcut := hx.trunc
    have hcast := toInt64_trunc hx hsafe
    rw [← hn] at hsafe hcut hcast
    rw [Int64.ofInt_toInt] at hcast
    exact ⟨hn, hcast.symm, _, (toDouble_eq_ok_iff ..).2 ⟨hsafe, rfl⟩,
      ((ofDouble_ofInt hsafe).1.beq_iff hcut).2 rfl⟩
  · constructor
    · rintro ⟨y, hy⟩
      exact ((toDouble_eq_ok_iff ..).1 hy).1
    · intro hsafe
      exact ⟨_, (toDouble_eq_ok_iff ..).2 ⟨hsafe, rfl⟩⟩
  · intro y hy
    obtain ⟨hsafe, rfl⟩ := (toDouble_eq_ok_iff ..).1 hy
    exact ofDouble_ofInt hsafe

/-- A fraction below zero becomes a zero without a sign, and the largest fraction is dropped. -/
theorem conversions_inverse_fraction :
    (ofDouble (-0.5) = .ok 0 ∧
      ∃ y, toDouble 0 Fault.overflow = .ok y ∧ (y == trunc (-0.5)) = true) ∧
    ofDouble 4503599627370495.5 = .ok 4503599627370495 ∧
      ∃ y, toDouble 4503599627370495 Fault.overflow = .ok y ∧
        (y == trunc 4503599627370495.5) = true := by
  have hzero : ofDouble (-0.5) = .ok 0 := by rfl
  have hlarge : ofDouble 4503599627370495.5 = .ok 4503599627370495 := by rfl
  obtain ⟨-, -, -, -, hback, -⟩ := conversions_inverse (-0.5) 0 Fault.overflow
  obtain ⟨-, -, -, -, hback', -⟩ :=
    conversions_inverse 4503599627370495.5 4503599627370495 Fault.overflow
  exact ⟨⟨hzero, (hback hzero).2.2⟩, hlarge, (hback' hlarge).2.2⟩

end Whole

end Calculator
