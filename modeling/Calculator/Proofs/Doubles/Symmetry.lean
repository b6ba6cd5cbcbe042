import Calculator.Double.Order
import Calculator.Proofs.Doubles.Exactness

/-!
# Signs and the order of operands

Rounding to the nearest double, a tie going to the even one, treats both signs alike. So a sign can
be taken out of every operation. What can change is the sign of a zero: a sum of opposite numbers is
a positive zero, whichever of them comes first.

* `Same x y`: the doubles are equal up to the sign of a zero (`sameTotal_iff`);
* `ofParts_neg`: negation changes the sign of what is packed, whether or not it is rounded;
* `neg_mul`, `mul_neg`, `neg_div`, `neg_add_same`, `mulAdd_neg_same`: signs are taken out;
* `add_comm`, `mul_comm`, `mulAdd_comm`: operands are exchanged.
-/

namespace Calculator.Double

open Float.Model (UnpackedFloat Format)
open Float.Model.UnpackedFloat

variable {x y z d : Float} {v w : UnpackedFloat} {s t : Sign} {m n : Nat} {e : Int}

/-! ### Equal up to the sign of a zero -/

/-- **Equal up to the sign of a zero.** A NaN equals itself here. -/
def Same (x y : Float) : Prop := x = y ∨ HasValue x 0 ∧ HasValue y 0

theorem Same.refl (x : Float) : Same x x := .inl rfl

theorem Same.symm (h : Same x y) : Same y x := h.imp Eq.symm And.symm

theorem Same.trans (h : Same x y) (h' : Same y z) : Same x z := by
  rcases h with rfl | ⟨hx, hy⟩
  · exact h'
  · rcases h' with rfl | ⟨-, hz⟩
    · exact .inr ⟨hx, hy⟩
    · exact .inr ⟨hx, hz⟩

theorem Same.neg (h : Same x y) : Same (-x) (-y) := by
  rcases h with rfl | ⟨hx, hy⟩
  · exact .refl (-x)
  · have hx' := hx.neg
    have hy' := hy.neg
    rw [neg_zero] at hx' hy'
    exact .inr ⟨hx', hy'⟩

theorem same_of_zero (s t : Sign) : Same (ofParts (.zero s)) (ofParts (.zero t)) :=
  .inr ⟨hasValue_zero (parts_ofParts_zero s), hasValue_zero (parts_ofParts_zero t)⟩

theorem parts_injective (h : parts x = parts y) : x = y := by
  rw [← ofParts_parts x, h, ofParts_parts]

theorem beq_iff_same : (x == y) = true ↔ x.isNaN = false ∧ Same x y := by
  show (parts x).beq (parts y) = true ↔ _
  rw [isNaN_eq, beq_iff_ne_notANumber_and_eq]
  constructor
  · rintro ⟨hx, -, heq | ⟨hx', hy'⟩ | ⟨hx', hy'⟩⟩
    · refine ⟨?_, .inl (parts_injective heq)⟩
      rw [Bool.eq_false_iff]
      exact mt isNaN_iff.1 hx
    · exact ⟨by rw [hx']; rfl, .inr ⟨hasValue_zero hx', hasValue_zero hy'⟩⟩
    · exact ⟨by rw [hx']; rfl, .inr ⟨hasValue_zero hx', hasValue_zero hy'⟩⟩
  · rintro ⟨hx, rfl | ⟨hx', hy'⟩⟩
    · have hne : parts x ≠ .notANumber := by
        intro h
        rw [h] at hx
        cases hx
      exact ⟨hne, hne, .inl rfl⟩
    · obtain ⟨s, hs⟩ := hx'.exists_zero
      obtain ⟨t, ht⟩ := hy'.exists_zero
      rw [hs, ht]
      cases s <;> cases t <;> simp

theorem same_zero (h : (x == 0.0) = true) : Same 0.0 x := (beq_iff_same.1 h).2.symm

theorem Same.beq_zero_eq (h : Same x y) : (x == 0.0) = (y == 0.0) := by
  rcases h with rfl | ⟨hx, hy⟩
  · rfl
  · rw [hx.beq_zero_iff.2 rfl, hy.beq_zero_iff.2 rfl]

theorem Same.eq_of_ne_zero (h : Same x y) (hx : ¬(x == 0.0) = true) : x = y := by
  rcases h with heq | ⟨hzero, -⟩
  · exact heq
  · exact absurd (hzero.beq_zero_iff.2 rfl) hx

theorem sameTotal_iff : sameTotal x y = true ↔ Same x y := by
  unfold sameTotal
  cases hx : x.isNaN with
  | false =>
    rw [if_neg Bool.false_ne_true, beq_iff_same, and_iff_right hx]
  | true =>
    rw [if_pos rfl]
    have hx' : parts x = .notANumber := isNaN_iff.1 hx
    constructor
    · intro hy
      have hy' : parts y = .notANumber := isNaN_iff.1 hy
      exact .inl (parts_injective (hx'.trans hy'.symm))
    · rintro (rfl | ⟨hzero, -⟩)
      · exact hx
      · have hnan := isNaN_of_isFinite hzero.finite
        rw [hx] at hnan
        cases hnan

/-! ### Negation -/

theorem neg_mul_sign (s t : Sign) : -s * t = -(s * t) := by cases s <;> cases t <;> rfl

theorem mul_neg_sign (s t : Sign) : s * -t = -(s * t) := by cases s <;> cases t <;> rfl

theorem neg_div_sign (s t : Sign) : -s / t = -(s / t) := by cases s <;> cases t <;> rfl

theorem mul_comm_sign (s t : Sign) : s * t = t * s := by cases s <;> cases t <;> rfl

/-- In the bits of a double, one is the sign, and the others do not depend on it. -/
theorem exists_components (hm : 0 < m) (e : Int) : ∃ exponent mantissa, ∀ s,
    pack .binary64 (.finite s m e hm) = packComponents .binary64 s exponent mantissa := by
  unfold pack
  dsimp only
  split
  · exact ⟨_, _, fun s => rfl⟩
  · split
    · exact ⟨_, _, fun s => rfl⟩
    · exact ⟨_, _, fun s => rfl⟩

theorem unpack_neg_components (s : Sign) (exponent : BitVec Format.binary64.exponentBits)
    (mantissa : BitVec Format.binary64.mantissaBitsWithoutImplicit) :
    unpack .binary64 (packComponents .binary64 (-s) exponent mantissa) =
      (unpack .binary64 (packComponents .binary64 s exponent mantissa)).neg := by
  unfold unpack
  simp only [unpackExponent_packComponents, unpackMantissa_packComponents,
    unpackSign_packComponents, Sign.ofBitVec_toBitVec]
  split
  · split
    · rfl
    · rfl
  · split
    · split
      · rfl
      · rfl
    · rfl

/-- **Negation changes the sign of what is packed**, also of a number that is too large. -/
theorem ofParts_neg (v : UnpackedFloat) : ofParts v.neg = -ofParts v := by
  cases v with
  | notANumber => rfl
  | infinity s => cases s <;> rfl
  | zero s => cases s <;> rfl
  | finite s m e hm =>
    obtain ⟨exponent, mantissa, hpack⟩ := exists_components hm e
    have hparts (t : Sign) : parts (ofParts (.finite t m e hm)) =
        unpack .binary64 (packComponents .binary64 t exponent mantissa) := by
      rw [parts_ofParts, hpack]
    refine parts_injective ?_
    rw [parts_neg]
    show parts (ofParts (.finite (-s) m e hm)) = _
    rw [hparts, hparts, unpack_neg_components]

protected theorem neg_neg (x : Float) : - -x = x := by
  refine parts_injective ?_
  rw [parts_neg, parts_neg]
  cases parts x with
  | notANumber => rfl
  | infinity s | zero s | finite s => cases s <;> rfl

/-! ### Products and quotients -/

theorem roundWithAccuracy_neg (s : Sign) (m : Nat) (e : Int) (a : Accuracy) :
    roundWithAccuracy .binary64 (-s) m e a = (roundWithAccuracy .binary64 s m e a).neg := by
  unfold roundWithAccuracy
  dsimp only
  split
  · rfl
  · rfl

theorem mul_neg_parts (v w : UnpackedFloat) :
    UnpackedFloat.mul .binary64 v.neg w = (UnpackedFloat.mul .binary64 v w).neg := by
  cases v with
  | notANumber => rfl
  | infinity s | zero s =>
    cases w with
    | notANumber => rfl
    | infinity t | zero t | finite t => cases s <;> cases t <;> rfl
  | finite s m e hm =>
    cases w with
    | notANumber => rfl
    | infinity t | zero t => cases s <;> cases t <;> rfl
    | finite t n f hn =>
      show roundWithAccuracy _ (-s * t) _ _ _ = _
      rw [neg_mul_sign, roundWithAccuracy_neg]
      rfl

theorem mul_comm_parts (v w : UnpackedFloat) :
    UnpackedFloat.mul .binary64 v w = UnpackedFloat.mul .binary64 w v := by
  cases v with
  | notANumber => cases w <;> rfl
  | infinity s | zero s =>
    cases w with
    | notANumber => rfl
    | infinity t | zero t | finite t => cases s <;> cases t <;> rfl
  | finite s m e hm =>
    cases w with
    | notANumber => rfl
    | infinity t | zero t => cases s <;> cases t <;> rfl
    | finite t n f hn =>
      show roundWithAccuracy _ (s * t) (m * n) (e + f) _ =
        roundWithAccuracy _ (t * s) (n * m) (f + e) _
      rw [mul_comm_sign, Nat.mul_comm, Int.add_comm]

protected theorem mul_comm (x y : Float) : x * y = y * x :=
  congrArg ofParts (mul_comm_parts (parts x) (parts y))

protected theorem neg_mul (x y : Float) : -x * y = -(x * y) := by
  show ofParts (UnpackedFloat.mul .binary64 (parts (-x)) (parts y)) =
    -ofParts (UnpackedFloat.mul .binary64 (parts x) (parts y))
  rw [parts_neg, mul_neg_parts, ofParts_neg]

protected theorem mul_neg (x y : Float) : x * -y = -(x * y) := by
  rw [Double.mul_comm, Double.neg_mul, Double.mul_comm]

theorem div_neg_parts (v w : UnpackedFloat) :
    UnpackedFloat.div .binary64 v.neg w = (UnpackedFloat.div .binary64 v w).neg := by
  cases v with
  | notANumber => rfl
  | infinity s | zero s =>
    cases w with
    | notANumber => rfl
    | infinity t | zero t | finite t => cases s <;> cases t <;> rfl
  | finite s m e hm =>
    cases w with
    | notANumber => rfl
    | infinity t | zero t => cases s <;> cases t <;> rfl
    | finite t n f hn =>
      show roundWithAccuracy _ (-s / t) _ _ _ = _
      rw [neg_div_sign, roundWithAccuracy_neg]
      rfl

protected theorem neg_div (x y : Float) : -x / y = -(x / y) := by
  show ofParts (UnpackedFloat.div .binary64 (parts (-x)) (parts y)) =
    -ofParts (UnpackedFloat.div .binary64 (parts x) (parts y))
  rw [parts_neg, div_neg_parts, ofParts_neg]

/-- Of a zero that is divided only the sign can matter, unless the divisor is zero too. -/
theorem Same.div (h : Same x y) (hd : ¬(d == 0.0) = true) : Same (x / d) (y / d) := by
  rcases h with rfl | ⟨hx, hy⟩
  · exact .refl (x / d)
  · obtain ⟨s, hs⟩ := hx.exists_zero
    obtain ⟨t, ht⟩ := hy.exists_zero
    have hleft : x / d = ofParts (UnpackedFloat.div .binary64 (.zero s) (parts d)) := by
      rw [← hs]
      rfl
    have hright : y / d = ofParts (UnpackedFloat.div .binary64 (.zero t) (parts d)) := by
      rw [← ht]
      rfl
    rw [hleft, hright]
    cases hd' : parts d with
    | notANumber => exact .inl rfl
    | zero u => exact absurd ((hasValue_zero hd').beq_zero_iff.2 rfl) hd
    | infinity u | finite u =>
      exact same_of_zero (s / u) (t / u)

/-! ### Sums -/

theorem add_comm_parts (v w : UnpackedFloat) :
    UnpackedFloat.add .binary64 v w = UnpackedFloat.add .binary64 w v := by
  cases v with
  | notANumber => cases w <;> rfl
  | infinity s | zero s =>
    cases w with
    | notANumber => rfl
    | infinity t | zero t | finite t => cases s <;> cases t <;> rfl
  | finite s m e hm =>
    cases w with
    | notANumber => rfl
    | infinity t | zero t => cases s <;> cases t <;> rfl
    | finite t n f hn =>
      show UnpackedFloat.normalize _ (_ + _) (min e f) _ =
        UnpackedFloat.normalize _ (_ + _) (min f e) _
      rw [min_comm e f, Int.add_comm]

protected theorem add_comm (x y : Float) : x + y = y + x :=
  congrArg ofParts (add_comm_parts (parts x) (parts y))

/-- **An integer and its opposite** are rounded alike, but zero has no sign of its own. -/
theorem nearest_neg_same (k e : Int) :
    Same (nearest (-k) e .positive) (-nearest k e .positive) := by
  by_cases hk : k = 0
  · subst hk
    have hzero : HasValue (nearest 0 e .positive) 0 :=
      hasValue_zero (parts_ofParts_zero .positive)
    have hneg := hzero.neg
    rw [neg_zero] at hneg
    exact .inr ⟨hzero, hneg⟩
  · obtain ⟨s, n, hn, rfl⟩ := exists_apply hk
    left
    unfold nearest
    rw [← apply_neg, normalize_apply hn, normalize_apply hn, ← ofParts_neg]
    exact congrArg ofParts (roundWithAccuracy_neg ..)

theorem neg_add_same (x y : Float) : Same (-x + -y) (-(x + y)) := by
  show Same (ofParts (UnpackedFloat.add .binary64 (parts (-x)) (parts (-y))))
    (-ofParts (UnpackedFloat.add .binary64 (parts x) (parts y)))
  rw [parts_neg, parts_neg, ← ofParts_neg]
  cases parts x with
  | notANumber => exact .inl rfl
  | infinity s =>
    cases parts y with
    | notANumber | zero | finite => exact .inl rfl
    | infinity t => cases s <;> cases t <;> exact .inl rfl
  | zero s =>
    cases parts y with
    | notANumber | infinity | finite => exact .inl rfl
    | zero t => cases s <;> cases t <;> exact same_of_zero _ _
  | finite s m e hm =>
    cases parts y with
    | notANumber | infinity | zero => exact .inl rfl
    | finite t n f hn =>
      rw [ofParts_neg]
      show Same (nearest ((-s).apply _ + (-t).apply _) (min e f) .positive)
        (-nearest (s.apply _ + t.apply _) (min e f) .positive)
      rw [apply_neg, apply_neg, ← Int.neg_add]
      exact nearest_neg_same _ _

/-! ### Fused multiply-add -/

theorem mulAdd_comm (x y z : Float) : mulAdd x y z = mulAdd y x z := by
  have hsum : x * y + z = y * x + z := by rw [Double.mul_comm]
  unfold mulAdd
  cases parts x with
  | notANumber | infinity | zero =>
    cases parts y with
    | notANumber | infinity | zero | finite => exact hsum
  | finite s m e hm =>
    cases parts y with
    | notANumber | infinity | zero => exact hsum
    | finite t n f hn =>
      cases parts z with
      | notANumber | infinity => rfl
      | zero => exact Double.mul_comm x y
      | finite u k g hk =>
        dsimp only
        rw [mul_comm_sign, Nat.mul_comm m n, Int.add_comm e f]

theorem mulAdd_neg_left (x y z : Float) : mulAdd (-x) y z = mulAdd x (-y) z := by
  have hproduct : -x * y = x * -y := by rw [Double.neg_mul, Double.mul_neg]
  have hsum : -x * y + z = x * -y + z := by rw [hproduct]
  unfold mulAdd
  rw [parts_neg, parts_neg]
  cases parts x with
  | notANumber | infinity | zero => exact hsum
  | finite s m e hm =>
    cases parts y with
    | notANumber | infinity | zero => exact hsum
    | finite t n f hn =>
      cases parts z with
      | notANumber | infinity => rfl
      | zero => exact hproduct
      | finite u k g hk =>
        dsimp only [UnpackedFloat.neg]
        rw [neg_mul_sign, mul_neg_sign]

theorem mulAdd_neg_same (x y z : Float) : Same (mulAdd (-x) y (-z)) (-mulAdd x y z) := by
  have hsum : Same (-x * y + -z) (-(x * y + z)) := by
    rw [Double.neg_mul]
    exact neg_add_same (x * y) z
  unfold mulAdd
  rw [parts_neg, parts_neg]
  cases parts x with
  | notANumber | infinity | zero => exact hsum
  | finite s m e hm =>
    cases parts y with
    | notANumber | infinity | zero => exact hsum
    | finite t n f hn =>
      cases parts z with
      | notANumber | infinity => exact .refl (-z)
      | zero => exact .inl (Double.neg_mul x y)
      | finite u k g hk =>
        dsimp only [UnpackedFloat.neg]
        rw [neg_mul_sign, apply_neg, apply_neg, ← Int.neg_add]
        exact nearest_neg_same _ _

end Calculator.Double
