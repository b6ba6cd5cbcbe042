import Calculator.Proofs.Complexes.Quotients
import Calculator.Proofs.Complexes.Symmetries
import Calculator.Proofs.Doubles.Rounded

/-!
# The order of the factors

Each part of a product is a sum of two products of doubles, and only the second one is rounded on
its own. If the factors are exchanged, the other one is. In the real part these are the same two
doubles. In the imaginary part the result can change: it is the same if both rounding errors are the
same, and for a number and its conjugate, whose errors are opposite, only if they are lost.

* `productError x y`: what rounding adds to a product;
* `beq_mul_swap_iff`: when two numbers commute, as a statement about sums that are rounded once;
* `EqualErrors.beq_mul_swap`: a condition on the rounding errors;
* `mul_conj_beq_iff`: when a number commutes with its conjugate;
* `mul_exchange`: all of this, and `mul_conj_exchanged`, a number that does not.
-/

namespace Calculator.Double

open Float.Model (UnpackedFloat)
open Float.Model.UnpackedFloat

variable {x y z w : Float} {p q r t : ℚ}

/-! ### Products of doubles -/

/-- **What rounding adds to a product.** -/
def productError (x y : Float) : ℚ := exact (x * y) - exact x * exact y

theorem HasValue.isSum_of_mul_zero (hx : HasValue x p) (hy : HasValue y q) (hz : HasValue z r)
    (hw : HasValue w t) (h : p * q = 0) :
    IsSum (z * w) (p * q) (z * w) ∧ IsSum (z * w) (r * t) (x * y) := by
  have hzero := hx.mul hy (.inl h)
  have hsum : IsRounded (z * w) (r * t + exact (x * y)) := by
    rw [hzero.value, h, add_zero]
    exact hz.isRounded_mul hw
  refine ⟨?_, ?_⟩
  · rw [h]
    exact isSum_zero (z * w)
  · unfold IsSum
    rwa [if_pos hzero.finite]

theorem isFinite_ofParts_false {v : UnpackedFloat} (h : v.isFinite = false) :
    (ofParts v).isFinite = false := by
  cases v with
  | zero | finite => cases h
  | notANumber => decide
  | infinity s =>
    rw [isFinite_eq, parts_ofParts_infinity]
    rfl

theorem isFinite_mul_left (h : x.isFinite = false) (y : Float) : (x * y).isFinite = false := by
  refine isFinite_ofParts_false (v := UnpackedFloat.mul .binary64 (parts x) (parts y)) ?_
  rw [isFinite_eq] at h
  cases hx : parts x with
  | zero | finite => rw [hx] at h; cases h
  | notANumber => rfl
  | infinity s =>
    cases parts y with
    | notANumber | zero | infinity | finite => rfl

theorem isNaN_neg_add (h : x.isFinite = false) : (-x + x).isNaN = true := by
  have hsum : -x + x = ofParts (UnpackedFloat.add .binary64 (parts (-x)) (parts x)) := rfl
  rw [hsum, parts_neg]
  rw [isFinite_eq] at h
  cases hx : parts x with
  | zero | finite => rw [hx] at h; cases h
  | notANumber => rfl
  | infinity s => cases s <;> rfl

theorem same_neg_iff : Same x (-x) ↔ x.isNaN = true ∨ HasValue x 0 := by
  constructor
  · rintro (heq | ⟨hx, -⟩)
    · left
      have hparts : parts x = (parts x).neg := by rw [← parts_neg, ← heq]
      rw [isNaN_eq]
      cases hx : parts x with
      | notANumber => rfl
      | infinity s | zero s | finite s =>
        rw [hx] at hparts
        cases s <;> cases hparts
    · exact .inr hx
  · rintro (hnan | hx)
    · have hx : parts x = .notANumber := isNaN_iff.1 hnan
      refine .inl (parts_injective ?_)
      rw [parts_neg, hx]
      rfl
    · have hneg := hx.neg
      rw [neg_zero] at hneg
      exact .inr ⟨hx, hneg⟩

end Calculator.Double

namespace Calculator.Complex

open Double

variable {a b : Complex}

/-! ### Two factors -/

theorem mul_re_swap (a b : Complex) : (a * b).re = (b * a).re := by
  show mulAdd a.re b.re (-(a.im * b.im)) = mulAdd b.re a.re (-(b.im * a.im))
  rw [mulAdd_comm, Double.mul_comm a.im]

theorem mul_im_swap (a b : Complex) : (b * a).im = mulAdd a.im b.re (a.re * b.im) := by
  show mulAdd b.re a.im (b.im * a.re) = _
  rw [mulAdd_comm, Double.mul_comm b.im]

theorem beq_mul_swap_iff_same : (a * b == b * a) = true ↔ Double.Same (a * b).im (b * a).im := by
  rw [beq_iff_same]
  exact ⟨Same.im, fun him => ⟨.inl (mul_re_swap a b), him⟩⟩

/-- **When two numbers commute**: each imaginary part is a sum of two products, one of which has
been rounded before, and both sums are rounded to the same double. -/
theorem beq_mul_swap_iff (ha : a.IsFinite) (hb : b.IsFinite) :
    (a * b == b * a) = true ↔ ∃ x, IsSum x (exact a.re * exact b.im) (a.im * b.re) ∧
      IsSum x (exact a.im * exact b.re) (a.re * b.im) := by
  have hleft : IsSum (a * b).im (exact a.re * exact b.im) (a.im * b.re) :=
    ha.hasValue_re.isSum_mulAdd hb.hasValue_im _
  have hright : IsSum (b * a).im (exact a.im * exact b.re) (a.re * b.im) := by
    rw [mul_im_swap]
    exact ha.hasValue_im.isSum_mulAdd hb.hasValue_re _
  rw [beq_mul_swap_iff_same]
  constructor
  · exact fun h => ⟨(a * b).im, hleft, hright.of_same h⟩
  · rintro ⟨x, hx, hx'⟩
    exact (hleft.same hx).trans (hx'.same hright)

/-- **The two products of the imaginary part are rounded alike**: one is zero, or both have the same
rounding error. -/
def EqualErrors (a b : Complex) : Prop :=
  exact a.re * exact b.im = 0 ∨ exact a.im * exact b.re = 0 ∨
    ((a.re * b.im).isFinite = true ∧ (a.im * b.re).isFinite = true ∧
      productError a.re b.im = productError a.im b.re)

theorem EqualErrors.beq_mul_swap (h : EqualErrors a b) (ha : a.IsFinite) (hb : b.IsFinite) :
    (a * b == b * a) = true := by
  rw [beq_mul_swap_iff ha hb]
  rcases h with h | h | ⟨hleft, hright, herror⟩
  · exact ⟨_, ha.hasValue_re.isSum_of_mul_zero hb.hasValue_im ha.hasValue_im hb.hasValue_re h⟩
  · have hsums := ha.hasValue_im.isSum_of_mul_zero hb.hasValue_re ha.hasValue_re hb.hasValue_im h
    exact ⟨_, hsums.symm⟩
  · have hsum : exact a.im * exact b.re + exact (a.re * b.im) =
        exact a.re * exact b.im + exact (a.im * b.re) := by
      unfold productError at herror
      linarith
    have hrounded := ha.hasValue_re.isRounded_mulAdd hb.hasValue_im ⟨hright, rfl⟩
    refine ⟨(a * b).im, ?_, ?_⟩
    · unfold IsSum
      rw [if_pos hright]
      exact hrounded
    · unfold IsSum
      rw [if_pos hleft, hsum]
      exact hrounded

/-! ### A number and its conjugate -/

theorem conj_conj (a : Complex) : a.conj.conj = a := congrArg (mk a.re) (Double.neg_neg a.im)

theorem mul_conj_same (a : Complex) : Same (a * a.conj) (a.conj * a).conj := by
  have h := (conj_mul_same a.conj a).symm
  rwa [conj_conj] at h

theorem mul_conj_im_same (a : Complex) : Double.Same (a.conj * a).im (-(a * a.conj).im) := by
  have h := (mul_conj_same a).im.neg.symm
  rwa [show (a.conj * a).conj.im = -(a.conj * a).im from rfl, Double.neg_neg] at h

theorem mul_conj_beq_iff_zero : (a * a.conj == a.conj * a) = true ↔
    (a * a.conj).im.isNaN = true ∨ HasValue (a * a.conj).im 0 := by
  have h := mul_conj_im_same a
  rw [beq_mul_swap_iff_same, ← same_neg_iff]
  exact ⟨fun hsame => hsame.trans h, fun hsame => hsame.trans h.symm⟩

/-- The imaginary part is the rounding error of a product, rounded. -/
theorem IsFinite.isRounded_mul_conj (ha : a.IsFinite) (h : (a.re * a.im).isFinite = true) :
    IsRounded (a * a.conj).im (productError a.re a.im) := by
  have hproduct : HasValue (a.im * a.re) (exact (a.re * a.im)) := by
    rw [Double.mul_comm]
    exact ⟨h, rfl⟩
  have hsum := ha.hasValue_re.isRounded_mulAdd ha.hasValue_im.neg hproduct
  rwa [mul_neg, neg_add_eq_sub] at hsum

theorem IsFinite.mul_conj_im (ha : a.IsFinite) (h : ¬(a.re * a.im).isFinite = true) :
    (a * a.conj).im = a.re * a.im := by
  have hproduct : (a.im * a.re).isFinite = false := by
    rw [Double.mul_comm]
    exact Bool.eq_false_iff.2 h
  rw [Double.mul_comm a.re]
  exact ha.hasValue_re.mulAdd_of_not_isFinite ha.hasValue_im.neg hproduct

/-- Without finite parts nothing is fused, and opposite infinities meet. -/
theorem isNaN_mul_conj (ha : ¬a.IsFinite) : (a * a.conj).im.isNaN = true := by
  have hunfused : (a * a.conj).im = -(a.re * a.im) + a.re * a.im := by
    show mulAdd a.re (-a.im) (a.im * a.re) = _
    rw [← Double.mul_neg, Double.mul_comm a.im]
    unfold mulAdd
    rw [parts_neg]
    cases hre : parts a.re with
    | notANumber | infinity | zero => rfl
    | finite s m e hm =>
      cases him : parts a.im with
      | notANumber | infinity | zero => rfl
      | finite t n f hn =>
        refine absurd ⟨?_, ?_⟩ ha
        · rw [isFinite_eq, hre]
          rfl
        · rw [isFinite_eq, him]
          rfl
  rw [hunfused]
  refine isNaN_neg_add ?_
  by_cases hre : a.re.isFinite = true
  · rw [Double.mul_comm]
    exact isFinite_mul_left (Bool.eq_false_iff.2 fun him => ha ⟨hre, him⟩) a.re
  · exact isFinite_mul_left (Bool.eq_false_iff.2 hre) a.im

/-- **When a number commutes with its conjugate**: the rounding error of the product of its parts
has to be lost. -/
theorem mul_conj_beq_iff : (a * a.conj == a.conj * a) = true ↔
    (a.IsFinite → (a.re * a.im).isFinite = true ∧ |productError a.re a.im| ≤ underflowEnd) := by
  rw [mul_conj_beq_iff_zero]
  by_cases ha : a.IsFinite
  · rw [forall_prop_of_true ha]
    by_cases h : (a.re * a.im).isFinite = true
    · have hrounded := ha.isRounded_mul_conj h
      rw [hrounded.isNaN, hrounded.hasValue_zero_iff, and_iff_right h]
      simp
    · have hnan := (ha.hasValue_re.isRounded_mul ha.hasValue_im).isNaN
      rw [ha.mul_conj_im h, hnan]
      refine iff_of_false ?_ fun hfinite => h hfinite.1
      rintro (hnan' | hzero)
      · cases hnan'
      · exact h hzero.finite
  · exact iff_of_true (.inl (isNaN_mul_conj ha)) fun ha' => absurd ha' ha

/-! ### Both orders -/

/-- **What exchanging the factors changes**: the real part is the same, and the imaginary part can
be rounded in another way. -/
theorem mul_exchange (a b : Complex) :
    (a * b).re = (b * a).re ∧
    (a.IsFinite → b.IsFinite →
      ((a * b == b * a) = true ↔ ∃ x, IsSum x (exact a.re * exact b.im) (a.im * b.re) ∧
        IsSum x (exact a.im * exact b.re) (a.re * b.im)) ∧
      (EqualErrors a b → (a * b == b * a) = true)) ∧
    (a * a.conj == (a.conj * a).conj) = true ∧
    ((a * a.conj == a.conj * a) = true ↔
      (a.IsFinite → (a.re * a.im).isFinite = true ∧ |productError a.re a.im| ≤ underflowEnd)) :=
  ⟨mul_re_swap a b, fun ha hb => ⟨beq_mul_swap_iff ha hb, fun h => h.beq_mul_swap ha hb⟩,
    beq_iff_same.2 (mul_conj_same a), mul_conj_beq_iff⟩

/-- A real number commutes. -/
theorem mul_exchange_real : (⟨0.1, 0.0⟩ : Complex).IsFinite ∧ (⟨0.1, 0.3⟩ : Complex).IsFinite ∧
    EqualErrors ⟨0.1, 0.0⟩ ⟨0.1, 0.3⟩ ∧
    ((⟨0.1, 0.0⟩ : Complex) * ⟨0.1, 0.3⟩ == ⟨0.1, 0.3⟩ * ⟨0.1, 0.0⟩) = true := by
  have ha : (⟨0.1, 0.0⟩ : Complex).IsFinite := ⟨by decide +kernel, by decide +kernel⟩
  have hb : (⟨0.1, 0.3⟩ : Complex).IsFinite := ⟨by decide +kernel, by decide +kernel⟩
  have hzero : exact 0.0 = 0 := (hasValue_zero (s := .positive) rfl).value
  have herrors : EqualErrors ⟨0.1, 0.0⟩ ⟨0.1, 0.3⟩ := .inr (.inl (by rw [hzero, zero_mul]))
  exact ⟨ha, hb, herrors, ((mul_exchange _ _).2.1 ha hb).2 herrors⟩

/-- **A number that does not commute with its conjugate**: the imaginary parts of the products are
opposite, and not zero. -/
theorem mul_conj_exchanged : (⟨0.1, 0.1⟩ : Complex).IsFinite ∧
    ((⟨0.1, 0.1⟩ : Complex) * (⟨0.1, 0.1⟩ : Complex).conj ==
      (⟨0.1, 0.1⟩ : Complex).conj * ⟨0.1, 0.1⟩) = false :=
  ⟨⟨by decide +kernel, by decide +kernel⟩, by decide +kernel⟩

end Calculator.Complex
