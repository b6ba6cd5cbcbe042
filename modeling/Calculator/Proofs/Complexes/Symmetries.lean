import Calculator.Complex.Order
import Calculator.Proofs.Doubles.Symmetry

/-!
# Signs and conjugates of complex numbers

Negation and conjugation only change signs, and rounding treats both signs alike. So they can be
exchanged with the operations, for all doubles: also where a product overflows, a part is NaN or a
sum cancels. Two numbers are equal in the sense of sorting: NaN equals NaN, and the sign of a zero
does not count.

* `beq_iff_same`: equality of complex numbers is equality of doubles in both parts;
* `neg_mul_same`, `conj_mul_same`: products;
* `conj_div_same`, `neg_div_same`: quotients by a number that does not count as zero;
* `sign_symmetries`: all of these laws.
-/

namespace Calculator.Complex

open Double (mulAdd mulAdd_neg_left mulAdd_neg_same neg_add_same sameTotal_iff sub_eq_add)

variable {a b c : Complex}

/-! ### Equality -/

/-- **Equal in both parts**, up to the signs of zeros. -/
structure Same (a b : Complex) : Prop where
  re : Double.Same a.re b.re
  im : Double.Same a.im b.im

theorem Same.symm (h : Same a b) : Same b a := ⟨h.re.symm, h.im.symm⟩

theorem Same.trans (h : Same a b) (h' : Same b c) : Same a c :=
  ⟨h.re.trans h'.re, h.im.trans h'.im⟩

theorem same_of_eq (h : a = b) : Same a b := ⟨.inl (congrArg re h), .inl (congrArg im h)⟩

theorem beq_iff_same : (a == b) = true ↔ Same a b := by
  show (Double.sameTotal a.re b.re && Double.sameTotal a.im b.im) = true ↔ _
  rw [Bool.and_eq_true, sameTotal_iff, sameTotal_iff]
  exact ⟨fun ⟨hre, him⟩ => ⟨hre, him⟩, fun h => ⟨h.re, h.im⟩⟩

/-! ### Sums -/

theorem add_swap (a b : Complex) : a + b = b + a :=
  congrArg₂ mk (Double.add_comm a.re b.re) (Double.add_comm a.im b.im)

theorem sub_eq (a b : Complex) : a - b = a + -b :=
  congrArg₂ mk (sub_eq_add a.re b.re) (sub_eq_add a.im b.im)

theorem conj_add_same (a b : Complex) : Same (a + b).conj (a.conj + b.conj) :=
  ⟨.refl _, (neg_add_same a.im b.im).symm⟩

/-! ### Products -/

theorem neg_mul_eq (a b : Complex) : -a * b = a * -b := by
  have hproduct (x y : Float) : -x * y = x * -y := by rw [Double.neg_mul, Double.mul_neg]
  have hre : mulAdd (-a.re) b.re (-(-a.im * b.im)) = mulAdd a.re (-b.re) (-(a.im * -b.im)) := by
    rw [mulAdd_neg_left, hproduct]
  have him : mulAdd (-a.re) b.im (-a.im * b.re) = mulAdd a.re (-b.im) (a.im * -b.re) := by
    rw [mulAdd_neg_left, hproduct]
  exact congrArg₂ mk hre him

theorem neg_mul_same (a b : Complex) : Same (-a * b) (-(a * b)) := by
  constructor
  · show Double.Same (mulAdd (-a.re) b.re (-(-a.im * b.im))) (-mulAdd a.re b.re (-(a.im * b.im)))
    rw [Double.neg_mul]
    exact mulAdd_neg_same _ _ _
  · show Double.Same (mulAdd (-a.re) b.im (-a.im * b.re)) (-mulAdd a.re b.im (a.im * b.re))
    rw [Double.neg_mul]
    exact mulAdd_neg_same _ _ _

theorem conj_mul_same (a b : Complex) : Same (a * b).conj (a.conj * b.conj) := by
  constructor
  · show Double.Same (mulAdd a.re b.re (-(a.im * b.im))) (mulAdd a.re b.re (-(-a.im * -b.im)))
    rw [Double.neg_mul, Double.mul_neg, Double.neg_neg]
    exact .refl _
  · show Double.Same (-mulAdd a.re b.im (a.im * b.re)) (mulAdd a.re (-b.im) (-a.im * b.re))
    rw [Double.neg_mul, ← mulAdd_neg_left]
    exact (mulAdd_neg_same _ _ _).symm

/-! ### Quotients -/

theorem squaredModulus_conj (b : Complex) : b.conj.squaredModulus = b.squaredModulus := by
  show mulAdd b.re b.re (-b.im * -b.im) = mulAdd b.re b.re (b.im * b.im)
  rw [Double.neg_mul, Double.mul_neg, Double.neg_neg]

theorem div_eq_of_ne_zero (hb : ¬(b.squaredModulus == 0.0) = true) (a : Complex) :
    a / b = ⟨mulAdd a.re b.re (a.im * b.im) / b.squaredModulus,
      mulAdd a.im b.re (-(a.re * b.im)) / b.squaredModulus⟩ := if_neg hb

theorem conj_div_same (hb : ¬(b.squaredModulus == 0.0) = true) (a : Complex) :
    Same (a / b).conj (a.conj / b.conj) := by
  have hb' : ¬(b.conj.squaredModulus == 0.0) = true := by rwa [squaredModulus_conj]
  rw [div_eq_of_ne_zero hb, div_eq_of_ne_zero hb', squaredModulus_conj]
  constructor
  · show Double.Same (mulAdd a.re b.re (a.im * b.im) / _)
      (mulAdd a.re b.re (-a.im * -b.im) / _)
    rw [Double.neg_mul, Double.mul_neg, Double.neg_neg]
    exact .refl _
  · show Double.Same (-(mulAdd a.im b.re (-(a.re * b.im)) / _))
      (mulAdd (-a.im) b.re (-(a.re * -b.im)) / _)
    rw [Double.mul_neg, ← Double.neg_div]
    exact (mulAdd_neg_same _ _ _).symm.div hb

theorem neg_div_same (hb : ¬(b.squaredModulus == 0.0) = true) (a : Complex) :
    Same (-a / b) (-(a / b)) := by
  rw [div_eq_of_ne_zero hb, div_eq_of_ne_zero hb]
  constructor
  · show Double.Same (mulAdd (-a.re) b.re (-a.im * b.im) / _)
      (-(mulAdd a.re b.re (a.im * b.im) / _))
    rw [Double.neg_mul, ← Double.neg_div]
    exact (mulAdd_neg_same _ _ _).div hb
  · show Double.Same (mulAdd (-a.im) b.re (-(-a.re * b.im)) / _)
      (-(mulAdd a.im b.re (-(a.re * b.im)) / _))
    rw [Double.neg_mul, ← Double.neg_div]
    exact (mulAdd_neg_same _ _ _).div hb

/-! ### All laws -/

/-- **Negation and conjugation are exchanged with the operations**, for all doubles, as long as a
divisor does not count as zero. -/
theorem sign_symmetries (a b : Complex) :
    (a + b == b + a) = true ∧ (a - b == a + -b) = true ∧
    (-a * b == a * -b) = true ∧ (a * -b == -(a * b)) = true ∧
    ((a + b).conj == a.conj + b.conj) = true ∧ ((a * b).conj == a.conj * b.conj) = true ∧
    (¬(b.squaredModulus == 0.0) = true →
      ((a / b).conj == a.conj / b.conj) = true ∧ (-a / b == -(a / b)) = true) := by
  simp only [beq_iff_same]
  refine ⟨same_of_eq (add_swap a b), same_of_eq (sub_eq a b), same_of_eq (neg_mul_eq a b), ?_,
    conj_add_same a b, conj_mul_same a b, fun hb => ⟨conj_div_same hb a, neg_div_same hb a⟩⟩
  exact (same_of_eq (neg_mul_eq a b)).symm.trans (neg_mul_same a b)

/-- A quotient with a NaN and an infinity, whose divisor does not count as zero. -/
theorem sign_symmetries_infinite :
    ¬((⟨0.0, Double.infinity⟩ : Complex).squaredModulus == 0.0) = true ∧
    ((⟨Double.nan, 1.0⟩ / ⟨0.0, Double.infinity⟩ : Complex).conj ==
      ⟨Double.nan, -1.0⟩ / ⟨0.0, -Double.infinity⟩) = true := by
  have hb : ¬((⟨0.0, Double.infinity⟩ : Complex).squaredModulus == 0.0) = true := by decide
  exact ⟨hb, ((sign_symmetries ⟨Double.nan, 1.0⟩ ⟨0.0, Double.infinity⟩).2.2.2.2.2.2 hb).1⟩

end Calculator.Complex
