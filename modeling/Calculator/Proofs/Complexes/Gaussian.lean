import Calculator.Proofs.Complexes.Symmetries
import Calculator.Proofs.Doubles.Rounded
import Mathlib.NumberTheory.Zsqrtd.GaussianInt

/-!
# Gaussian integers

Complex numbers whose parts are integers are added, subtracted and multiplied exactly, as long as no
integer on the way is larger than `2 ^ 53`. A quotient is exact if it is a Gaussian integer: the
numerators are its parts times the norm of the divisor, which is the squared modulus.

* `IsGaussian a g`: the parts of `a` are those of the Gaussian integer `g`;
* `Bounded n g`: the parts of `g` are at most `n`;
* `IsGaussian.add`, `IsGaussian.sub`, `IsGaussian.mul`: exact operations;
* `IsGaussian.mul_div`: a product divided by a factor is the other one;
* `gaussian_laws`: the laws for integers up to `2 ^ 17`.
-/

namespace Calculator.Double

variable {x y z : Float} {i j k : ℤ}

/-! ### Integers -/

theorem HasValue.neg_int (hx : HasValue x i) : HasValue (-x) ((-i : ℤ) : ℚ) := by
  rw [Int.cast_neg]
  exact hx.neg

theorem HasValue.mul_int (hx : HasValue x i) (hy : HasValue y j) (h : (i * j).natAbs ≤ 2 ^ 53) :
    HasValue (x * y) ((i * j : ℤ) : ℚ) := by
  have hrepresentable := representable_int h
  rw [Int.cast_mul] at hrepresentable ⊢
  exact hx.mul hy hrepresentable

theorem HasValue.mulAdd_int (hx : HasValue x i) (hy : HasValue y j) (hz : HasValue z k)
    (h : (i * j + k).natAbs ≤ 2 ^ 53) : HasValue (Double.mulAdd x y z) ((i * j + k : ℤ) : ℚ) := by
  have hrepresentable := representable_int h
  rw [Int.cast_add, Int.cast_mul] at hrepresentable ⊢
  exact hx.mulAdd hy hz hrepresentable

theorem HasValue.div_int (hx : HasValue x ((i * j : ℤ) : ℚ)) (hy : HasValue y j) (hj : j ≠ 0)
    (hi : i.natAbs ≤ 2 ^ 53) : HasValue (x / y) i := by
  have hj' : (j : ℚ) ≠ 0 := Int.cast_ne_zero.2 hj
  have hquotient : ((i * j : ℤ) : ℚ) / j = i := by
    rw [Int.cast_mul, mul_div_cancel_right₀ _ hj']
  have hdiv := hx.div hy hj'
  rw [hquotient] at hdiv
  exact hdiv (representable_int hi)

end Calculator.Double

namespace Calculator.Complex

open Double (mulAdd representable_int)

variable {a b c : Complex} {g h k : GaussianInt} {l m n : Nat}

/-- **A complex number is a Gaussian integer**, whatever the signs of its zeros. -/
structure IsGaussian (a : Complex) (g : GaussianInt) : Prop where
  re : Double.HasValue a.re g.re
  im : Double.HasValue a.im g.im

/-- **The parts of a Gaussian integer** are at most `n` in absolute value. -/
structure Bounded (n : Nat) (g : GaussianInt) : Prop where
  re : g.re.natAbs ≤ n
  im : g.im.natAbs ≤ n

/-- The complex number that is a Gaussian integer. -/
def ofGaussian (g : GaussianInt) : Complex := ⟨Double.ofInt g.re, Double.ofInt g.im⟩

theorem isGaussian_ofGaussian (hg : Bounded (2 ^ 53) g) : (ofGaussian g).IsGaussian g :=
  ⟨Double.hasValue_ofInt hg.re, Double.hasValue_ofInt hg.im⟩

theorem Bounded.mono (hg : Bounded m g) (h : m ≤ n) : Bounded n g :=
  ⟨hg.re.trans h, hg.im.trans h⟩

/-! ### Sums -/

theorem Bounded.add (hg : Bounded m g) (hh : Bounded n h) : Bounded (m + n) (g + h) :=
  ⟨(Int.natAbs_add_le _ _).trans (add_le_add hg.re hh.re),
    (Int.natAbs_add_le _ _).trans (add_le_add hg.im hh.im)⟩

theorem Bounded.neg (hg : Bounded n g) : Bounded n (-g) := by
  constructor
  · rw [Zsqrtd.re_neg, Int.natAbs_neg]
    exact hg.re
  · rw [Zsqrtd.im_neg, Int.natAbs_neg]
    exact hg.im

theorem IsGaussian.neg (ha : a.IsGaussian g) : (-a).IsGaussian (-g) := by
  refine ⟨?_, ?_⟩
  · rw [Zsqrtd.re_neg]
    exact ha.re.neg_int
  · rw [Zsqrtd.im_neg]
    exact ha.im.neg_int

theorem IsGaussian.add (ha : a.IsGaussian g) (hb : b.IsGaussian h)
    (hgh : Bounded (2 ^ 53) (g + h)) : (a + b).IsGaussian (g + h) := by
  have hre := representable_int hgh.re
  have him := representable_int hgh.im
  rw [Zsqrtd.re_add, Int.cast_add] at hre
  rw [Zsqrtd.im_add, Int.cast_add] at him
  constructor
  · rw [Zsqrtd.re_add, Int.cast_add]
    exact ha.re.add hb.re hre
  · rw [Zsqrtd.im_add, Int.cast_add]
    exact ha.im.add hb.im him

theorem IsGaussian.sub (ha : a.IsGaussian g) (hb : b.IsGaussian h)
    (hgh : Bounded (2 ^ 53) (g - h)) : (a - b).IsGaussian (g - h) := by
  rw [sub_eq]
  rw [sub_eq_add_neg] at hgh ⊢
  exact ha.add hb.neg hgh

/-! ### Products -/

theorem re_mul_gaussian (g h : GaussianInt) : (g * h).re = g.re * h.re + -(g.im * h.im) := by
  rw [Zsqrtd.re_mul]
  ring

theorem norm_gaussian (h : GaussianInt) : h.norm = h.re * h.re + h.im * h.im := by
  rw [Zsqrtd.norm_def]
  ring

theorem natAbs_mul_le {i j : ℤ} (hi : i.natAbs ≤ m) (hj : j.natAbs ≤ n) :
    (i * j).natAbs ≤ m * n := by
  rw [Int.natAbs_mul]
  exact Nat.mul_le_mul hi hj

theorem natAbs_add_le_two_mul {i j : ℤ} (hi : i.natAbs ≤ n) (hj : j.natAbs ≤ n) :
    (i + j).natAbs ≤ 2 * n := by
  have := Int.natAbs_add_le i j
  omega

theorem Bounded.mul (hg : Bounded m g) (hh : Bounded n h) : Bounded (2 * (m * n)) (g * h) := by
  constructor
  · rw [re_mul_gaussian]
    refine natAbs_add_le_two_mul (natAbs_mul_le hg.re hh.re) ?_
    rw [Int.natAbs_neg]
    exact natAbs_mul_le hg.im hh.im
  · rw [Zsqrtd.im_mul]
    exact natAbs_add_le_two_mul (natAbs_mul_le hg.re hh.im) (natAbs_mul_le hg.im hh.re)

theorem Bounded.norm_le (hh : Bounded n h) : h.norm.natAbs ≤ 2 * (n * n) := by
  rw [norm_gaussian]
  exact natAbs_add_le_two_mul (natAbs_mul_le hh.re hh.re) (natAbs_mul_le hh.im hh.im)

/-- **A product is exact** if both products in each part are in the range together. -/
theorem IsGaussian.mul (ha : a.IsGaussian g) (hb : b.IsGaussian h) (hg : Bounded m g)
    (hh : Bounded n h) (hmn : 2 * (m * n) ≤ 2 ^ 53) : (a * b).IsGaussian (g * h) := by
  have hgh := (hg.mul hh).mono hmn
  have hle : m * n ≤ 2 ^ 53 := by omega
  have hre := ha.im.mul_int hb.im ((natAbs_mul_le hg.im hh.im).trans hle)
  have him := ha.im.mul_int hb.re ((natAbs_mul_le hg.im hh.re).trans hle)
  refine ⟨?_, ?_⟩
  · have hbound := hgh.re
    rw [re_mul_gaussian] at hbound ⊢
    exact ha.re.mulAdd_int hb.re hre.neg_int hbound
  · have hbound := hgh.im
    rw [Zsqrtd.im_mul] at hbound ⊢
    exact ha.re.mulAdd_int hb.im him hbound

/-! ### Quotients -/

theorem IsGaussian.squaredModulus (hb : b.IsGaussian h) (hh : Bounded n h)
    (hn : 2 * (n * n) ≤ 2 ^ 53) : Double.HasValue b.squaredModulus h.norm := by
  have hnorm := hh.norm_le.trans hn
  have hsquare := hb.im.mul_int hb.im ((natAbs_mul_le hh.im hh.im).trans (by omega))
  rw [norm_gaussian] at hnorm ⊢
  exact hb.re.mulAdd_int hb.re hsquare hnorm

theorem numerators_gaussian (g h : GaussianInt) :
    (g * h).re * h.re + (g * h).im * h.im = g.re * h.norm ∧
    (g * h).im * h.re + -((g * h).re * h.im) = g.im * h.norm := by
  rw [re_mul_gaussian, Zsqrtd.im_mul, norm_gaussian]
  constructor <;> ring

/-- **Division undoes multiplication.** -/
theorem IsGaussian.mul_div (ha : a.IsGaussian (g * h)) (hb : b.IsGaussian h) (hg : Bounded m g)
    (hh : Bounded n h) (hne : h ≠ 0) (hm : m ≤ 2 ^ 53) (hn : 2 * (n * n) ≤ 2 ^ 53)
    (hmn : 2 * (m * n) * n ≤ 2 ^ 53) : (a / b).IsGaussian g := by
  have hgh := hg.mul hh
  have hnorm := hb.squaredModulus hh hn
  have hnorm_ne : h.norm ≠ 0 := mt (Zsqrtd.norm_eq_zero_iff (by decide) h).1 hne
  have hzero : ¬(b.squaredModulus == 0.0) = true := by
    rw [hnorm.beq_zero_iff, Int.cast_eq_zero]
    exact hnorm_ne
  -- The numerators are bounded by the same number as the products that they are made of.
  have hbound {i : ℤ} (hi : i.natAbs ≤ m) : (i * h.norm).natAbs ≤ 2 ^ 53 := by
    refine (natAbs_mul_le hi hh.norm_le).trans (le_trans ?_ hmn)
    rw [mul_left_comm, mul_assoc 2, mul_assoc m]
  have hre := ha.im.mul_int hb.im ((natAbs_mul_le hgh.im hh.im).trans hmn)
  have him := (ha.re.mul_int hb.im ((natAbs_mul_le hgh.re hh.im).trans hmn)).neg_int
  obtain ⟨hleft, hright⟩ := numerators_gaussian g h
  have hre' := ha.re.mulAdd_int hb.re hre (by rw [hleft]; exact hbound hg.re)
  have him' := ha.im.mulAdd_int hb.re him (by rw [hright]; exact hbound hg.im)
  rw [hleft] at hre'
  rw [hright] at him'
  rw [div_eq_of_ne_zero hzero]
  exact ⟨hre'.div_int hnorm hnorm_ne (hg.re.trans hm), him'.div_int hnorm hnorm_ne (hg.im.trans hm)⟩

/-! ### Laws -/

theorem IsGaussian.beq (ha : a.IsGaussian g) (hb : b.IsGaussian g) : (a == b) = true :=
  beq_iff_same.2 ⟨ha.re.same hb.re, ha.im.same hb.im⟩

theorem IsGaussian.beq_zero_iff (ha : a.IsGaussian g) : (a == zero) = true ↔ g = 0 := by
  have hzero : zero.IsGaussian 0 := by
    have h : Double.HasValue 0.0 0 := Double.hasValue_zero (s := .positive) rfl
    exact ⟨by exact_mod_cast h, by exact_mod_cast h⟩
  constructor
  · intro heq
    obtain ⟨hre, him⟩ := beq_iff_same.1 heq
    have hzero_of_same {x y : Float} {i : ℤ} (hxy : Double.Same x y) (hx : Double.HasValue x i)
        (hy : Double.HasValue y 0) : i = 0 := by
      rcases hxy with rfl | ⟨hx', -⟩
      · exact_mod_cast hx.value.symm.trans hy.value
      · exact_mod_cast hx.value.symm.trans hx'.value
    exact Zsqrtd.ext (hzero_of_same hre ha.re (by exact_mod_cast hzero.re))
      (hzero_of_same him ha.im (by exact_mod_cast hzero.im))
  · rintro rfl
    exact ha.beq hzero

/-- **Gaussian integers up to `2 ^ 17` are computed exactly**: sums, differences, products, products
of three, and quotients of a product by a factor. -/
theorem gaussian_laws (ha : a.IsGaussian g) (hb : b.IsGaussian h) (hc : c.IsGaussian k)
    (hg : Bounded (2 ^ 17) g) (hh : Bounded (2 ^ 17) h) (hk : Bounded (2 ^ 17) k) :
    (a + b).IsGaussian (g + h) ∧ (a - b).IsGaussian (g - h) ∧ (a * b).IsGaussian (g * h) ∧
    (a * b == b * a) = true ∧ (a * b * c == a * (b * c)) = true ∧
    (a * (b + c) == a * b + a * c) = true ∧ (¬(b == zero) = true → (a * b / b == a) = true) := by
  have hsub := hg.add hh.neg
  rw [← sub_eq_add_neg] at hsub
  have hab := ha.mul hb hg hh (by norm_num)
  have hba := hb.mul ha hh hg (by norm_num)
  have hbc := hb.mul hc hh hk (by norm_num)
  have hac := ha.mul hc hg hk (by norm_num)
  have hassoc_left := hab.mul hc (hg.mul hh) hk (by norm_num)
  have hassoc_right := ha.mul hbc hg (hh.mul hk) (by norm_num)
  have hsum := hb.add hc ((hh.add hk).mono (by norm_num))
  have hdistrib_left := ha.mul hsum hg (hh.add hk) (by norm_num)
  have hdistrib_right := hab.add hac (((hg.mul hh).add (hg.mul hk)).mono (by norm_num))
  rw [mul_comm h g] at hba
  rw [← mul_assoc g h k] at hassoc_right
  rw [← mul_add g h k] at hdistrib_right
  refine ⟨ha.add hb ((hg.add hh).mono (by norm_num)), ha.sub hb (hsub.mono (by norm_num)), hab,
    hab.beq hba, hassoc_left.beq hassoc_right, hdistrib_left.beq hdistrib_right, fun hne => ?_⟩
  rw [hb.beq_zero_iff] at hne
  exact (hab.mul_div hb hg hh hne (by norm_num) (by norm_num) (by norm_num)).beq ha

/-- The laws at the end of their range. -/
theorem gaussian_laws_largest :
    Bounded (2 ^ 17) ⟨2 ^ 17, -2 ^ 17⟩ ∧ Bounded (2 ^ 17) ⟨-2 ^ 17, 2 ^ 17⟩ ∧
    Bounded (2 ^ 17) ⟨2 ^ 17, 1⟩ ∧
    (ofGaussian ⟨2 ^ 17, -2 ^ 17⟩ * ofGaussian ⟨-2 ^ 17, 2 ^ 17⟩ * ofGaussian ⟨2 ^ 17, 1⟩ ==
      ofGaussian ⟨2 ^ 17, -2 ^ 17⟩ * (ofGaussian ⟨-2 ^ 17, 2 ^ 17⟩ * ofGaussian ⟨2 ^ 17, 1⟩)) =
        true ∧
    (ofGaussian ⟨2 ^ 17, -2 ^ 17⟩ * ofGaussian ⟨-2 ^ 17, 2 ^ 17⟩ / ofGaussian ⟨-2 ^ 17, 2 ^ 17⟩ ==
      ofGaussian ⟨2 ^ 17, -2 ^ 17⟩) = true := by
  have hle : 2 ^ 17 ≤ 2 ^ 53 := by norm_num
  have hg : Bounded (2 ^ 17) ⟨2 ^ 17, -2 ^ 17⟩ := ⟨by decide, by decide⟩
  have hh : Bounded (2 ^ 17) ⟨-2 ^ 17, 2 ^ 17⟩ := ⟨by decide, by decide⟩
  have hk : Bounded (2 ^ 17) ⟨2 ^ 17, 1⟩ := ⟨by decide, by decide⟩
  have hvalue := isGaussian_ofGaussian (hh.mono hle)
  have hne : ¬(ofGaussian ⟨-2 ^ 17, 2 ^ 17⟩ == zero) = true := by
    rw [hvalue.beq_zero_iff]
    decide
  have hlaws := gaussian_laws (isGaussian_ofGaussian (hg.mono hle)) hvalue
    (isGaussian_ofGaussian (hk.mono hle)) hg hh hk
  exact ⟨hg, hh, hk, hlaws.2.2.2.2.1, hlaws.2.2.2.2.2.2 hne⟩

end Calculator.Complex
