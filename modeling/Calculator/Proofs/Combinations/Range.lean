import Mathlib.Data.Nat.Choose.Central
import Calculator.Proofs.Combinations
import Calculator.Proofs.Doubles.Error

/-!
# The range of combinations

Every fraction is multiplied before it is divided. So it is not the number of ways that has to be in
the range of doubles, but the last product, which is `k` times that number, where `k` is the smaller
of `r` and `n - r`. Close to the end of the range there are ways that could be represented and are
reported as an overflow.

* `fraction_cases`: one fraction overflows if its product does, else it makes three roundings;
* `partialProduct_stands`, `partialProduct_overflow`: all fractions do;
* `le_of_mul_choose_lt`: in the range there are at most 512 of them, so the roundings amount to less
  than `2 ^ -42`;
* `combination_range`: the range of combinations, up to that factor;
* `combination_overflow_early`: it ends before the range of doubles does.
-/

namespace Calculator.Combinatorics

open Double

variable {n r : Int64} {j k m N b : Nat} {x z : Float} {p : ℚ}

/-! ### One fraction -/

/-- **The product of the fraction** that follows on `j` others, before it is divided by `j + 1`. -/
def product (N j : Nat) : Nat := (j + 1) * N.choose (j + 1)

/-- **`x` stands for the ways to choose `j` of `N` things**, with three roundings for each
fraction. -/
def Stands (x : Float) (N j : Nat) : Prop :=
  ∃ p, HasValue x p ∧ Within (3 * j) p (N.choose j)

theorem stands_zero (N : Nat) : Stands 1.0 N 0 := by
  refine ⟨(1 : Nat), hasValue_one, ?_⟩
  rw [Nat.choose_zero_right]
  exact within_refl _

theorem product_eq (N j : Nat) : (product N j : ℚ) = N.choose j * (N - j : Nat) := by
  unfold product
  rw [Nat.mul_comm, Nat.choose_succ_right_eq, Nat.cast_mul]

theorem one_le_product (hj : j < N) : (1 : ℚ) ≤ product N j := by
  have hpos : 0 < product N j := Nat.mul_pos (Nat.succ_pos j) (Nat.choose_pos hj)
  exact_mod_cast hpos

theorem exists_numerator (hN : n.toInt = N) (hj : j < N) :
    ∃ p, HasValue (numerator n j) p ∧ Within 1 p (N - j : Nat) := by
  have hlt := Int64.toInt_lt n
  have hdiff : n.toInt - j = (N - j : Nat) := by omega
  rw [numerator_eq (by omega), hdiff]
  exact exists_ofInt (by omega) (by omega)

theorem numerator_cases {c : ℚ} (hN : n.toInt = N) (hj : j < N) (hk : k < 2 ^ 52) (hc : 1 ≤ c)
    (hx : HasValue x p) (hp : Within k p c) :
    ∃ q, Within (k + 1) q (c * (N - j : Nat)) ∧
      ((rangeEnd ≤ q ∧ x * numerator n j = infinity) ∨
        q < rangeEnd ∧ ∃ r, HasValue (x * numerator n j) r ∧
          Within (k + 2) r (c * (N - j : Nat))) := by
  obtain ⟨f, hf, hf'⟩ := exists_numerator hN hj
  have hfactor : (1 : ℚ) ≤ (N - j : Nat) := by exact_mod_cast (show 1 ≤ N - j by omega)
  have hppos := hp.half_le hc (by omega)
  have hfpos := hf'.half_le hfactor (by decide)
  have hwithin := hp.mul hf' (by linarith) (by linarith)
  have hlow := hwithin.half_le (one_le_mul_of_one_le_of_one_le hc hfactor) (by omega)
  have hrounds := hx.rounds_mul hf (by linarith) (by linarith)
  refine ⟨p * f, hwithin, (hrounds.cases_within hlow).imp_right ?_⟩
  rintro ⟨hlt, r, hr, hr'⟩
  exact ⟨hlt, r, hr, hwithin.trans hr'⟩

theorem stands_quotient (hN : n.toInt = N) (hj : j < N) (hsmall : j < 2 ^ 50) (hz : HasValue z p)
    (hp : Within (3 * j + 2) p (product N j)) :
    ∃ y, checked (z / denominator j) = .ok y ∧ Stands y N (j + 1) := by
  have hdenominator := hasValue_denominator (n := n) (j := j) (by omega) (by omega)
  have hdiv : (0 : ℚ) < (j + 1 : Nat) := by positivity
  have hquotient : (product N j : ℚ) / (j + 1 : Nat) = N.choose (j + 1) := by
    unfold product
    rw [Nat.cast_mul, mul_div_cancel_left₀ _ hdiv.ne']
  have hone : (1 : ℚ) ≤ N.choose (j + 1) := by exact_mod_cast Nat.choose_pos hj
  have hpos : 0 < p := by
    have := hp.half_le (one_le_product hj) (by omega)
    linarith
  have hwithin := hp.div_const hdiv
  rw [hquotient] at hwithin
  have hrounds := hz.rounds_div hdenominator hpos hdiv
  rcases hrounds.cases_within (hwithin.half_le hone (by omega)) with ⟨hend, -⟩ | ⟨-, q, hq, hq'⟩
  · have hle : p / (j + 1 : Nat) ≤ p := div_le_self hpos.le (by exact_mod_cast Nat.succ_pos j)
    have := hz.le_largest
    have := largest_lt_rangeEnd
    linarith
  · exact ⟨_, hq.checked_eq, q, hq, hwithin.trans hq'⟩

/-- **One fraction overflows if its product does**, and else it makes three roundings. -/
theorem fraction_cases (hN : n.toInt = N) (hj : j < N) (hsmall : j < 2 ^ 50)
    (hx : Stands x N j) :
    ∃ q, Within (3 * j + 1) q (product N j) ∧
      ((rangeEnd ≤ q ∧ checked (x * numerator n j / denominator j) = .error .overflow) ∨
        q < rangeEnd ∧
          ∃ y, checked (x * numerator n j / denominator j) = .ok y ∧ Stands y N (j + 1)) := by
  obtain ⟨p, hp, hp'⟩ := hx
  have hchoices : (1 : ℚ) ≤ N.choose j := by exact_mod_cast Nat.choose_pos hj.le
  obtain ⟨q, hq, hcases⟩ := numerator_cases hN hj (by omega) hchoices hp hp'
  rw [← product_eq] at hq hcases
  refine ⟨q, hq, ?_⟩
  rcases hcases with ⟨hend, hinfinity⟩ | ⟨hlt, r, hr, hr'⟩
  · have hdenominator := hasValue_denominator (n := n) (j := j) (by omega) (by omega)
    rw [hinfinity, hdenominator.infinity_div (by positivity)]
    exact .inl ⟨hend, rfl⟩
  · exact .inr ⟨hlt, stands_quotient hN hj hsmall hr hr'⟩

/-! ### All fractions -/

theorem partialProduct_error (h : partialProduct n j = .error .overflow) (hjk : j ≤ k) :
    partialProduct n k = .error .overflow := by
  induction k, hjk using Nat.le_induction with
  | base => exact h
  | succ k _ ih =>
    rw [partialProduct_succ, ih]
    rfl

/-- **After `j` fractions there is an overflow, or the accumulator stands for the ways to choose `j`
things.** -/
theorem partialProduct_cases (hN : n.toInt = N) (hj : j ≤ N) (hsmall : j ≤ 2 ^ 50) :
    partialProduct n j = .error .overflow ∨ ∃ x, partialProduct n j = .ok x ∧ Stands x N j := by
  induction j with
  | zero => exact .inr ⟨1.0, rfl, stands_zero N⟩
  | succ j ih =>
    rcases ih (by omega) (by omega) with herror | ⟨x, hx, hstands⟩
    · exact .inl (partialProduct_error herror (Nat.le_succ j))
    · rw [partialProduct_succ, hx]
      obtain ⟨q, -, ⟨-, hover⟩ | ⟨-, hnext⟩⟩ := fraction_cases hN hj hsmall hstands
      · exact .inl hover
      · exact .inr hnext

/-- **Nothing overflows** if no product can be rounded up to the end of the range. -/
theorem partialProduct_stands (hN : n.toInt = N) (hj : j ≤ N) (hsmall : j ≤ 2 ^ 50)
    (hfit : ∀ i < j, product N i * (1 + roundoff) ^ (3 * i + 1) < rangeEnd) :
    ∃ x, partialProduct n j = .ok x ∧ Stands x N j := by
  induction j with
  | zero => exact ⟨1.0, rfl, stands_zero N⟩
  | succ j ih =>
    obtain ⟨x, hx, hstands⟩ := ih (by omega) (by omega) fun i hi => hfit i (by omega)
    rw [partialProduct_succ, hx]
    obtain ⟨q, hq, ⟨hend, -⟩ | ⟨-, hnext⟩⟩ := fraction_cases hN hj hsmall hstands
    · have := hq.le.trans_lt (hfit j (Nat.lt_succ_self j))
      exact absurd hend this.not_ge
    · exact hnext

/-- **A product overflows** if it cannot be rounded down into the range. -/
theorem partialProduct_overflow (hN : n.toInt = N) (hj : j < N) (hsmall : j < 2 ^ 50)
    (hlarge : rangeEnd ≤ product N j * (1 - roundoff) ^ (3 * j + 1)) (hjk : j < k) :
    partialProduct n k = .error .overflow := by
  refine partialProduct_error ?_ hjk
  rcases partialProduct_cases hN hj.le hsmall.le with herror | ⟨x, hx, hstands⟩
  · exact partialProduct_error herror (Nat.le_succ j)
  · rw [partialProduct_succ, hx]
    obtain ⟨q, hq, ⟨-, hover⟩ | ⟨hlt, -⟩⟩ := fraction_cases hN hj hsmall hstands
    · exact hover
    · exact absurd (hlarge.trans hq.ge) hlt.not_ge

/-! ### How many fractions there are -/

/-- **There are few fractions in the range**: the middle ways to choose grow like powers of four. -/
theorem le_of_mul_choose_lt (h : 2 * k ≤ N) (hlt : k * N.choose k < 2 ^ (2 * b + 1)) : k ≤ b := by
  rcases Nat.eq_zero_or_pos k with rfl | hk
  · exact Nat.zero_le b
  · have hcentral : k.centralBinom ≤ N.choose k := by
      rw [Nat.centralBinom_eq_two_mul_choose]
      exact Nat.choose_le_choose k h
    have hpow : 2 ^ (2 * k) < 2 ^ (2 * b + 2) := by
      calc 2 ^ (2 * k) = 4 ^ k := Nat.pow_mul 2 2 k
        _ ≤ 2 * k * k.centralBinom := Nat.four_pow_le_two_mul_self_mul_centralBinom k hk
        _ ≤ 2 * k * N.choose k := Nat.mul_le_mul_left _ hcentral
        _ = 2 * (k * N.choose k) := Nat.mul_assoc ..
        _ < 2 * 2 ^ (2 * b + 1) := Nat.mul_lt_mul_of_pos_left hlt two_pos
        _ = 2 ^ (2 * b + 2) := (Nat.pow_succ' ..).symm
    have := (Nat.pow_lt_pow_iff_right (by decide)).1 hpow
    omega

/-! ### How many roundings there are

Each of the 512 fractions makes three, and the product of the next one makes one more before it is
rounded itself. So 1537 of them are counted. -/

/-- **What the roundings of all fractions amount to** at most. -/
def tolerance : ℚ := 1 / 2 ^ 42

theorem tolerance_pos : 0 < tolerance := by
  unfold tolerance
  positivity

theorem rangeEnd_le : rangeEnd ≤ largest * (1 + tolerance) * (1 - 1537 / 2 ^ 53) := by
  have hunit : (0 : ℚ) ≤ 2 ^ (971 : Int) := by positivity
  unfold rangeEnd largest tolerance
  rw [mul_assoc _ (1 + _), mul_right_comm]
  refine mul_le_mul_of_nonneg_right ?_ hunit
  norm_num

theorem mul_roundoff_le (hm : m ≤ 1537) : m * roundoff ≤ 1537 / 2 ^ 53 := by
  have hm' : (m : ℚ) ≤ 1537 := by exact_mod_cast hm
  unfold roundoff
  linarith

theorem one_add_pow_le (hm : m ≤ 1537) : (1 + roundoff) ^ m ≤ 1 + tolerance := by
  have hroundings := mul_roundoff_le hm
  have hpos : (0 : ℚ) < 1 - m * roundoff := by linarith
  refine le_of_mul_le_mul_right ((one_add_pow_mul_le m).trans ?_) hpos
  calc (1 : ℚ) ≤ (1 + tolerance) * (1 - 1537 / 2 ^ 53) := by
        unfold tolerance
        norm_num
    _ ≤ (1 + tolerance) * (1 - m * roundoff) := by
        unfold tolerance
        gcongr

theorem le_one_sub_pow_of_le (hm : m ≤ 1537) : 1 - 1537 / 2 ^ 53 ≤ (1 - roundoff) ^ m := by
  have := mul_roundoff_le hm
  have := le_one_sub_pow m
  linarith

theorem lt_two_pow_of_lt (h : (m : ℚ) < largest * (1 + tolerance)) : m < 2 ^ (2 * 512 + 1) := by
  have hlt : (m : ℚ) < 2 ^ ((2 * 512 + 1 : Nat) : Int) := by
    calc (m : ℚ) < largest * (1 + tolerance) := h
      _ = (2 ^ 53 - 1) * (1 + tolerance) * 2 ^ (971 : Int) := mul_right_comm ..
      _ ≤ 2 ^ (54 : Int) * 2 ^ (971 : Int) := by
        unfold tolerance
        gcongr
        norm_num
      _ = 2 ^ ((54 : Int) + 971) := (zpow_add₀ two_ne_zero ..).symm
  rw [zpow_natCast] at hlt
  exact_mod_cast hlt

theorem abs_sub_le_of_within {q : ℚ} (h : Within m p q) (hq : 0 ≤ q) (hm : m ≤ 1537) :
    |p - q| ≤ q * tolerance := by
  have hlow : 1 - tolerance ≤ (1 - roundoff) ^ m := by
    refine le_trans ?_ (le_one_sub_pow_of_le hm)
    unfold tolerance
    norm_num
  have hge : q * (1 - tolerance) ≤ p := (mul_le_mul_of_nonneg_left hlow hq).trans h.ge
  have hle : p ≤ q * (1 + tolerance) :=
    h.le.trans (mul_le_mul_of_nonneg_left (one_add_pow_le hm) hq)
  rw [abs_le]
  constructor <;> linarith

/-! ### Combinations -/

theorem partialProduct_of_le (hN : n.toInt = N) (h : 2 * k ≤ N)
    (hfit : (k * N.choose k : Nat) * (1 + tolerance) ≤ largest) :
    ∃ v, partialProduct n k = .ok v ∧
      ∃ p, HasValue v p ∧ |p - N.choose k| ≤ N.choose k * tolerance := by
  have hk : k ≤ 512 := by
    refine le_of_mul_choose_lt h (lt_two_pow_of_lt ?_)
    have hone : 1 < 1 + tolerance := lt_add_of_pos_right 1 tolerance_pos
    calc ((k * N.choose k : Nat) : ℚ) ≤ (k * N.choose k : Nat) * (1 + tolerance) :=
          le_mul_of_one_le_right (Nat.cast_nonneg _) hone.le
      _ ≤ largest := hfit
      _ < largest * (1 + tolerance) := lt_mul_of_one_lt_right largest_pos hone
  have hproducts : ∀ i < k, product N i * (1 + roundoff) ^ (3 * i + 1) < rangeEnd := by
    intro i hi
    have hmono : (product N i : ℚ) ≤ (k * N.choose k : Nat) := by
      exact_mod_cast mul_choose_mono h hi
    have hunit := roundoff_pos
    calc product N i * (1 + roundoff) ^ (3 * i + 1)
        ≤ (k * N.choose k : Nat) * (1 + tolerance) :=
          mul_le_mul hmono (one_add_pow_le (by omega)) (by positivity) (Nat.cast_nonneg _)
      _ ≤ largest := hfit
      _ < rangeEnd := largest_lt_rangeEnd
  obtain ⟨v, hv, p, hp, hwithin⟩ := partialProduct_stands hN (by omega) (by omega) hproducts
  exact ⟨v, hv, p, hp, abs_sub_le_of_within hwithin (Nat.cast_nonneg _) (by omega)⟩

/-- **Combinations out of the range** are overflows, the first product that is out of it being one
of the first 513. -/
theorem partialProduct_of_ge (hN : n.toInt = N) (h : 2 * k ≤ N)
    (hlarge : largest * (1 + tolerance) ≤ (k * N.choose k : Nat)) :
    partialProduct n k = .error .overflow := by
  have hproduct : ∃ j < k, j ≤ 512 ∧ largest * (1 + tolerance) ≤ product N j := by
    rcases Nat.lt_or_ge 512 k with hmany | hfew
    · refine ⟨512, hmany, le_rfl, not_lt.1 fun hlt => ?_⟩
      have := le_of_mul_choose_lt (k := 513) (by omega) (lt_two_pow_of_lt hlt)
      omega
    · cases k with
      | zero =>
        have hpos : 0 < largest * (1 + tolerance) :=
          mul_pos largest_pos (add_pos one_pos tolerance_pos)
        rw [Nat.zero_mul, Nat.cast_zero] at hlarge
        exact absurd hlarge hpos.not_ge
      | succ j => exact ⟨j, Nat.lt_succ_self j, by omega, hlarge⟩
  obtain ⟨j, hjk, hj, hproduct⟩ := hproduct
  refine partialProduct_overflow hN (by omega) (by omega) ?_ hjk
  calc rangeEnd ≤ largest * (1 + tolerance) * (1 - 1537 / 2 ^ 53) := rangeEnd_le
    _ ≤ product N j * (1 - roundoff) ^ (3 * j + 1) :=
        mul_le_mul hproduct (le_one_sub_pow_of_le (by omega)) (by norm_num) (Nat.cast_nonneg _)

/-- **The range of combinations.** Let `k` be the smaller of `r` and `n - r`. If `k` times the number
of ways is in the range of doubles, then so is the result, and it differs from the number of ways by
at most the tolerance; if not, then the result is an overflow. The range is known up to the
tolerance. -/
theorem combination_range (hr : 0 ≤ r) (hrn : r ≤ n) :
    ((fractions n r * choices n r : Nat) * (1 + tolerance) ≤ largest →
      ∃ v, combination n r = .ok v ∧
        ∃ p, HasValue v p ∧ |p - choices n r| ≤ choices n r * tolerance) ∧
    (largest * (1 + tolerance) ≤ (fractions n r * choices n r : Nat) →
      combination n r = .error .overflow) := by
  have hN := toInt_eq_toNat hr hrn
  obtain ⟨hhalf, hchoices⟩ := choices_eq hr hrn
  rw [combination_eq hr hrn, hchoices]
  exact ⟨partialProduct_of_le hN hhalf, partialProduct_of_ge hN hhalf⟩

/-- Both sides of the range. -/
theorem combination_range_sixty :
    ((0 : Int64) ≤ 30 ∧ (30 : Int64) ≤ 60 ∧
      ∃ v, combination 60 30 = .ok v ∧
        ∃ p, HasValue v p ∧ |p - choices 60 30| ≤ choices 60 30 * tolerance) ∧
    (0 : Int64) ≤ 1000 ∧ (1000 : Int64) ≤ 2000 ∧ combination 2000 1000 = .error .overflow := by
  refine ⟨⟨by decide, by decide, (combination_range (by decide) (by decide)).1 ?_⟩,
    by decide, by decide, (combination_range (by decide) (by decide)).2 ?_⟩
  · have hways : choices 60 30 = 118264581564861424 := by
      show Nat.choose 60 30 = _
      rw [Nat.choose_eq_descFactorial_div_factorial]
      norm_num
    have hfractions : fractions 60 30 = 30 := by decide
    rw [hways, hfractions]
    calc ((30 * 118264581564861424 : Nat) : ℚ) * (1 + tolerance) ≤ 2 ^ 64 := by
          unfold tolerance
          norm_num
      _ ≤ largest := two_pow_le_largest
  · have hways : choices 2000 1000 = Nat.choose 2000 1000 := rfl
    have hfractions : fractions 2000 1000 = 1000 := by decide
    rw [hways, hfractions]
    refine not_lt.1 fun hlt => ?_
    have := le_of_mul_choose_lt (by decide) (lt_two_pow_of_lt hlt)
    omega

/-- **The range ends early**: there are fewer ways to choose 514 of 1029 things than the largest
double, and they are reported as an overflow. -/
theorem combination_overflow_early :
    (0 : Int64) ≤ 514 ∧ (514 : Int64) ≤ 1029 ∧ (choices 1029 514 : ℚ) ≤ largest ∧
      combination 1029 514 = .error .overflow := by
  have hways : Nat.choose 1029 514 = Nat.descFactorial 1029 514 / Nat.factorial 514 :=
    Nat.choose_eq_descFactorial_div_factorial 1029 514
  have hrange : Nat.choose 1029 514 ≤ (2 ^ 53 - 1) * 2 ^ 971 := by
    rw [hways]
    decide +kernel
  have hproduct : 2 ^ (2 * 512 + 1) ≤ 514 * Nat.choose 1029 514 := by
    rw [hways]
    decide +kernel
  have hchoices : choices 1029 514 = Nat.choose 1029 514 := rfl
  have hfractions : fractions 1029 514 = 514 := by decide
  refine ⟨by decide, by decide, ?_, ?_⟩
  · rw [largest_eq, hchoices]
    exact_mod_cast hrange
  · rw [combination_eq (by decide) (by decide), hfractions]
    refine partialProduct_of_ge (N := 1029) rfl (by decide) (not_lt.1 fun hlt => ?_)
    exact absurd (lt_two_pow_of_lt hlt) hproduct.not_gt

end Calculator.Combinatorics
