import Mathlib.Data.Nat.Choose.Basic
import Calculator.Whole
import Calculator.Proofs.Doubles.Exactness

/-!
# Combinations are exact while they fit

The ways to choose `r` of `n` things are computed by `k` multiplications and divisions, where `k` is
the smaller of `r` and `n - r`. After `j` of them the accumulator stands for the ways to choose `j`
things, and in between for `j + 1` times those of `j + 1`: both are integers, and up to the middle
both grow.

* `partialProduct n j`: the accumulator after `j` fractions (`partialProduct_succ`,
  `combination_eq`);
* `mul_choose_mono`: the intermediate products grow;
* `combination_exact`: if the last of them is at most `2 ^ 53`, nothing is rounded.
-/

namespace Calculator.Combinatorics

open Double (HasValue hasValue_ofNat representable_nat)

variable {n r : Int64} {j k N : Nat} {x : Float}

/-! ### The loop -/

/-- **The accumulator after `j` fractions.** -/
def partialProduct (n : Int64) (j : Nat) : Outcome Float := binomialProduct n 1.0 0 j

/-- The numerator and the denominator of the fraction that follows on `j` others. -/
def numerator (n : Int64) (j : Nat) : Float := Double.ofInt (n - .ofNat j).toInt

def denominator (j : Nat) : Float := Double.ofInt (Int64.ofNat j + 1).toInt

/-- The number of fractions: the smaller of `r` and `n - r`. -/
def fractions (n r : Int64) : Nat := min r.toInt.toNat (n.toInt - r.toInt).toNat

/-- **The number of ways** to choose `r` of `n` things. -/
def choices (n r : Int64) : Nat := n.toInt.toNat.choose r.toInt.toNat

theorem binomialProduct_succ (n : Int64) (acc : Float) (i : Int64) (j : Nat) :
    binomialProduct n acc i (j + 1) = binomialProduct n acc i j >>= fun x =>
      checked (x * Double.ofInt (n - (i + .ofNat j)).toInt /
        Double.ofInt (i + .ofNat j + 1).toInt) := by
  induction j generalizing acc i with
  | zero =>
    have hi : i + .ofNat 0 = i := Int64.add_zero i
    rw [hi]
    show checked _ >>= Except.ok = checked _
    cases checked _ <;> rfl
  | succ j ih =>
    have hi : i + .ofNat (j + 1) = i + 1 + .ofNat j := by
      rw [Int64.ofNat_add, Int64.add_comm (.ofNat j), ← Int64.add_assoc]
      rfl
    rw [binomialProduct, binomialProduct, bind_assoc, hi]
    congr 1
    funext next
    exact ih next (i + 1)

theorem partialProduct_succ (n : Int64) (j : Nat) :
    partialProduct n (j + 1) = partialProduct n j >>= fun x =>
      checked (x * numerator n j / denominator j) := by
  unfold partialProduct
  rw [binomialProduct_succ, Int64.zero_add]
  rfl

/-- The terms of the fractions are integers: no subtraction wraps around. -/
theorem numerator_eq (h : (j : Int) ≤ n.toInt) : numerator n j = Double.ofInt (n.toInt - j) := by
  have hlt := Int64.toInt_lt n
  unfold numerator
  rw [Int64.toInt_sub, Int64.toInt_ofNat_of_lt (by omega), Int.bmod_eq_of_le (by omega) (by omega)]

theorem denominator_eq (h : (j : Int) < n.toInt) :
    denominator j = Double.ofInt (j + 1 : Nat) := by
  have hlt := Int64.toInt_lt n
  have hnat : (Int64.ofNat (j + 1)).toInt = (j + 1 : Nat) := Int64.toInt_ofNat_of_lt (by omega)
  rw [Int64.ofNat_add] at hnat
  unfold denominator
  rw [← hnat]
  rfl

theorem toInt_nonneg (hr : 0 ≤ r) : 0 ≤ r.toInt := by
  simpa using Int64.le_iff_toInt_le.1 hr

theorem toInt_eq_toNat (hr : 0 ≤ r) (hrn : r ≤ n) : n.toInt = n.toInt.toNat := by
  have hr' := toInt_nonneg hr
  have hrn' := Int64.le_iff_toInt_le.1 hrn
  omega

theorem toInt_sub_of_le (hr : 0 ≤ r) (hrn : r ≤ n) : (n - r).toInt = n.toInt - r.toInt := by
  have hr' := toInt_nonneg hr
  have hrn' := Int64.le_iff_toInt_le.1 hrn
  have hlt := Int64.toInt_lt n
  rw [Int64.toInt_sub, Int.bmod_eq_of_le (by omega) (by omega)]

theorem guard_eq_false_iff :
    (decide (n < 0) || decide (r < 0) || decide (n < r)) = false ↔ 0 ≤ r ∧ r ≤ n := by
  have hzero : Int64.toInt 0 = 0 := rfl
  simp only [Int64.lt_iff_toInt_lt, Int64.le_iff_toInt_le, hzero, Bool.or_eq_false_iff,
    decide_eq_false_iff_not]
  omega

theorem toInt_min_sub (hr : 0 ≤ r) (hrn : r ≤ n) :
    (min r (n - r)).toInt = min r.toInt (n.toInt - r.toInt) := by
  rw [← toInt_sub_of_le hr hrn]
  show (if r ≤ n - r then r else n - r).toInt = _
  by_cases hle : r ≤ n - r
  · rw [if_pos hle, min_eq_left (Int64.le_iff_toInt_le.1 hle)]
  · rw [if_neg hle, min_eq_right (Int.le_of_lt (Int.not_le.1 (mt Int64.le_iff_toInt_le.2 hle)))]

theorem combination_eq (hr : 0 ≤ r) (hrn : r ≤ n) :
    combination n r = partialProduct n (fractions n r) := by
  have hr' := toInt_nonneg hr
  have hrn' := Int64.le_iff_toInt_le.1 hrn
  unfold combination partialProduct fractions
  rw [guard_eq_false_iff.2 ⟨hr, hrn⟩, if_neg Bool.false_ne_true, toInt_min_sub hr hrn]
  congr 1
  omega

theorem choices_eq (hr : 0 ≤ r) (hrn : r ≤ n) :
    2 * fractions n r ≤ n.toInt.toNat ∧
      choices n r = n.toInt.toNat.choose (fractions n r) := by
  have hr' := toInt_nonneg hr
  have hrn' := Int64.le_iff_toInt_le.1 hrn
  unfold choices fractions
  refine ⟨by omega, ?_⟩
  rcases le_total r.toInt.toNat (n.toInt - r.toInt).toNat with hle | hle
  · rw [min_eq_left hle]
  · have hothers : (n.toInt - r.toInt).toNat = n.toInt.toNat - r.toInt.toNat := by omega
    rw [min_eq_right hle, hothers, Nat.choose_symm (by omega)]

/-! ### The intermediate products -/

/-- **Up to the middle the intermediate products grow.** -/
theorem mul_choose_mono (h : 2 * k ≤ N) (hjk : j ≤ k) : j * N.choose j ≤ k * N.choose k := by
  induction k, hjk using Nat.le_induction with
  | base => exact le_rfl
  | succ k _ ih =>
    have hgrow := Nat.choose_le_succ_of_lt_half_left (r := k) (n := N) (by omega)
    calc j * N.choose j ≤ k * N.choose k := ih (by omega)
      _ ≤ (k + 1) * N.choose (k + 1) := Nat.mul_le_mul (Nat.le_succ k) hgrow

theorem le_mul_choose (h : 2 * k ≤ N) (hk : 0 < k) : N ≤ k * N.choose k := by
  have hone := mul_choose_mono h hk
  rwa [Nat.choose_one_right, Nat.one_mul] at hone

/-! ### The fractions -/

theorem hasValue_one : HasValue 1.0 (1 : Nat) := hasValue_ofNat (n := 1) (by decide)

theorem hasValue_denominator (hj : (j : Int) < n.toInt) (h : j < 2 ^ 53) :
    HasValue (denominator j) (j + 1 : Nat) := by
  rw [denominator_eq hj]
  exact hasValue_ofNat (by omega)

section

variable (hN : n.toInt = N) (h : 2 * k ≤ N) (hfit : k * N.choose k ≤ 2 ^ 53)
include hN h hfit

theorem hasValue_fraction (hj : j < k) (hx : HasValue x (N.choose j : Nat)) :
    HasValue (x * numerator n j) (N.choose j * (N - j) : Nat) ∧
      HasValue (x * numerator n j / denominator j) (N.choose (j + 1) : Nat) := by
  have hproduct : N.choose (j + 1) * (j + 1) = N.choose j * (N - j) :=
    Nat.choose_succ_right_eq N j
  have hmono : (j + 1) * N.choose (j + 1) ≤ 2 ^ 53 :=
    (mul_choose_mono h (show j + 1 ≤ k from hj)).trans hfit
  have hbound : N.choose j * (N - j) ≤ 2 ^ 53 := by rwa [← hproduct, Nat.mul_comm]
  have hn : N ≤ 2 ^ 53 := (le_mul_choose h (by omega)).trans hfit
  have hnumerator : HasValue (numerator n j) (N - j : Nat) := by
    rw [numerator_eq (by omega), hN, ← Nat.cast_sub (by omega)]
    exact hasValue_ofNat (by omega)
  have hdenominator := hasValue_denominator (n := n) (j := j) (by omega) (by omega)
  have hmul : HasValue (x * numerator n j) (N.choose j * (N - j) : Nat) := by
    have hrep := representable_nat hbound
    rw [Nat.cast_mul] at hrep ⊢
    exact hx.mul hnumerator hrep
  have hquotient : ((N.choose j * (N - j) : Nat) : ℚ) / (j + 1 : Nat) = N.choose (j + 1) := by
    rw [div_eq_iff (by positivity), ← hproduct, Nat.cast_mul]
  have hsmall : N.choose (j + 1) ≤ 2 ^ 53 :=
    (Nat.le_mul_of_pos_left _ (Nat.succ_pos j)).trans hmono
  refine ⟨hmul, ?_⟩
  rw [← hquotient]
  exact hmul.div hdenominator (by positivity) (hquotient ▸ representable_nat hsmall)

/-- **After `j` fractions the accumulator stands for the ways to choose `j` things.** -/
theorem partialProduct_exact (hj : j ≤ k) :
    ∃ x, partialProduct n j = .ok x ∧ HasValue x (N.choose j : Nat) := by
  induction j with
  | zero =>
    refine ⟨1.0, rfl, ?_⟩
    rw [Nat.choose_zero_right]
    exact hasValue_one
  | succ j ih =>
    obtain ⟨x, hx, hvalue⟩ := ih (by omega)
    obtain ⟨-, hnext⟩ := hasValue_fraction hN h hfit hj hvalue
    refine ⟨_, ?_, hnext⟩
    rw [partialProduct_succ, hx]
    exact hnext.checked_eq

end

/-- **Combinations are exact while they fit.** If `k` times the number of ways is at most `2 ^ 53`,
where `k` is the smaller of `r` and `n - r`, then the result stands for the number of ways, and so do
all intermediate products and quotients for integers. -/
theorem combination_exact (hr : 0 ≤ r) (hrn : r ≤ n)
    (hfit : fractions n r * choices n r ≤ 2 ^ 53) :
    (∃ v, combination n r = .ok v ∧ HasValue v (choices n r)) ∧
    ∀ j < fractions n r, ∃ x, partialProduct n j = .ok x ∧
      HasValue x (n.toInt.toNat.choose j) ∧
      HasValue (x * numerator n j) (n.toInt.toNat.choose j * (n.toInt.toNat - j) : Nat) ∧
      HasValue (x * numerator n j / denominator j) (n.toInt.toNat.choose (j + 1)) ∧
      partialProduct n (j + 1) = .ok (x * numerator n j / denominator j) := by
  have hn := toInt_eq_toNat hr hrn
  obtain ⟨hhalf, hchoices⟩ := choices_eq hr hrn
  rw [hchoices] at hfit ⊢
  rw [combination_eq hr hrn]
  refine ⟨partialProduct_exact hn hhalf hfit le_rfl, fun j hj => ?_⟩
  obtain ⟨x, hx, hvalue⟩ := partialProduct_exact hn hhalf hfit hj.le
  obtain ⟨hproduct, hquotient⟩ := hasValue_fraction hn hhalf hfit hj hvalue
  refine ⟨x, hx, hvalue, hproduct, hquotient, ?_⟩
  rw [partialProduct_succ, hx]
  exact hquotient.checked_eq

theorem combination_exact_half :
    (0 : Int64) ≤ 25 ∧ (25 : Int64) ≤ 50 ∧ fractions 50 25 * choices 50 25 ≤ 2 ^ 53 ∧
      ∃ v, combination 50 25 = .ok v ∧ HasValue v (126410606437752 : Nat) := by
  have hways : choices 50 25 = 126410606437752 := by
    show Nat.choose 50 25 = _
    rw [Nat.choose_eq_descFactorial_div_factorial]
    norm_num
  have hfit : fractions 50 25 * choices 50 25 ≤ 2 ^ 53 := by
    rw [hways]
    decide
  refine ⟨by decide, by decide, hfit, ?_⟩
  rw [← hways]
  exact (combination_exact (by decide) (by decide) hfit).1

end Calculator.Combinatorics
