import Mathlib.Data.Nat.Factorial.Basic
import Calculator.Proofs.Combinations.Range

/-!
# The range of permutations

The ways to arrange `r` of `n` things are the product of the words from `n` down to `n - r + 1`, and
these are `r` factors, unless the least one is no word. While they fit into 53 bits nothing is
rounded. And 171 factors are out of the range of doubles, however large they are: their product is at
least `171!`, which no roundings bring back. So the loop is over after 171 multiplications at the
latest, whatever `r` is.

* `rangeLength_least`: the number of factors;
* `descending n j`: the accumulator after `j` factors (`descending_succ`, `permutation_eq`);
* `descending_exact`: up to `2 ^ 53` it stands for the product;
* `factor_cases`, `descending_cases`: one factor overflows, or makes two roundings, and so do all;
* `descending_overflow`: 171 factors overflow;
* `countedProduct`: the product with the number of its multiplications, which an overflow bounds
  (`snd_countedProduct_le`).
-/

namespace Calculator.Combinatorics

open Double

variable {n r top : Int64} {j k N b : Nat} {x acc : Float} {fault : Fault}

/-! ### The loop -/

/-- **The accumulator after `j` factors.** -/
def descending (n : Int64) (j : Nat) : Outcome Float := fallingProduct 1.0 n j

/-- **The number of ways** to arrange `r` of `n` things. -/
def arrangements (n r : Int64) : Nat := n.toInt.toNat.descFactorial r.toInt.toNat

theorem fallingProduct_succ (acc : Float) (top : Int64) (j : Nat) :
    fallingProduct acc top (j + 1) = fallingProduct acc top j >>= fun x =>
      checked (x * numerator top j) := by
  induction j generalizing acc top with
  | zero =>
    have htop : top - .ofNat 0 = top := Int64.sub_zero top
    unfold numerator
    rw [htop]
    show checked _ >>= Except.ok = checked _
    cases checked _ <;> rfl
  | succ j ih =>
    have htop : top - .ofNat (j + 1) = top - 1 - .ofNat j := by
      rw [Int64.ofNat_add, Int64.add_comm, ← Int64.sub_sub]
      rfl
    have hfactor : numerator top (j + 1) = numerator (top - 1) j := by
      unfold numerator
      rw [htop]
    rw [fallingProduct, fallingProduct, bind_assoc, hfactor]
    congr 1
    funext next
    exact ih next (top - 1)

theorem descending_succ (n : Int64) (j : Nat) :
    descending n (j + 1) = descending n j >>= fun x => checked (x * numerator n j) :=
  fallingProduct_succ 1.0 n j

/-- **The least factor is a word**, unless it comes after the largest one. -/
theorem toInt_least (hr : 0 ≤ r) (hrn : r ≤ n) (hne : (n, r) ≠ (Int64.maxValue, 0)) :
    (n - r + 1).toInt = n.toInt - r.toInt + 1 ∧ n.toInt - r.toInt + 1 < 2 ^ 63 := by
  have hr' := toInt_nonneg hr
  have hrn' := Int64.le_iff_toInt_le.1 hrn
  have hlt := Int64.toInt_lt n
  have hfit : n.toInt - r.toInt + 1 < 2 ^ 63 := by
    by_contra hlarge
    have hn : n = Int64.maxValue := Int64.toInt_inj.1 (by show _ = (2 ^ 63 - 1 : ℤ); omega)
    have hzero : r = 0 := Int64.toInt_inj.1 (by show _ = (0 : ℤ); omega)
    exact hne (Prod.ext hn hzero)
  refine ⟨?_, hfit⟩
  rw [Int64.toInt_add, toInt_sub_of_le hr hrn, Int64.toInt_one,
    Int.bmod_eq_of_le (by omega) (by omega)]

theorem rangeLength_least (hr : 0 ≤ r) (hrn : r ≤ n) (hne : (n, r) ≠ (Int64.maxValue, 0)) :
    rangeLength (n - r + 1) n = r.toInt.toNat := by
  unfold rangeLength
  rw [(toInt_least hr hrn hne).1]
  congr 1
  omega

theorem permutation_eq (hr : 0 ≤ r) (hrn : r ≤ n) (hne : (n, r) ≠ (Int64.maxValue, 0)) :
    permutation n r = descending n r.toInt.toNat := by
  unfold permutation descending
  rw [guard_eq_false_iff.2 ⟨hr, hrn⟩, if_neg Bool.false_ne_true, rangeLength_least hr hrn hne]

/-! ### Products that fit -/

theorem descFactorial_mono (hk : k ≤ N) (hjk : j ≤ k) : N.descFactorial j ≤ N.descFactorial k := by
  induction k, hjk using Nat.le_induction with
  | base => exact le_rfl
  | succ k _ ih =>
    rw [Nat.descFactorial_succ]
    exact (ih (by omega)).trans (Nat.le_mul_of_pos_left _ (by omega))

/-- **Up to `2 ^ 53` the accumulator stands for the product** of the factors. -/
theorem descending_exact (hN : n.toInt = N) (hj : j ≤ N) (hfit : N.descFactorial j ≤ 2 ^ 53) :
    ∃ x, descending n j = .ok x ∧ HasValue x (N.descFactorial j : Nat) := by
  induction j with
  | zero => exact ⟨1.0, rfl, hasValue_one⟩
  | succ j ih =>
    have hless : N.descFactorial j ≤ 2 ^ 53 := (descFactorial_mono hj (Nat.le_succ j)).trans hfit
    obtain ⟨x, hx, hvalue⟩ := ih (by omega) hless
    rw [Nat.descFactorial_succ] at hfit ⊢
    have hpos : 0 < N.descFactorial j := Nat.descFactorial_pos.2 (by omega)
    have hfactor : N - j ≤ 2 ^ 53 := (Nat.le_mul_of_pos_right _ hpos).trans hfit
    have hnumerator : HasValue (numerator n j) (N - j : Nat) := by
      rw [numerator_eq (by omega), hN, ← Nat.cast_sub (by omega)]
      exact hasValue_ofNat hfactor
    have hrep := representable_nat hfit
    rw [Nat.cast_mul, mul_comm] at hrep ⊢
    have hproduct := hvalue.mul hnumerator hrep
    rw [descending_succ, hx]
    exact ⟨_, hproduct.checked_eq, hproduct⟩

/-! ### Products that do not fit -/

/-- **`x` stands for the product of `j` factors from `N` downwards**, with two roundings for each
of them. -/
def StandsFalling (x : Float) (N j : Nat) : Prop :=
  ∃ p, HasValue x p ∧ Within (2 * j) p (N.descFactorial j)

theorem one_le_descFactorial (hj : j ≤ N) : (1 : ℚ) ≤ N.descFactorial j := by
  have hpos : 0 < N.descFactorial j := Nat.descFactorial_pos.2 hj
  exact_mod_cast hpos

theorem factor_cases (hN : n.toInt = N) (hj : j < N) (hsmall : j < 2 ^ 50)
    (hx : StandsFalling x N j) :
    ∃ q, Within (2 * j + 1) q (N.descFactorial (j + 1)) ∧
      ((rangeEnd ≤ q ∧ checked (x * numerator n j) = .error .overflow) ∨
        q < rangeEnd ∧ ∃ y, checked (x * numerator n j) = .ok y ∧ StandsFalling y N (j + 1)) := by
  obtain ⟨p, hp, hp'⟩ := hx
  have hproduct : (N.descFactorial j : ℚ) * (N - j : Nat) = N.descFactorial (j + 1) := by
    rw [Nat.descFactorial_succ, Nat.cast_mul, mul_comm]
  obtain ⟨q, hq, hcases⟩ :=
    numerator_cases hN hj (by omega) (one_le_descFactorial hj.le) hp hp'
  rw [hproduct] at hq hcases
  refine ⟨q, hq, ?_⟩
  rcases hcases with ⟨hend, hinfinity⟩ | ⟨hlt, r, hr, hr'⟩
  · rw [hinfinity]
    exact .inl ⟨hend, rfl⟩
  · exact .inr ⟨hlt, _, hr.checked_eq, r, hr, hr'⟩

theorem descending_error (h : descending n j = .error fault) (hjk : j ≤ k) :
    descending n k = .error fault := by
  induction k, hjk using Nat.le_induction with
  | base => exact h
  | succ k _ ih =>
    rw [descending_succ, ih]
    rfl

/-- **After `j` factors there is an overflow, or the accumulator stands for their product.** -/
theorem descending_cases (hN : n.toInt = N) (hj : j ≤ N) (hsmall : j ≤ 2 ^ 50) :
    descending n j = .error .overflow ∨ ∃ x, descending n j = .ok x ∧ StandsFalling x N j := by
  induction j with
  | zero => exact .inr ⟨1.0, rfl, 1, hasValue_one, within_refl _⟩
  | succ j ih =>
    rcases ih (by omega) (by omega) with herror | ⟨x, hx, hstands⟩
    · exact .inl (descending_error herror (Nat.le_succ j))
    · rw [descending_succ, hx]
      obtain ⟨q, -, ⟨-, hover⟩ | ⟨-, hnext⟩⟩ := factor_cases hN hj hsmall hstands
      · exact .inl hover
      · exact .inr hnext

/-- A number with 1025 bits is out of range, since its roundings do not even halve it. -/
theorem rangeEnd_le_of_within {p q : ℚ} (hp : 2 ^ (1025 : Int) ≤ p) (hk : k ≤ 1537)
    (h : Within k q p) : rangeEnd ≤ q := by
  have hhalf : (1 : ℚ) / 2 ≤ (1 - roundoff) ^ k :=
    le_trans (by norm_num) (le_one_sub_pow_of_le hk)
  calc rangeEnd ≤ 2 ^ 53 * 2 ^ (971 : Int) := by
        unfold rangeEnd
        gcongr
        norm_num
    _ = 2 ^ ((53 : Int) + 971) := by rw [zpow_add₀ two_ne_zero]; norm_num
    _ = 2 ^ (1025 : Int) * (1 / 2) := by
        rw [one_div, ← zpow_neg_one, ← zpow_add₀ two_ne_zero]
        norm_num
    _ ≤ p * (1 - roundoff) ^ k := mul_le_mul hp hhalf (by norm_num) (hp.trans' (by positivity))
    _ ≤ q := h.ge

theorem two_pow_le_descFactorial (h : 171 ≤ N) : (2 : ℚ) ^ (1025 : Int) ≤ N.descFactorial 171 := by
  have hfactorial : 2 ^ 1025 ≤ Nat.factorial 171 := by decide +kernel
  have hle : Nat.factorial 171 ≤ N.descFactorial 171 := by
    rw [← Nat.descFactorial_self]
    exact Nat.descFactorial_le 171 h
  rw [zpow_ofNat]
  exact_mod_cast hfactorial.trans hle

/-- **171 factors overflow**, from whatever number they go down. -/
theorem descending_overflow (hN : n.toInt = N) (h : 171 ≤ N) :
    descending n 171 = .error .overflow := by
  rcases descending_cases (j := 170) hN (by omega) (by decide) with herror | ⟨x, hx, hstands⟩
  · exact descending_error herror (by decide)
  · rw [descending_succ, hx]
    obtain ⟨q, hq, ⟨-, hover⟩ | ⟨hlt, -⟩⟩ := factor_cases hN (by omega) (by decide) hstands
    · exact hover
    · exact absurd hlt (rangeEnd_le_of_within (two_pow_le_descFactorial h) (by decide) hq).not_gt

/-! ### Counting the multiplications -/

/-- **The product with the number of its multiplications**: an overflow is the last one. -/
def countedProduct (acc : Float) (top : Int64) : Nat → Outcome Float × Nat
  | 0 => (.ok acc, 0)
  | factors + 1 =>
    match checked (acc * Double.ofInt top.toInt) with
    | .ok next =>
      let rest := countedProduct next (top - 1) factors
      (rest.1, rest.2 + 1)
    | .error fault => (.error fault, 1)

theorem fst_countedProduct (acc : Float) (top : Int64) (k : Nat) :
    (countedProduct acc top k).1 = fallingProduct acc top k := by
  induction k generalizing acc top with
  | zero => rfl
  | succ k ih =>
    rw [countedProduct, fallingProduct]
    cases checked (acc * Double.ofInt top.toInt) with
    | error fault => rfl
    | ok next => exact ih next (top - 1)

theorem snd_countedProduct_le (acc : Float) (top : Int64) (k : Nat) :
    (countedProduct acc top k).2 ≤ k := by
  induction k generalizing acc top with
  | zero => exact le_rfl
  | succ k ih =>
    rw [countedProduct]
    cases checked (acc * Double.ofInt top.toInt) with
    | error fault => exact Nat.le_add_left 1 k
    | ok next => exact Nat.succ_le_succ (ih next (top - 1))

/-- **An overflow bounds the multiplications**, however many factors there are. -/
theorem snd_countedProduct_le_of_error (h : fallingProduct acc top b = .error fault) (k : Nat) :
    (countedProduct acc top k).2 ≤ b := by
  induction b generalizing acc top k with
  | zero => cases h
  | succ b ih =>
    cases k with
    | zero => exact Nat.zero_le _
    | succ k =>
      rw [fallingProduct] at h
      rw [countedProduct]
      cases hnext : checked (acc * Double.ofInt top.toInt) with
      | error fault => exact Nat.le_add_left 1 b
      | ok next =>
        rw [hnext] at h
        exact Nat.succ_le_succ (ih h k)

/-! ### Permutations -/

/-- **Permutations are exact while they fit, and out of range from 171 factors on.** The product of
the factors is computed with at most 171 multiplications. One pair is left out: below no factor of
the largest word the least factor would not be a word. -/
theorem permutation_exact (hr : 0 ≤ r) (hrn : r ≤ n) (hne : (n, r) ≠ (Int64.maxValue, 0)) :
    (arrangements n r ≤ 2 ^ 53 →
      ∃ v, permutation n r = .ok v ∧ HasValue v (arrangements n r)) ∧
    (171 ≤ r → permutation n r = .error .overflow) ∧
    (countedProduct 1.0 n (rangeLength (n - r + 1) n)).1 = permutation n r ∧
    (countedProduct 1.0 n (rangeLength (n - r + 1) n)).2 ≤ 171 := by
  have hN := toInt_eq_toNat hr hrn
  have hr' := toInt_nonneg hr
  have hrn' := Int64.le_iff_toInt_le.1 hrn
  rw [permutation_eq hr hrn hne, rangeLength_least hr hrn hne]
  refine ⟨descending_exact hN (by omega), fun hlarge => ?_, fst_countedProduct _ _ _, ?_⟩
  · have hlarge' : 171 ≤ r.toInt := Int64.le_iff_toInt_le.1 hlarge
    exact descending_error (descending_overflow hN (by omega)) (by omega)
  · rcases Nat.lt_or_ge r.toInt.toNat 171 with hfew | hmany
    · exact (snd_countedProduct_le _ _ _).trans hfew.le
    · exact snd_countedProduct_le_of_error (descending_overflow hN (by omega)) _

/-- Both sides: the last factorial below `2 ^ 53`, and all words in a row. -/
theorem permutation_exact_eighteen :
    ((0 : Int64) ≤ 18 ∧ (18 : Int64) ≤ 18 ∧ ((18 : Int64), (18 : Int64)) ≠ (Int64.maxValue, 0) ∧
      arrangements 18 18 ≤ 2 ^ 53 ∧
      ∃ v, permutation 18 18 = .ok v ∧ HasValue v (6402373705728000 : Nat)) ∧
    (0 : Int64) ≤ Int64.maxValue ∧ Int64.maxValue ≤ Int64.maxValue ∧
      (Int64.maxValue, Int64.maxValue) ≠ (Int64.maxValue, 0) ∧ (171 : Int64) ≤ Int64.maxValue ∧
      permutation Int64.maxValue Int64.maxValue = .error .overflow ∧
      (countedProduct 1.0 Int64.maxValue
        (rangeLength (Int64.maxValue - Int64.maxValue + 1) Int64.maxValue)).2 ≤ 171 := by
  have hways : arrangements 18 18 = 6402373705728000 := by decide
  have hfit : arrangements 18 18 ≤ 2 ^ 53 := by
    rw [hways]
    decide
  have hexact := (permutation_exact (n := 18) (r := 18) (by decide) (by decide) (by decide)).1 hfit
  rw [hways] at hexact
  obtain ⟨-, hover, -, hcount⟩ := permutation_exact (n := Int64.maxValue) (r := Int64.maxValue)
    (by decide) (by decide) (by decide)
  exact ⟨⟨by decide, by decide, by decide, hfit, hexact⟩, by decide, by decide, by decide,
    by decide, hover (by decide), hcount⟩

end Calculator.Combinatorics
