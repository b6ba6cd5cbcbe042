import Calculator.Proofs.Doubles.Nearest

/-!
# Rounding errors

Rounding changes a number by at most `2 ^ -53` of it, unless it is subnormal or out of range. The
roundings behind a result are counted, each of them a factor between `1 - 2 ^ -53` and `1 + 2 ^ -53`.

* `Within k p q`: `p` differs from `q` by `k` such factors;
* `Rounds.cases_within`: rounding is one more factor, or the end of the range;
* `HasValue.rounds_mul`, `HasValue.rounds_div`, `rounds_ofInt`: what is rounded by an operation;
* `one_add_pow_le`, `le_one_sub_pow`: what many factors amount to.
-/

namespace Calculator.Double

open Float.Model (UnpackedFloat)
open Float.Model.UnpackedFloat
open Decimal (RoundsTo)

variable {x y : Float} {m k l : Nat} {e t : Int} {p q r d : ℚ}

/-! ### Counting roundings -/

/-- **The unit of rounding errors**: half a unit in the last of 53 places. -/
def roundoff : ℚ := 1 / 2 ^ 53

theorem roundoff_pos : 0 < roundoff := by
  unfold roundoff
  positivity

theorem roundoff_lt_one : roundoff < 1 := by
  unfold roundoff
  norm_num

/-- **`p` is what `k` roundings make of `q`.** -/
structure Within (k : Nat) (p q : ℚ) : Prop where
  ge : q * (1 - roundoff) ^ k ≤ p
  le : p ≤ q * (1 + roundoff) ^ k

theorem within_refl (q : ℚ) : Within 0 q q :=
  ⟨by rw [pow_zero, mul_one], by rw [pow_zero, mul_one]⟩

theorem within_one (h : |p - q| ≤ q * roundoff) : Within 1 p q := by
  obtain ⟨hlow, hhigh⟩ := abs_le.1 h
  constructor
  · rw [pow_one]
    linarith
  · rw [pow_one]
    linarith

/-- The roundings of a rounded number are counted together. -/
theorem Within.trans (h : Within k p q) (h' : Within l r p) : Within (k + l) r q := by
  have hone := roundoff_lt_one
  have hpos := roundoff_pos
  constructor
  · calc q * (1 - roundoff) ^ (k + l) = q * (1 - roundoff) ^ k * (1 - roundoff) ^ l := by
          rw [pow_add, mul_assoc]
      _ ≤ p * (1 - roundoff) ^ l :=
          mul_le_mul_of_nonneg_right h.ge (pow_nonneg (by linarith) l)
      _ ≤ r := h'.ge
  · calc r ≤ p * (1 + roundoff) ^ l := h'.le
      _ ≤ q * (1 + roundoff) ^ k * (1 + roundoff) ^ l :=
          mul_le_mul_of_nonneg_right h.le (pow_nonneg (by linarith) l)
      _ = q * (1 + roundoff) ^ (k + l) := by rw [pow_add, mul_assoc]

theorem Within.mul_const (h : Within k p q) (hr : 0 ≤ r) : Within k (p * r) (q * r) := by
  constructor
  · rw [mul_right_comm]
    exact mul_le_mul_of_nonneg_right h.ge hr
  · rw [mul_right_comm]
    exact mul_le_mul_of_nonneg_right h.le hr

theorem Within.div_const (h : Within k p q) (hd : 0 < d) : Within k (p / d) (q / d) := by
  rw [div_eq_mul_inv, div_eq_mul_inv]
  exact h.mul_const (inv_nonneg.2 hd.le)

theorem Within.mul (h : Within k p q) {p' q' : ℚ} (h' : Within l p' q') (hp : 0 ≤ p)
    (hq' : 0 ≤ q') : Within (k + l) (p * p') (q * q') := by
  have hright := h'.mul_const hp
  rw [mul_comm p' p, mul_comm q' p] at hright
  exact (h.mul_const hq').trans hright

/-! ### Many roundings -/

/-- **A lower bound on many factors**, by Bernoulli's inequality. -/
theorem le_one_sub_pow (k : Nat) : 1 - k * roundoff ≤ (1 - roundoff) ^ k := by
  have hone := roundoff_lt_one
  have hbernoulli := one_add_mul_le_pow (show (-2 : ℚ) ≤ -roundoff by linarith) k
  rwa [mul_neg, ← sub_eq_add_neg, ← sub_eq_add_neg] at hbernoulli

theorem one_add_pow_mul_le (k : Nat) : (1 + roundoff) ^ k * (1 - k * roundoff) ≤ 1 := by
  have hone := roundoff_lt_one
  have hpos := roundoff_pos
  calc (1 + roundoff) ^ k * (1 - k * roundoff) ≤ (1 + roundoff) ^ k * (1 - roundoff) ^ k :=
        mul_le_mul_of_nonneg_left (le_one_sub_pow k) (pow_nonneg (by linarith) k)
    _ = (1 - roundoff ^ 2) ^ k := by
        rw [← mul_pow]
        ring
    _ ≤ 1 := pow_le_one₀ (by nlinarith) (by nlinarith)

theorem Within.half_le (h : Within k p q) (hq : 1 ≤ q) (hk : k ≤ 2 ^ 52) : 1 / 2 ≤ p := by
  have hk' : (k : ℚ) ≤ 2 ^ 52 := by exact_mod_cast hk
  have hpow := le_one_sub_pow k
  have hhalf : (k : ℚ) * roundoff ≤ 1 / 2 := by
    unfold roundoff
    linarith
  calc (1 : ℚ) / 2 ≤ (1 - roundoff) ^ k := by linarith
    _ ≤ q * (1 - roundoff) ^ k := le_mul_of_one_le_left (by linarith) hq
    _ ≤ p := h.ge

/-! ### One rounding -/

/-- **The error of one rounding**: half a unit, of which a number that is not subnormal has at least
`2 ^ 52`. -/
theorem Scale.abs_sub_le (h : Scale q t) {n : Nat} (hn : RoundsTo (q / 2 ^ t) n)
    (hlow : 2 ^ (-1022 : Int) ≤ q) : |(n : ℚ) * 2 ^ t - q| ≤ q * roundoff := by
  have htwo : (0 : ℚ) < 2 ^ t := by positivity
  have hbits : (2 : ℚ) ^ (t + 52) ≤ q := by
    by_cases ht : t = -1074
    · rw [ht]
      exact hlow
    · exact h.le ht
  have hunit : (2 : ℚ) ^ (t + 52) * roundoff = 1 / 2 * 2 ^ t := by
    unfold roundoff
    rw [zpow_add₀ two_ne_zero]
    norm_num
    ring
  calc |(n : ℚ) * 2 ^ t - q| = |(n : ℚ) - q / 2 ^ t| * 2 ^ t := abs_mul_sub n q t
    _ ≤ 1 / 2 * 2 ^ t := mul_le_mul_of_nonneg_right hn.near htwo.le
    _ = 2 ^ (t + 52) * roundoff := hunit.symm
    _ ≤ q * roundoff := mul_le_mul_of_nonneg_right hbits roundoff_pos.le

/-- **What rounding gives**: an infinity from the end of the range on, else the number up to one
factor. -/
theorem Rounds.cases_within (h : Rounds x q) (hlow : 1 / 2 ≤ q) :
    (rangeEnd ≤ q ∧ x = infinity) ∨ (q < rangeEnd ∧ ∃ p, HasValue x p ∧ Within 1 p q) := by
  have hnormal : (2 : ℚ) ^ (-1022 : Int) ≤ q := by
    calc (2 : ℚ) ^ (-1022 : Int) ≤ 2 ^ (-1 : Int) := zpow_le_zpow_right₀ one_le_two (by omega)
      _ = 1 / 2 := by norm_num
      _ ≤ q := hlow
  refine h.cases.imp_right ?_
  rintro ⟨t, n, hscale, hn, hrange⟩
  exact ⟨hrange.lt, _, hrange.value, within_one (hscale.abs_sub_le hn hnormal)⟩

/-! ### The largest double -/

/-- **The largest double.** -/
def largest : ℚ := (2 ^ 53 - 1) * 2 ^ (971 : Int)

theorem largest_eq : largest = ((2 ^ 53 - 1) * 2 ^ 971 : Nat) := by
  rw [Nat.cast_mul, Nat.cast_pow, Nat.cast_ofNat, Nat.cast_sub (by decide)]
  unfold largest
  rw [← zpow_natCast]
  norm_num

theorem largest_pos : 0 < largest := by
  unfold largest
  positivity

theorem largest_lt_rangeEnd : largest < rangeEnd := by
  unfold largest rangeEnd
  gcongr
  norm_num

theorem two_pow_le_largest : (2 : ℚ) ^ 64 ≤ largest := by
  calc (2 : ℚ) ^ 64 = 2 ^ 52 * 2 ^ (12 : Int) := by norm_num
    _ ≤ (2 ^ 53 - 1) * 2 ^ (971 : Int) :=
      mul_le_mul (by norm_num) (zpow_le_zpow_right₀ one_le_two (by omega)) (by positivity)
        (by norm_num)

theorem HasValue.exists_parts (h : HasValue x q) (hq : 0 < q) :
    ∃ m e hm, parts x = .finite .positive m e hm ∧ q = m * 2 ^ e := by
  rcases h.cases with ⟨s, -, rfl⟩ | ⟨s, m, e, hm, hx, hvalue⟩
  · exact absurd hq (lt_irrefl 0)
  · have hpos : (0 : ℚ) < m * 2 ^ e := by positivity
    cases s with
    | positive =>
      rw [apply_positive_mul] at hvalue
      exact ⟨m, e, hm, hx, hvalue⟩
    | negative =>
      rw [apply_negative_mul] at hvalue
      linarith

theorem HasValue.le_largest (h : HasValue x q) : q ≤ largest := by
  rcases lt_or_ge 0 q with hpos | hneg
  · obtain ⟨m, e, hm, hx, rfl⟩ := h.exists_parts hpos
    have hc := canonical_of_parts hx
    have hm' : (m : ℚ) ≤ 2 ^ 53 - 1 := by
      have : (m : ℚ) + 1 ≤ 2 ^ 53 := by exact_mod_cast hc.lt
      linarith
    unfold largest
    exact mul_le_mul hm' (zpow_le_zpow_right₀ one_le_two hc.max) (by positivity) (by norm_num)
  · refine hneg.trans ?_
    unfold largest
    positivity

/-! ### Operations -/

theorem HasValue.rounds_mul (hx : HasValue x p) (hy : HasValue y q) (hp : 0 < p) (hq : 0 < q) :
    Rounds (x * y) (p * q) := by
  obtain ⟨m, e, hm, hx', rfl⟩ := hx.exists_parts hp
  obtain ⟨n, f, hn, hy', rfl⟩ := hy.exists_parts hq
  exact (roundedFrom_mul hx' hy').rounds

theorem HasValue.rounds_div (hx : HasValue x p) (hy : HasValue y q) (hp : 0 < p) (hq : 0 < q) :
    Rounds (x / y) (p / q) := by
  obtain ⟨m, e, hm, hx', rfl⟩ := hx.exists_parts hp
  obtain ⟨n, f, hn, hy', rfl⟩ := hy.exists_parts hq
  exact (roundedFrom_div hx' hy').rounds

theorem rounds_ofInt (hm : 0 < m) : Rounds (ofInt m) m := by
  have hround := (roundedFrom_round .positive hm 0).rounds
  rw [zpow_zero, mul_one, ← normalize_apply (z := .positive) hm] at hround
  exact hround

theorem exists_ofInt (hm : 0 < m) (hlt : m < 2 ^ 64) :
    ∃ p, HasValue (ofInt m) p ∧ Within 1 p m := by
  have hone : (1 : ℚ) ≤ m := by exact_mod_cast hm
  refine ((rounds_ofInt hm).cases_within (by linarith)).elim (fun h => ?_) And.right
  have hword : (m : ℚ) < 2 ^ 64 := by exact_mod_cast hlt
  have hend := two_pow_le_largest.trans_lt largest_lt_rangeEnd
  exact absurd h.1 (by linarith)

theorem HasValue.infinity_div (h : HasValue y q) (hq : 0 < q) : infinity / y = infinity := by
  obtain ⟨n, f, hn, hy, -⟩ := h.exists_parts hq
  show ofParts (UnpackedFloat.div .binary64 (.infinity .positive) (parts y)) = _
  rw [hy]
  rfl

end Calculator.Double
