import Mathlib.Data.Int.Log
import Mathlib.Data.Rat.Floor
import Calculator.Proofs.Decimals.Digits

/-!
# The nearest decimal

Rounding to significant digits, said without digits: the decimals with `n` of them are the numbers
`c · 10 ^ x` with `10 ^ (n - 1) ≤ c < 10 ^ n`, and the rounded number is the nearest of these.

* `RoundsTo q k`: `k` is the nearest integer, a half going to the even one (`roundsTo_roundRatio`);
* `Nearest q n r`: `r` is the nearest decimal with `n` significant digits, a half going to the one
  whose last digit is even;
* `nearest_of_roundsTo`: it is enough to round on the grid of the last digit of `q`, also if that
  carries into the next power of ten;
* `nearest_ofRatio`, `ofRatio_spec`: the decimal of a fraction is the nearest one, has as many digits
  as it should, and is also the nearest multiple of its own unit.
-/

namespace Calculator.Decimal

variable {q r : ℚ} {num den n d k places : Nat} {u x : Int}

/-! ### The nearest integer -/

/-- **`k` is the integer nearest to `q`**, the even one if two are equally near. -/
structure RoundsTo (q : ℚ) (k : Nat) : Prop where
  near : |(k : ℚ) - q| ≤ 1 / 2
  even : |(k : ℚ) - q| = 1 / 2 → Even k

theorem roundsTo_roundRatio (hd : 0 < d) : RoundsTo ((n : ℚ) / d) (roundRatio n d) := by
  refine ⟨abs_roundRatio_sub_le hd, fun hhalf => Nat.even_iff.2 (roundRatio_even ?_)⟩
  have hd' : (0 : ℚ) < d := by exact_mod_cast hd
  -- A distance of a half leaves half a unit of rest.
  have htwo : 2 * n = 2 * (roundRatio n d * d) + d ∨ 2 * n + d = 2 * (roundRatio n d * d) := by
    rcases eq_or_eq_neg_of_abs_eq hhalf with h | h
    · right
      have hq : (n : ℚ) / d = roundRatio n d - 1 / 2 := by linarith
      rw [div_eq_iff hd'.ne'] at hq
      have hcast : (2 * n + d : ℚ) = 2 * (roundRatio n d * d) := by linarith
      exact_mod_cast hcast
    · left
      have hq : (n : ℚ) / d = roundRatio n d + 1 / 2 := by linarith
      rw [div_eq_iff hd'.ne'] at hq
      have hcast : (2 * n : ℚ) = 2 * (roundRatio n d * d) + d := by linarith
      exact_mod_cast hcast
  have hdiv := Nat.div_add_mod n d
  have hlt := Nat.mod_lt n hd
  have hcomm := Nat.mul_comm d (n / d)
  simp only [roundRatio] at htwo
  split at htwo
  · omega
  · rw [Nat.add_mul] at htwo
    omega

theorem one_le_add_abs_sub {j : Nat} (hjk : j ≠ k) (q : ℚ) : 1 ≤ |(j : ℚ) - q| + |(k : ℚ) - q| := by
  have hne : (j : Int) - k ≠ 0 := by omega
  have hone : (1 : ℚ) ≤ |(j : ℚ) - k| := by exact_mod_cast Int.one_le_abs hne
  have htriangle := abs_sub_le (j : ℚ) q k
  rw [abs_sub_comm q (k : ℚ)] at htriangle
  linarith

theorem RoundsTo.le (h : RoundsTo q k) (j : Nat) : |(k : ℚ) - q| ≤ |(j : ℚ) - q| := by
  by_cases hjk : j = k
  · rw [hjk]
  · have hone := one_le_add_abs_sub hjk q
    have hnear := h.near
    linarith

theorem RoundsTo.even_of_eq (h : RoundsTo q k) {j : Nat} (hjk : j ≠ k)
    (heq : |(j : ℚ) - q| = |(k : ℚ) - q|) : Even k := by
  have hone := one_le_add_abs_sub hjk q
  have hnear := h.near
  exact h.even (by linarith)

/-- **There is one nearest integer**: of two that are half a unit away, one is odd. -/
theorem RoundsTo.unique {j : Nat} (h : RoundsTo q j) (h' : RoundsTo q k) : j = k := by
  by_contra hjk
  have heq : |(j : ℚ) - q| = |(k : ℚ) - q| := le_antisymm (h.le k) (h'.le j)
  have hj := h.even_of_eq (Ne.symm hjk) heq.symm
  have hk := h'.even_of_eq hjk heq
  have hnear : |(j : ℚ) - k| ≤ 1 := by
    have htriangle := abs_sub_le (j : ℚ) q k
    rw [abs_sub_comm q (k : ℚ)] at htriangle
    linarith [h.near, h'.near]
  have hnear : |(j : Int) - k| ≤ 1 := by exact_mod_cast hnear
  rw [Nat.even_iff] at hj hk
  rw [abs_le] at hnear
  omega

theorem RoundsTo.le_of_le (h : RoundsTo q k) {j : Nat} (hj : (j : ℚ) ≤ q) : j ≤ k := by
  have hnear := (abs_le.1 h.near).1
  have hlt : (j : ℚ) < k + 1 := by linarith
  exact Nat.lt_succ_iff.1 (by exact_mod_cast hlt)

theorem RoundsTo.le_of_lt (h : RoundsTo q k) {j : Nat} (hj : q < j) : k ≤ j := by
  have hnear := (abs_le.1 h.near).2
  have hlt : (k : ℚ) < j + 1 := by linarith
  exact Nat.lt_succ_iff.1 (by exact_mod_cast hlt)

/-- A tenth of a multiple of ten is also the nearest integer to a tenth. -/
theorem RoundsTo.tenth (h : RoundsTo q (10 * k)) : RoundsTo (q / 10) k := by
  have hdist : |(k : ℚ) - q / 10| = |((10 * k : Nat) : ℚ) - q| / 10 := by
    rw [show (10 : ℚ) = |10| by norm_num, ← abs_div]
    congr 1
    push_cast
    norm_num
    ring
  have hnear := h.near
  refine ⟨by rw [hdist]; linarith, fun hhalf => ?_⟩
  rw [hdist] at hhalf
  linarith

/-! ### The nearest decimal -/

theorem log_eq {t : Int} (hlow : 10 ^ t ≤ q) (hhigh : q < 10 ^ (t + 1)) : Int.log 10 q = t := by
  have hq : 0 < q := lt_of_lt_of_le (by positivity) hlow
  have hle := (Int.zpow_le_iff_le_log (b := 10) (by norm_num) hq).1 (by exact_mod_cast hlow)
  have hlt := (Int.lt_zpow_iff_log_lt (b := 10) (by norm_num) hq).1 (by exact_mod_cast hhigh)
  omega

/-- **`r` is a decimal with `n` significant digits.** -/
def HasDigits (n : Nat) (r : ℚ) : Prop :=
  ∃ (c : Nat) (x : Int), 10 ^ (n - 1) ≤ c ∧ c < 10 ^ n ∧ r = c * 10 ^ x

/-- **`r` is the decimal with `n` significant digits nearest to `q`.** If another one is equally
near, then `r` is the one that is even in the place of the last of `n` digits of `q`. -/
structure Nearest (q : ℚ) (n : Nat) (r : ℚ) : Prop where
  hasDigits : HasDigits n r
  le : ∀ r', HasDigits n r' → |r - q| ≤ |r' - q|
  even : ∀ r', HasDigits n r' → r' ≠ r → |r' - q| = |r - q| →
    ∃ k : Nat, Even k ∧ r = k * 10 ^ (Int.log 10 q + 1 - n)

/-- A decimal lies on the grid of the last digit, or below the power of ten of the first. -/
theorem HasDigits.grid (h : HasDigits (places + 1) r) (u : Int) :
    (∃ j : Nat, r = j * 10 ^ u) ∨ r < 10 ^ (u + places) := by
  obtain ⟨c, x, -, hlt, rfl⟩ := h
  rcases le_or_gt u x with hux | hxu
  · refine Or.inl ⟨c * 10 ^ (x - u).toNat, ?_⟩
    have hpow : (10 : ℚ) ^ x = 10 ^ (x - u).toNat * 10 ^ u := by
      rw [← zpow_natCast, ← zpow_add₀ (by norm_num)]
      congr 1
      omega
    rw [hpow]
    push_cast
    ring
  · refine Or.inr ?_
    have hc : (c : ℚ) < 10 ^ (places + 1) := by exact_mod_cast hlt
    calc (c : ℚ) * 10 ^ x < 10 ^ (places + 1) * 10 ^ x := by gcongr
      _ = 10 ^ (x + 1 + places) := by
        rw [← zpow_natCast, ← zpow_add₀ (by norm_num)]
        congr 1
        push_cast
        ring
      _ ≤ 10 ^ (u + places) := zpow_le_zpow_right₀ (by norm_num) (by omega)

theorem abs_mul_zpow_sub (j : Nat) (q : ℚ) (u : Int) :
    |(j : ℚ) * 10 ^ u - q| = |(j : ℚ) - q / 10 ^ u| * 10 ^ u := by
  have hpos : (0 : ℚ) < 10 ^ u := by positivity
  rw [← abs_of_pos hpos, ← abs_mul, abs_of_pos hpos, sub_mul, div_mul_cancel₀ _ hpos.ne']

/-- Where the mantissa of the rounded number is; the power of ten above is a carry. -/
theorem RoundsTo.bounds (h : RoundsTo (q / 10 ^ u) k) (hlow : 10 ^ (u + places) ≤ q)
    (hhigh : q < 10 ^ (u + places + 1)) : 10 ^ places ≤ k ∧ k ≤ 10 ^ (places + 1) := by
  have hpos : (0 : ℚ) < 10 ^ u := by positivity
  constructor
  · refine h.le_of_le ?_
    rw [le_div_iff₀ hpos]
    push_cast
    rwa [← zpow_natCast, ← zpow_add₀ (by norm_num), add_comm]
  · refine h.le_of_lt ?_
    rw [div_lt_iff₀ hpos]
    push_cast
    rw [← zpow_natCast, ← zpow_add₀ (by norm_num)]
    refine hhigh.trans_eq ?_
    congr 1
    push_cast
    ring

/-- **Rounding on the grid of the last digit** gives the nearest decimal. -/
theorem nearest_of_roundsTo (h : RoundsTo (q / 10 ^ u) k) (hlow : 10 ^ (u + places) ≤ q)
    (hhigh : q < 10 ^ (u + places + 1)) : Nearest q (places + 1) (k * 10 ^ u) := by
  have hpos : (0 : ℚ) < 10 ^ u := by positivity
  obtain ⟨hkle, hkge⟩ := h.bounds hlow hhigh
  have hlog : Int.log 10 q + 1 - (places + 1 : Nat) = u := by
    rw [log_eq hlow hhigh]
    push_cast
    omega
  -- The least decimal of this size is on the grid, so nothing below it is nearer.
  have hbelow : ∀ r', r' < 10 ^ (u + places) → |(k : ℚ) * 10 ^ u - q| < |r' - q| := by
    intro r' hr'
    have hpow : ((10 ^ places : Nat) : ℚ) * 10 ^ u = 10 ^ (u + places) := by
      push_cast
      rw [← zpow_natCast, ← zpow_add₀ (by norm_num), add_comm]
    have hle := mul_le_mul_of_nonneg_right (h.le (10 ^ places)) hpos.le
    rw [← abs_mul_zpow_sub, ← abs_mul_zpow_sub, hpow] at hle
    refine hle.trans_lt ?_
    rw [abs_of_nonpos (by linarith), abs_of_neg (by linarith)]
    linarith
  refine ⟨?_, fun r' hr' => ?_, fun r' hr' hne heq => ?_⟩
  · rcases hkge.eq_or_lt with rfl | hlt
    · refine ⟨10 ^ places, u + 1, by simp, Nat.pow_lt_pow_right (by norm_num) (by omega), ?_⟩
      rw [zpow_add_one₀ (by norm_num)]
      push_cast
      ring
    · exact ⟨k, u, by simpa using hkle, hlt, rfl⟩
  · rcases hr'.grid u with ⟨j, rfl⟩ | hlt
    · rw [abs_mul_zpow_sub, abs_mul_zpow_sub]
      exact mul_le_mul_of_nonneg_right (h.le j) hpos.le
    · exact (hbelow r' hlt).le
  · rcases hr'.grid u with ⟨j, rfl⟩ | hlt
    · have hjk : j ≠ k := by
        rintro rfl
        exact hne rfl
      rw [abs_mul_zpow_sub, abs_mul_zpow_sub] at heq
      exact ⟨k, h.even_of_eq hjk (mul_right_cancel₀ hpos.ne' heq), by rw [hlog]⟩
    · exact absurd heq (hbelow r' hlt).ne'

/-! ### The decimal of a fraction -/

/-- **There is nothing in front of the leading digit.** -/
theorem lt_tenTo_leadingExponent (hnum : 0 < num) (hden : 0 < den) :
    (num : ℚ) / den < 10 ^ (leadingExponent num den + 1) := by
  have hden' : (0 : ℚ) < den := by exact_mod_cast hden
  rw [div_lt_iff₀ hden']
  unfold leadingExponent
  split
  · have hlt := (length_digits_le_iff (length_digits_pos (num / den))).1 (Nat.le_refl _)
    have hmul : num < 10 ^ (digits (num / den)).length * den := (Nat.div_lt_iff_lt_mul hden).1 hlt
    rw [sub_add_cancel, zpow_natCast]
    exact_mod_cast hmul
  · next hlt =>
    -- `(den - 1) / num` is positive, because the numerator is smaller.
    have hpos : 0 < (den - 1) / num := Nat.div_pos (by omega) hnum
    have hpow := pow_length_le hpos
    have hlen := length_digits_pos ((den - 1) / num)
    have hmul : 10 ^ ((digits ((den - 1) / num)).length - 1) * num < den := by
      have hle := (Nat.mul_le_mul_right num hpow).trans (Nat.div_mul_le_self (den - 1) num)
      omega
    have hexp : -((digits ((den - 1) / num)).length : Int) + 1 =
        -((digits ((den - 1) / num)).length - 1 : Nat) := by omega
    rw [hexp, zpow_neg, zpow_natCast, inv_mul_eq_div, lt_div_iff₀ (by positivity), mul_comm]
    exact_mod_cast hmul

theorem roundsTo_scaled (hden : 0 < den) (num : Nat) (u : Int) :
    RoundsTo ((num : ℚ) / den / 10 ^ u)
      (roundRatio (scaled num den u).1 (scaled num den u).2) := by
  have hpos : (0 : ℚ) < 10 ^ u := by positivity
  have hround := roundsTo_roundRatio (n := (scaled num den u).1)
    (Nat.mul_pos hden (tenTo_pos u) : 0 < (scaled num den u).2)
  rwa [← scaled_div num den u, mul_div_cancel_right₀ _ hpos.ne']

section OfRatio

variable (hnum : 0 < num) (hden : 0 < den) (places : Nat)
include hnum hden

theorem nearest_ofRatio : Nearest ((num : ℚ) / den) (places + 1) (ofRatio num den places).value := by
  rw [value_ofRatio]
  refine nearest_of_roundsTo (roundsTo_scaled hden num _) ?_ ?_
  · rw [sub_add_cancel]
    exact tenTo_leadingExponent_le hnum hden
  · rw [sub_add_cancel]
    exact lt_tenTo_leadingExponent hnum hden

/-- **It has as many digits as it should**, and is rounded on its own scale too: a carry has made
that ten times as coarse, but then the number is nowhere near a tie. -/
theorem ofRatio_spec :
    (10 ^ places ≤ (ofRatio num den places).coefficient ∧
      (ofRatio num den places).coefficient < 10 ^ (places + 1)) ∧
    RoundsTo ((num : ℚ) / den / 10 ^ (ofRatio num den places).exponent)
      (ofRatio num den places).coefficient := by
  obtain ⟨u, hu⟩ : ∃ u, leadingExponent num den - places = u := ⟨_, rfl⟩
  have hround := roundsTo_scaled hden num u
  have hfirst : (10 : ℚ) ^ (u + places) ≤ num / den := by
    rw [← hu, sub_add_cancel]
    exact tenTo_leadingExponent_le hnum hden
  have hlast : (num : ℚ) / den < 10 ^ (u + places + 1) := by
    rw [← hu, sub_add_cancel]
    exact lt_tenTo_leadingExponent hnum hden
  obtain ⟨hlow, hhigh⟩ := hround.bounds hfirst hlast
  have hten (i : Nat) : tenTo (i : Int) = 10 ^ i := rfl
  have hten' : tenTo ((places : Int) + 1) = 10 ^ (places + 1) := hten (places + 1)
  unfold ofRatio
  dsimp only
  rw [hu, hten']
  split
  · next hcarry =>
    rw [hcarry, Nat.pow_succ, Nat.mul_comm] at hround
    refine ⟨⟨Nat.le_refl _, Nat.pow_lt_pow_right (by norm_num) (by omega)⟩, ?_⟩
    have htenth := hround.tenth
    rwa [div_div, ← zpow_add_one₀ (by norm_num)] at htenth
  · next hcarry => exact ⟨⟨hlow, lt_of_le_of_ne hhigh hcarry⟩, hround⟩

end OfRatio

end Calculator.Decimal
