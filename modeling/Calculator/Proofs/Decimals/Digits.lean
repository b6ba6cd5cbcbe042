import Calculator.Proofs.Doubles.Rounding

/-!
# Decimals with a number of significant digits

A fraction is rounded to a decimal with `places` digits after the leading one, so it is off by at
most half a unit of the last one.

* `tenTo_leadingExponent_le`: the power of ten of the leading digit is not greater than the number;
* `abs_value_ofRatio_sub_le`: the rounded number and the number differ by one part in
  `2 · 10 ^ places` at most.
-/

namespace Calculator.Decimal

variable {num den places n d : Nat} {unit : Int}

/-! ### The leading digit -/

theorem length_digits_le_iff {k : Nat} (hk : 0 < k) : (digits n).length ≤ k ↔ n < 10 ^ k :=
  Nat.length_toDigits_le_iff (by decide) hk

theorem length_digits_pos (n : Nat) : 0 < (digits n).length := Nat.length_toDigits_pos

theorem pow_length_le (hn : 0 < n) : 10 ^ ((digits n).length - 1) ≤ n := by
  have hpos := length_digits_pos n
  by_contra hlt
  rcases Nat.eq_zero_or_pos ((digits n).length - 1) with hzero | hk
  · rw [hzero] at hlt
    omega
  · have := (length_digits_le_iff hk).2 (Nat.lt_of_not_le hlt)
    omega

/-- **The leading digit is there.** -/
theorem tenTo_leadingExponent_le (hnum : 0 < num) (hden : 0 < den) :
    (10 : ℚ) ^ leadingExponent num den ≤ num / den := by
  have hden' : (0 : ℚ) < den := by exact_mod_cast hden
  rw [le_div_iff₀ hden']
  unfold leadingExponent
  split
  · next hle =>
    have hpow := pow_length_le (Nat.div_pos hle hden)
    have hpos := length_digits_pos (num / den)
    have hmul : 10 ^ ((digits (num / den)).length - 1) * den ≤ num :=
      (Nat.mul_le_mul_right den hpow).trans (Nat.div_mul_le_self num den)
    have hexp : ((digits (num / den)).length : Int) - 1 =
      ((digits (num / den)).length - 1 : Nat) := by omega
    rw [hexp, zpow_natCast]
    exact_mod_cast hmul
  · have hlt := (length_digits_le_iff (length_digits_pos ((den - 1) / num))).1 (Nat.le_refl _)
    have hmul : den ≤ num * 10 ^ (digits ((den - 1) / num)).length := by
      have := (Nat.div_lt_iff_lt_mul hnum).1 hlt
      rw [Nat.mul_comm]
      omega
    rw [zpow_neg, zpow_natCast, inv_mul_le_iff₀ (by positivity), mul_comm]
    exact_mod_cast hmul

/-! ### Rounding -/

theorem abs_roundRatio_sub_le (hd : 0 < d) : |(roundRatio n d : ℚ) - n / d| ≤ 1 / 2 := by
  have hd' : (0 : ℚ) < d := by exact_mod_cast hd
  have hupper : (2 * (roundRatio n d * d) : ℚ) ≤ 2 * n + d := by exact_mod_cast roundRatio_le
  have hlower : (2 * n : ℚ) ≤ 2 * (roundRatio n d * d) + d := by exact_mod_cast le_roundRatio hd
  have hmul : ((n : ℚ) / d) * d = n := div_mul_cancel₀ _ hd'.ne'
  rw [abs_le]
  constructor
  · refine le_of_mul_le_mul_right ?_ hd'
    rw [sub_mul, hmul]
    linarith
  · refine le_of_mul_le_mul_right ?_ hd'
    rw [sub_mul, hmul]
    linarith

theorem scaled_div (num den : Nat) (unit : Int) :
    ((scaled num den unit).1 : ℚ) / (scaled num den unit).2 * 10 ^ unit = num / den := by
  have hpos : (tenTo unit : ℚ) ≠ 0 := by exact_mod_cast (tenTo_pos unit).ne'
  have hneg : (tenTo (-unit) : ℚ) ≠ 0 := by exact_mod_cast (tenTo_pos (-unit)).ne'
  unfold scaled
  rw [← tenTo_div]
  push_cast
  field_simp

/-- A carry into the next power of ten only drops a zero. -/
theorem value_carry (places : Nat) (unit : Int) :
    value ⟨tenTo places, unit + 1⟩ = tenTo (places + 1) * 10 ^ unit := by
  have hpow : tenTo (places + 1) = tenTo places * 10 := by
    show 10 ^ ((places : Int) + 1).toNat = 10 ^ (places : Int).toNat * 10
    rw [show ((places : Int) + 1).toNat = (places : Int).toNat + 1 by omega, Nat.pow_succ]
  unfold value
  dsimp only
  rw [hpow, zpow_add_one₀ (by norm_num)]
  push_cast
  ring

theorem value_ofRatio (num den places : Nat) :
    (ofRatio num den places).value =
      roundRatio (scaled num den (leadingExponent num den - places)).1
        (scaled num den (leadingExponent num den - places)).2 *
          10 ^ (leadingExponent num den - places) := by
  unfold ofRatio
  dsimp only
  split
  · next hcarry => rw [value_carry, hcarry]
  · rfl

/-- **Rounding to significant digits** changes a number by half a unit of the last one at most. -/
theorem abs_value_ofRatio_sub_le (hnum : 0 < num) (hden : 0 < den) (places : Nat) :
    |(ofRatio num den places).value - num / den| ≤ (num / den : ℚ) / (2 * 10 ^ places) := by
  obtain ⟨unit, hunit⟩ : ∃ unit, leadingExponent num den - places = unit := ⟨_, rfl⟩
  have hten : (0 : ℚ) < 10 ^ unit := by positivity
  have hpos : 0 < (scaled num den unit).2 := Nat.mul_pos hden (tenTo_pos unit)
  have hround := abs_roundRatio_sub_le (n := (scaled num den unit).1) hpos
  have hlead : (10 : ℚ) ^ unit ≤ num / den / 10 ^ places := by
    rw [← hunit, zpow_sub₀ (by norm_num), zpow_natCast]
    gcongr
    exact tenTo_leadingExponent_le hnum hden
  rw [value_ofRatio, hunit, ← scaled_div num den unit, ← sub_mul, abs_mul, abs_of_pos hten]
  calc |(roundRatio (scaled num den unit).1 (scaled num den unit).2 : ℚ) -
        (scaled num den unit).1 / (scaled num den unit).2| * 10 ^ unit
      ≤ 1 / 2 * 10 ^ unit := by gcongr
    _ ≤ 1 / 2 * (num / den / 10 ^ places) := by gcongr
    _ = _ := by
      rw [scaled_div]
      field_simp

end Calculator.Decimal
