import Mathlib
import Calculator.Double.Integral
import Calculator.Proofs.Doubles.Rounding

/-!
# Doubles by their mantissa and exponent

A nonzero finite double is `±m · 2 ^ e` in exactly one canonical way.

* `Canonical m e`: the mantissas and exponents of doubles (`canonical_of_parts`), with which packing
  and unpacking are inverse to each other (`parts_ofParts_finite`);
* `scale_of_near`: the scales of the numbers around a double, and `carried_of_canonical`: on its own
  scale it is not rounded.
-/

namespace Calculator.Double

open Float.Model (UnpackedFloat Format totalExponent)
open Float.Model.UnpackedFloat

variable {x y : Float} {s : Sign} {m n r : Nat} {e f t : Int} {hm : 0 < m} {hn : 0 < n} {q : ℚ}

/-! ### Canonical mantissas -/

/-- **A mantissa and an exponent of a double**: 53 bits, or fewer with the least exponent. -/
structure Canonical (m : Nat) (e : Int) : Prop where
  pos : 0 < m
  lt : m < 2 ^ 53
  min : -1074 ≤ e
  max : e ≤ 971
  full : e ≠ -1074 → 2 ^ 52 ≤ m

theorem toNat_one_append (v : BitVec 52) : (1#1 ++ v).toNat = 2 ^ 52 + v.toNat := by
  rw [BitVec.toNat_append, ← Nat.shiftLeft_add_eq_or_of_lt v.isLt]
  rfl

theorem canonical_of_parts (h : parts x = .finite s m e hm) : Canonical m e := by
  have hmax := exponent_le h
  have hne := (isFinite_unpack x.toModel.toBits.toBitVec).1
    (show (parts x).isFinite = true by rw [h]; rfl)
  have h : unpack .binary64 x.toModel.toBits.toBitVec = .finite s m e hm := h
  have hmantissa : (@unpackMantissa .binary64 x.toModel.toBits.toBitVec).toNat < 2 ^ 52 :=
    (@unpackMantissa .binary64 x.toModel.toBits.toBitVec).isLt
  have hbias : Format.binary64.exponentBias = 1023 := rfl
  have hwidth : Format.binary64.mantissaBitsWithoutImplicit = 52 := rfl
  unfold unpack at h
  rw [if_neg hne, hbias] at h
  by_cases hz : @unpackExponent .binary64 x.toModel.toBits.toBitVec = 0#_
  · rw [if_pos hz] at h
    by_cases hzero : @unpackMantissa .binary64 x.toModel.toBits.toBitVec = 0#_
    · rw [dif_pos hzero] at h
      cases h
    · rw [dif_neg hzero] at h
      obtain ⟨-, rfl, rfl⟩ := UnpackedFloat.finite.inj h
      have hexponent : (@unpackExponent .binary64 x.toModel.toBits.toBitVec).toNat = 0 := by
        rw [hz]
        rfl
      exact ⟨hm, by omega, by omega, hmax, fun hmin => by omega⟩
  · rw [if_neg hz] at h
    obtain ⟨-, rfl, rfl⟩ := UnpackedFloat.finite.inj h
    have hexponent : (@unpackExponent .binary64 x.toModel.toBits.toBitVec).toNat ≠ 0 :=
      fun h' => hz (BitVec.eq_of_toNat_eq h')
    have happend := toNat_one_append (@unpackMantissa .binary64 x.toModel.toBits.toBitVec)
    have happend : (1#1 ++ @unpackMantissa .binary64 x.toModel.toBits.toBitVec).toNat =
      2 ^ 52 + (@unpackMantissa .binary64 x.toModel.toBits.toBitVec).toNat := happend
    exact ⟨hm, by omega, by omega, hmax, fun _ => by omega⟩

section Components

variable {exponent : BitVec Format.binary64.exponentBits}
  {mantissa : BitVec Format.binary64.mantissaBitsWithoutImplicit}

theorem unpack_normal (hlast : exponent ≠ -1#_) (hfirst : exponent ≠ 0#_) (hm : 0 < m)
    (hmantissa : 2 ^ 52 + mantissa.toNat = m) (hexponent : (exponent.toNat : Int) - 1075 = e) :
    unpack .binary64 (packComponents .binary64 s exponent mantissa) = .finite s m e hm := by
  unfold unpack
  simp only [unpackExponent_packComponents, unpackMantissa_packComponents,
    unpackSign_packComponents, Sign.ofBitVec_toBitVec, if_neg hlast, if_neg hfirst]
  congr 1
  exact (toNat_one_append mantissa).trans hmantissa

theorem unpack_subnormal (hm : 0 < m) (hmantissa : mantissa.toNat = m) :
    unpack .binary64 (packComponents .binary64 s 0#_ mantissa) = .finite s m (-1074) hm := by
  have hlast : BitVec.ofNat Format.binary64.exponentBits 0 ≠ -1#_ := by decide
  have hzero : mantissa ≠ 0#_ := by
    rintro rfl
    exact absurd hmantissa (Nat.ne_of_lt hm)
  unfold unpack
  simp only [unpackExponent_packComponents, unpackMantissa_packComponents,
    unpackSign_packComponents, Sign.ofBitVec_toBitVec, if_neg hlast, if_true, dif_neg hzero]
  congr 1

end Components

/-- A mantissa of 53 bits is packed without its first bit, beside a biased exponent. -/
theorem unpack_pack_normal (h : Canonical m e) (hlow : 2 ^ 52 ≤ m) (s : Sign) :
    unpack .binary64 (pack .binary64 (.finite s m e h.pos)) = .finite s m e h.pos := by
  obtain ⟨hpos, hlt, hmin, hmax, -⟩ := h
  have hlog : m.log2 = 52 := (Nat.log2_eq_iff (by omega)).2 ⟨hlow, hlt⟩
  have hbias : Format.binary64.exponentBias = 1023 := rfl
  have hbits : Format.binary64.mantissaBits = 53 := rfl
  have hexponent : (BitVec.ofNat Format.binary64.exponentBits
      (e + (1023 : Nat) + Format.binary64.mantissaBitsWithoutImplicit).toNat).toNat =
      (e + 1075).toNat := by
    show (e + 1023 + 52).toNat % 2048 = _
    omega
  unfold pack
  simp only [hbias]
  rw [if_neg (by omega), hbits, if_pos (by omega)]
  refine unpack_normal ?_ ?_ hpos ?_ ?_
  · intro h
    have h := congrArg BitVec.toNat h
    rw [hexponent] at h
    have h : (e + 1075).toNat = 2047 := h
    omega
  · intro h
    have h := congrArg BitVec.toNat h
    rw [hexponent] at h
    have h : (e + 1075).toNat = 0 := h
    omega
  · show 2 ^ 52 + m % 2 ^ 52 = m
    omega
  · rw [hexponent]
    omega

theorem unpack_pack_subnormal (hpos : 0 < m) (hlow : m < 2 ^ 52) (s : Sign) :
    unpack .binary64 (pack .binary64 (.finite s m (-1074) hpos)) = .finite s m (-1074) hpos := by
  have hlog : m.log2 < 52 := (Nat.log2_lt (by omega)).2 hlow
  have hbias : Format.binary64.exponentBias = 1023 := rfl
  have hbits : Format.binary64.mantissaBits = 53 := rfl
  unfold pack
  simp only [hbias]
  rw [if_neg (by omega), hbits, if_neg (by omega)]
  refine unpack_subnormal hpos ?_
  show m % 2 ^ 52 = m
  omega

/-- **Unpacking gives back what has been packed**, if it is canonical. -/
theorem parts_ofParts_finite (h : Canonical m e) (s : Sign) :
    parts (ofParts (.finite s m e h.pos)) = .finite s m e h.pos := by
  rw [parts_ofParts]
  by_cases hlow : 2 ^ 52 ≤ m
  · exact unpack_pack_normal h hlow s
  · obtain rfl : e = -1074 := by
      by_contra hne
      exact hlow (h.full hne)
    exact unpack_pack_subnormal h.pos (Nat.lt_of_not_le hlow) s

theorem ofParts_parts (x : Float) : ofParts (parts x) = x :=
  Float.ofBits_toBits x

/-! ### Numbers around a double -/

theorem eq_of_abs_sub_lt {y : ℚ} (hr : |(r : ℚ) - y| ≤ 1 / 2) (hm : |y - m| < 1 / 2) : r = m := by
  obtain ⟨hr₁, hr₂⟩ := abs_le.1 hr
  obtain ⟨hm₁, hm₂⟩ := abs_lt.1 hm
  have hlt : r < m + 1 := by exact_mod_cast (by linarith : (r : ℚ) < m + 1)
  have hgt : m < r + 1 := by exact_mod_cast (by linarith : (m : ℚ) < r + 1)
  omega

/-- **A number that is at most half a unit away from a double is on its scale.** Below a power of two
the doubles are denser, and the scale may be the one below. -/
theorem scale_of_near (hc : Canonical m e) (hscale : Scale q t) (hq : |q / 2 ^ e - m| ≤ 1 / 2) :
    t = e ∨ t = e - 1 ∧ m = 2 ^ 52 := by
  have htwo : (0 : ℚ) < 2 ^ e := by positivity
  obtain ⟨hlower, hupper⟩ := abs_le.1 hq
  have hm : (m : ℚ) + 1 ≤ 2 ^ 53 := by exact_mod_cast hc.lt
  -- On the scale of `q`, in units of the double.
  have hlt : q / 2 ^ e < 2 ^ (t + 53 - e) := by
    rw [zpow_sub₀ two_ne_zero]
    exact div_lt_div_of_pos_right hscale.lt htwo
  have hle (h : t ≠ -1074) : 2 ^ (t + 52 - e) ≤ q / 2 ^ e := by
    rw [zpow_sub₀ two_ne_zero]
    exact div_le_div_of_nonneg_right (hscale.le h) htwo.le
  have hte : t ≤ e := by
    by_contra hgt
    have hpow : (2 : ℚ) ^ (53 : Int) ≤ 2 ^ (t + 52 - e) := zpow_le_zpow_right₀ one_le_two (by omega)
    have := hle (by have := hc.min; omega)
    rw [zpow_ofNat] at hpow
    linarith
  refine hte.eq_or_lt.imp_right fun hlt' => ?_
  have hfull : 2 ^ 52 ≤ m := hc.full (by have := hscale.min; omega)
  have ht : t = e - 1 := by
    by_contra hne
    have hpow : (2 : ℚ) ^ (t + 53 - e) ≤ 2 ^ (51 : Int) :=
      zpow_le_zpow_right₀ one_le_two (by omega)
    have hfull : (2 : ℚ) ^ 52 ≤ m := by exact_mod_cast hfull
    rw [zpow_ofNat] at hpow
    linarith
  refine ⟨ht, ?_⟩
  by_contra hne
  have hfull : (2 : ℚ) ^ 52 + 1 ≤ m := by exact_mod_cast (by omega : 2 ^ 52 + 1 ≤ m)
  have hpow : (2 : ℚ) ^ (t + 53 - e) = 2 ^ 52 := by
    rw [ht, show e - 1 + 53 - e = (52 : Int) by omega, zpow_ofNat]
  linarith

/-- **A double is rounded to itself**, on its own scale. -/
theorem carried_of_canonical (hc : Canonical m e) (hscale : Scale (m * 2 ^ e) t)
    (hr : |(r : ℚ) - m * 2 ^ e / 2 ^ t| ≤ 1 / 2) : carried s r t = .finite s m e hc.pos := by
  have htwo : (2 : ℚ) ^ e ≠ 0 := by positivity
  have hself : (m : ℚ) * 2 ^ e / 2 ^ e = m := mul_div_cancel_right₀ _ htwo
  have hzero : |(m : ℚ) - m| < 1 / 2 := by
    rw [sub_self, abs_zero]
    norm_num
  unfold carried
  rcases scale_of_near hc hscale (by rw [hself]; exact hzero.le) with rfl | ⟨rfl, rfl⟩
  · rw [hself] at hr
    obtain rfl := eq_of_abs_sub_lt hr hzero
    rw [dif_neg hc.pos.ne', if_pos hc.lt]
  · -- A power of two is not below itself.
    have hpow : ((2 ^ 52 : Nat) : ℚ) * 2 ^ e = 2 ^ (e - 1 + 53) := by
      rw [show e - 1 + 53 = 52 + e by omega, zpow_add₀ two_ne_zero]
      norm_num
    exact absurd hscale.lt hpow.not_lt

end Calculator.Double
