import Calculator.Whole
import Calculator.Token.Lexeme

/-!
# Which doubles are finite

A double is finite if the bits of its exponent are not all set, that is, if its exact value is zero
or `±m · 2 ^ e` with `e ≤ 971`.

* `isFinite_ofParts`: packing a nonzero number gives a finite double exactly if `e ≤ 971`;
* `round_of_log2_le`: an integer of at most 53 bits is not rounded;
* `isFinite_neg`, `isNaN_neg`, `isFinite_ofInt`, `isFinite_factorialOf`: operations that stay finite,
  or numbers;
* `isNaN_toFloat`: reading a decimal never gives a NaN.
-/

namespace Calculator.Double

open Float.Model (UnpackedFloat Format totalExponent)
open Float.Model.UnpackedFloat

/-! ### The bits of the exponent -/

theorem isFinite_eq (x : Float) : x.isFinite = (parts x).isFinite := rfl

theorem isNaN_eq (x : Float) : x.isNaN = (parts x).isNaN := rfl

theorem parts_ofParts (v : UnpackedFloat) :
    parts (ofParts v) = unpack .binary64 (pack .binary64 v) := rfl

theorem isFinite_unpack (b : BitVec Format.binary64.numBits) :
    (unpack .binary64 b).isFinite = true ↔ unpackExponent b ≠ -1#_ := by
  unfold unpack
  by_cases h : unpackExponent b = -1#_
  · rw [if_pos h]
    by_cases hm : unpackMantissa b = 0#_
    · rw [if_pos hm]
      exact iff_of_false Bool.false_ne_true fun hne => hne h
    · rw [if_neg hm]
      exact iff_of_false Bool.false_ne_true fun hne => hne h
  · rw [if_neg h]
    by_cases hz : unpackExponent b = 0#_
    · rw [if_pos hz]
      by_cases hm : unpackMantissa b = 0#_
      · rw [dif_pos hm]
        exact iff_of_true rfl h
      · rw [dif_neg hm]
        exact iff_of_true rfl h
    · rw [if_neg hz]
      exact iff_of_true rfl h

/-- The exponent bits of a finite double are at most 2046, one less than all set. -/
theorem exponent_le {x : Float} {s : Sign} {m : Nat} {e : Int} {hm : 0 < m}
    (h : parts x = .finite s m e hm) : e ≤ 971 := by
  have hne := (isFinite_unpack x.toModel.toBits.toBitVec).1
    (show (parts x).isFinite = true by rw [h]; rfl)
  have h : unpack .binary64 x.toModel.toBits.toBitVec = .finite s m e hm := h
  have hlt : (@unpackExponent .binary64 x.toModel.toBits.toBitVec).toNat < 2048 :=
    (@unpackExponent .binary64 x.toModel.toBits.toBitVec).isLt
  have hlast : (@unpackExponent .binary64 x.toModel.toBits.toBitVec).toNat ≠ 2047 :=
    fun h' => hne (BitVec.eq_of_toNat_eq h')
  have hbias : Format.binary64.exponentBias = 1023 := rfl
  have hmantissa : Format.binary64.mantissaBitsWithoutImplicit = 52 := rfl
  unfold unpack at h
  rw [if_neg hne, hbias] at h
  by_cases hz : @unpackExponent .binary64 x.toModel.toBits.toBitVec = 0#_
  · rw [if_pos hz] at h
    by_cases hzero : @unpackMantissa .binary64 x.toModel.toBits.toBitVec = 0#_
    · rw [dif_pos hzero] at h
      cases h
    · rw [dif_neg hzero] at h
      obtain ⟨-, -, rfl⟩ := UnpackedFloat.finite.inj h
      rw [hz]
      decide
  · rw [if_neg hz] at h
    obtain ⟨-, -, rfl⟩ := UnpackedFloat.finite.inj h
    omega

/-! ### Packing -/

theorem parts_ofParts_infinity (s : Sign) : parts (ofParts (.infinity s)) = .infinity s := by
  cases s <;> rfl

theorem isFinite_ofParts_zero (s : Sign) : (ofParts (.zero s)).isFinite = true := by
  cases s <;> rfl

theorem parts_ofParts_of_lt {s : Sign} {m : Nat} {e : Int} {hm : 0 < m} (h : 971 < e) :
    parts (ofParts (.finite s m e hm)) = .infinity s := by
  have hbias : Format.binary64.exponentBias = 1023 := rfl
  rw [← parts_ofParts_infinity, parts_ofParts, parts_ofParts]
  congr 1
  unfold pack
  simp only [hbias]
  rw [if_pos (by omega)]

theorem isFinite_ofParts {s : Sign} {m : Nat} {e : Int} {hm : 0 < m} :
    (ofParts (.finite s m e hm)).isFinite = true ↔ e ≤ 971 := by
  by_cases he : e ≤ 971
  · rw [isFinite_eq, parts_ofParts, isFinite_unpack]
    refine iff_of_true ?_ he
    have hbias : Format.binary64.exponentBias = 1023 := rfl
    unfold pack
    simp only [hbias]
    rw [if_neg (by omega)]
    split
    · rw [unpackExponent_packComponents]
      intro h
      have h := congrArg BitVec.toNat h
      rw [BitVec.toNat_ofNat, Nat.mod_eq_of_lt (by omega)] at h
      have h : (e + (1023 : Nat) + (52 : Nat)).toNat = 2047 := h
      omega
    · rw [unpackExponent_packComponents]
      decide
  · rw [isFinite_eq, parts_ofParts_of_lt (by omega)]
    exact iff_of_false Bool.false_ne_true he

theorem isNaN_ofParts (v : UnpackedFloat) : (ofParts v).isNaN = v.isNaN := by
  rw [isNaN_eq]
  cases v with
  | notANumber => rfl
  | infinity s | zero s => cases s <;> rfl
  | finite s m e hm =>
    by_cases he : e ≤ 971
    · have hfin : (ofParts (.finite s m e hm)).isFinite = true := isFinite_ofParts.2 he
      rw [isFinite_eq] at hfin
      cases hp : parts (ofParts (.finite s m e hm)) with
      | notANumber => rw [hp] at hfin; cases hfin
      | infinity | zero | finite => rfl
    · rw [parts_ofParts_of_lt (by omega)]
      rfl

theorem exists_infinity {x : Float} (hf : x.isFinite = false) (hn : x.isNaN = false) :
    ∃ s, parts x = .infinity s := by
  rw [isFinite_eq] at hf
  rw [isNaN_eq] at hn
  cases hp : parts x with
  | infinity s => exact ⟨s, rfl⟩
  | notANumber => rw [hp] at hn; cases hn
  | zero | finite => rw [hp] at hf; cases hf

theorem isInf_of_not_isFinite {x : Float} (hf : x.isFinite = false) (hn : x.isNaN = false) :
    x.isInf = true := by
  obtain ⟨s, hs⟩ := exists_infinity hf hn
  show (parts x).isInf = true
  rw [hs]
  rfl

theorem isFinite_of_isNaN {x : Float} (h : x.isNaN = true) : x.isFinite = false := by
  rw [isNaN_eq] at h
  rw [isFinite_eq]
  cases hp : parts x with
  | notANumber => rfl
  | infinity | zero | finite => rw [hp] at h; cases h

theorem isNaN_of_isFinite {x : Float} (h : x.isFinite = true) : x.isNaN = false := by
  rw [Bool.eq_false_iff]
  intro hnan
  rw [isFinite_of_isNaN hnan] at h
  cases h

theorem isFinite_of_isInf {x : Float} (h : x.isInf = true) : x.isFinite = false := by
  have h : (parts x).isInf = true := h
  rw [isFinite_eq]
  cases hp : parts x with
  | infinity => rfl
  | notANumber | zero | finite => rw [hp] at h; cases h

theorem isFinite_neg (x : Float) : (-x).isFinite = x.isFinite := by
  show (ofParts (parts x).neg).isFinite = _
  rw [isFinite_eq x]
  cases hp : parts x with
  | notANumber => rfl
  | infinity s =>
    show (parts (ofParts (.infinity _))).isFinite = _
    rw [parts_ofParts_infinity]
    rfl
  | zero s => exact isFinite_ofParts_zero _
  | finite s m e hm => exact isFinite_ofParts.2 (exponent_le hp)

theorem isNaN_neg (x : Float) : (-x).isNaN = x.isNaN := by
  show (ofParts (parts x).neg).isNaN = _
  rw [isNaN_ofParts, isNaN_eq]
  cases parts x <;> rfl

/-! ### Rounding -/

theorem targetExponent_eq (t : Int) : Format.binary64.targetExponent t = max (t - 53) (-1074) := by
  unfold Format.targetExponent
  rfl

theorem roundWithAccuracy_of_eq {s : Sign} {m : Nat} {e : Int} (hm : 0 < m)
    (he : Format.binary64.targetExponent (totalExponent m e) = e) :
    roundWithAccuracy .binary64 s m e .exact = .finite s m e hm := by
  have hshift : shiftToTargetExponent .binary64 m e .exact = (⟨m, false, false⟩, e) := by
    unfold shiftToTargetExponent shiftToExponent
    simp only [he, Int.sub_self]
    show (_, e + 0) = _
    rw [Int.add_zero]
    rfl
  have hround : ExtendedMantissa.roundedMantissa ⟨m, false, false⟩ = m := rfl
  unfold roundWithAccuracy
  rw [hshift]
  dsimp only
  rw [hround, hshift]
  exact dif_neg (Nat.ne_of_gt hm)

theorem log2_shiftLeft {m : Nat} (hm : 0 < m) (k : Nat) : (m <<< k).log2 = m.log2 + k := by
  rw [Nat.shiftLeft_eq]
  have hm := Nat.ne_of_gt hm
  rw [Nat.log2_eq_iff (Nat.mul_ne_zero hm (Nat.ne_of_gt (Nat.two_pow_pos k)))]
  obtain ⟨hle, hlt⟩ := (Nat.log2_eq_iff hm).1 rfl
  rw [Nat.pow_add, show m.log2 + k + 1 = (m.log2 + 1) + k by omega, Nat.pow_add]
  exact ⟨Nat.mul_le_mul_right _ hle, Nat.mul_lt_mul_of_pos_right hlt (Nat.two_pow_pos k)⟩

/-- **An integer of at most 53 bits is a double.** -/
theorem round_of_log2_le {s : Sign} {m : Nat} (hm : 0 < m) (h : m.log2 ≤ 52) :
    UnpackedFloat.round .binary64 s m 0 = .finite s (m <<< (52 - m.log2)) (m.log2 - 52)
      (by rw [Nat.shiftLeft_eq]; exact Nat.mul_pos hm (Nat.two_pow_pos _)) := by
  have htarget : Format.binary64.targetExponent (totalExponent m 0) = m.log2 - 52 := by
    rw [targetExponent_eq, totalExponent]
    omega
  have hdecrease : decreaseExponent m 0 (m.log2 - 52) = (m <<< (52 - m.log2), (m.log2 : Int) - 52) := by
    unfold decreaseExponent
    have hshift : (0 - ((m.log2 : Int) - 52)).toNat = 52 - m.log2 := by omega
    have hexp : (0 : Int) - (52 - m.log2 : Nat) = m.log2 - 52 := by omega
    simp only [hshift, hexp]
  unfold UnpackedFloat.round
  rw [htarget]
  dsimp only
  rw [hdecrease]
  refine roundWithAccuracy_of_eq _ ?_
  rw [targetExponent_eq, totalExponent, log2_shiftLeft hm]
  omega

theorem isFinite_ofInt {n : Int} (h : n.natAbs ≤ Whole.maxSafe) : (ofInt n).isFinite = true := by
  have hlog {m : Nat} (hm : 0 < m) (hle : m ≤ Whole.maxSafe) : m.log2 ≤ 52 := by
    have := (Nat.log2_lt (Nat.ne_of_gt hm)).2 (show m < 2 ^ 53 by unfold Whole.maxSafe at hle; omega)
    omega
  have hround {s : Sign} {m : Nat} (hm : 0 < m) (hle : m ≤ Whole.maxSafe) :
      (ofParts (UnpackedFloat.round .binary64 s m 0)).isFinite = true := by
    have := hlog hm hle
    rw [round_of_log2_le hm this]
    exact isFinite_ofParts.2 (by omega)
  show (ofParts (UnpackedFloat.normalize .binary64 n 0 .positive)).isFinite = true
  unfold UnpackedFloat.normalize
  cases hc : compare n 0 with
  | eq => exact isFinite_ofParts_zero _
  | lt =>
    have := Int.compare_eq_lt.1 hc
    exact hround (by omega) (by omega)
  | gt =>
    have := Int.compare_eq_gt.1 hc
    exact hround (by omega) (by omega)

theorem isFinite_factorialOf {n : Nat} (h : n ≤ 170) :
    (Combinatorics.factorialOf n).isFinite = true := by
  have : ∀ n < 171, (Combinatorics.factorialOf n).isFinite = true := by decide +kernel
  exact this n (by omega)

/-! ### Reading decimals -/

theorem isNaN_roundWithAccuracy (s : Sign) (m : Nat) (e : Int) (a : Accuracy) :
    (roundWithAccuracy .binary64 s m e a).isNaN = false := by
  unfold roundWithAccuracy
  rcases shiftToTargetExponent .binary64 m e a with ⟨shifted, e'⟩
  dsimp only
  rcases shiftToTargetExponent .binary64 shifted.roundedMantissa e' .exact with ⟨final, e''⟩
  by_cases h : final.mantissa = 0
  · rw [dif_pos h]
    rfl
  · rw [dif_neg h]
    rfl

theorem isNaN_ofScientific (m : Nat) (e : Int) : (ofScientific .binary64 m e).isNaN = false := by
  unfold ofScientific
  by_cases hm : m = 0
  · rw [dif_pos hm]
    rfl
  · rw [dif_neg hm]
    by_cases hlarge : e > 2 ^ Format.binary64.exponentBits
    · rw [if_pos hlarge]
      rfl
    · rw [if_neg hlarge]
      by_cases hsmall : e < -((2 ^ Format.binary64.exponentBits : Int) + m.log2)
      · rw [if_pos hsmall]
        rfl
      · rw [if_neg hsmall]
        by_cases he : 0 ≤ e
        · rw [if_pos he]
          exact isNaN_roundWithAccuracy ..
        · rw [if_neg he]
          exact isNaN_roundWithAccuracy ..

/-- **A decimal is never read as NaN.** -/
theorem isNaN_toFloat (d : Decimal) : d.toFloat.isNaN = false := by
  show (ofParts (ofScientific .binary64 d.coefficient d.exponent)).isNaN = false
  rw [isNaN_ofParts]
  exact isNaN_ofScientific _ _

theorem isNaN_numberValue (cs : List Char) : (Lexeme.numberValue cs).isNaN = false := by
  unfold Lexeme.numberValue
  cases (Decimal.read? cs).or (Decimal.read? (Lexeme.mantissa cs)) with
  | none => decide
  | some d => exact isNaN_toFloat d

end Calculator.Double
