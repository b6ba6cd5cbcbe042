import Mathlib.Algebra.Order.Field.Power
import Mathlib.Data.Rat.Cast.Order
import Mathlib.Tactic.FieldSimp
import Mathlib.Tactic.Linarith
import Mathlib.Tactic.NormNum
import Mathlib.Tactic.Positivity
import Mathlib.Tactic.Ring
import Calculator.Proofs.Doubles.Finite

/-!
# Rounding to the nearest double

A number is rounded by way of its integer part on some scale and the place of the rest: none, less
than a half, a half, or more. Here the numbers are the exact ones, in `ℚ`.

* `Placed m a q`: `m` is the integer part of `q`, and `a` says where the rest is;
* `Scale q t`: the doubles around `q` are multiples of `2 ^ t`;
* `exists_carried`: a number is rounded after it has been placed on its scale;
* `exists_roundWithAccuracy`: so rounding gives a multiple of `2 ^ t` that is at most half a unit away;
* `exists_placed_ofScientific`: a decimal is placed before it is rounded.
-/

namespace Calculator

/-! ### Powers -/

theorem pow_toNat_div {b : Nat} (hb : b ≠ 0) (k : Int) :
    ((b ^ k.toNat : Nat) : ℚ) / (b ^ (-k).toNat : Nat) = b ^ k := by
  have hb : (b : ℚ) ≠ 0 := by exact_mod_cast hb
  push_cast
  rw [← zpow_natCast, ← zpow_natCast, ← zpow_sub₀ hb]
  congr 1
  omega

theorem twoTo_div (k : Int) : (twoTo k : ℚ) / twoTo (-k) = 2 ^ k :=
  pow_toNat_div two_ne_zero k

theorem mul_twoTo_div (m : Nat) (e : Int) :
    ((m * twoTo e : Nat) : ℚ) / (twoTo (-e) : Nat) = m * 2 ^ e := by
  rw [Nat.cast_mul, mul_div_assoc, twoTo_div]

theorem tenTo_div (k : Int) : (tenTo k : ℚ) / tenTo (-k) = 10 ^ k :=
  pow_toNat_div (by decide) k

/-- The number that a decimal stands for. -/
def Decimal.value (d : Decimal) : ℚ := d.coefficient * 10 ^ d.exponent

namespace Double

open Float.Model (UnpackedFloat Format totalExponent)
open Float.Model.UnpackedFloat

variable {em : ExtendedMantissa} {a : Accuracy} {q : ℚ} {m n d : Nat} {e t : Int}

/-! ### The place of a number in a unit -/

/-- **The integer part of `q` is `m`**, and the rest is where `a` says. -/
def Placed (m : Nat) (a : Accuracy) (q : ℚ) : Prop :=
  match a with
  | .exact => q = m
  | .inexact .lt => (m : ℚ) < q ∧ q < m + 1 / 2
  | .inexact .eq => q = m + 1 / 2
  | .inexact .gt => (m : ℚ) + 1 / 2 < q ∧ q < m + 1

theorem Placed.bounds (h : Placed m a q) : (m : ℚ) ≤ q ∧ q < m + 1 := by
  unfold Placed at h
  split at h
  · constructor <;> linarith
  · constructor <;> linarith
  · constructor <;> linarith
  · constructor <;> linarith

theorem Placed.abs_sub_le (h : Placed m a q) : |(a.roundToNearestEven m : ℚ) - q| ≤ 1 / 2 := by
  rw [abs_le]
  unfold Placed at h
  unfold Accuracy.roundToNearestEven
  split at h
  · constructor <;> push_cast <;> linarith
  · constructor <;> push_cast <;> linarith
  · -- A tie goes to the even side, either of them half a unit away.
    rcases Nat.mod_two_eq_zero_or_one m with hm | hm
    · rw [hm]
      constructor <;> push_cast <;> linarith
    · rw [hm]
      constructor <;> push_cast <;> linarith
  · constructor <;> push_cast <;> linarith

theorem placed_fraction (hd : 0 < d) :
    Placed (n / d) (accuracyOfFraction (n % d) d) ((n : ℚ) / d) := by
  have hd' : (0 : ℚ) < d := by exact_mod_cast hd
  have hdiv : (n : ℚ) = d * (n / d : Nat) + (n % d : Nat) := by
    exact_mod_cast (Nat.div_add_mod n d).symm
  have hlt : ((n % d : Nat) : ℚ) < d := by exact_mod_cast Nat.mod_lt n hd
  have hq : (n : ℚ) / d = (n / d : Nat) + (n % d : Nat) / d := by
    field_simp
    linarith
  unfold accuracyOfFraction
  by_cases hzero : n % d = 0
  · rw [if_pos hzero, hq, hzero]
    simp [Placed]
  · have hpos : (0 : ℚ) < (n % d : Nat) := by exact_mod_cast Nat.pos_of_ne_zero hzero
    rw [if_neg hzero, hq]
    cases hc : compare (2 * (n % d)) d with
    | lt =>
      have h : (2 * (n % d : Nat) : ℚ) < d := by exact_mod_cast Nat.compare_eq_lt.1 hc
      have hhalf : ((n % d : Nat) : ℚ) / d < 1 / 2 := by
        rw [div_lt_div_iff₀ hd' (by norm_num)]
        linarith
      have := div_pos hpos hd'
      exact ⟨by linarith, by linarith⟩
    | eq =>
      have h : (2 * (n % d : Nat) : ℚ) = d := by exact_mod_cast Nat.compare_eq_eq.1 hc
      have hhalf : ((n % d : Nat) : ℚ) / d = 1 / 2 := by
        rw [div_eq_div_iff hd'.ne' (by norm_num)]
        linarith
      show _ = _
      rw [hhalf]
    | gt =>
      have h : (d : ℚ) < 2 * (n % d : Nat) := by exact_mod_cast Nat.compare_eq_gt.1 hc
      have hhalf : (1 / 2 : ℚ) < ((n % d : Nat) : ℚ) / d := by
        rw [div_lt_div_iff₀ (by norm_num) hd']
        linarith
      have := (div_lt_one hd').2 hlt
      exact ⟨by linarith, by linarith⟩

/-- Of a halved number, the last bit and the place before say where it is. -/
theorem placed_shiftRightOne (h : Placed em.mantissa em.accuracy q) :
    Placed em.shiftRightOne.mantissa em.shiftRightOne.accuracy (q / 2) := by
  obtain ⟨m, round, sticky⟩ := em
  have hdiv : (m : ℚ) = 2 * (m / 2 : Nat) + (m % 2 : Nat) := by
    exact_mod_cast (Nat.div_add_mod m 2).symm
  rcases Nat.mod_two_eq_zero_or_one m with hm | hm
  · have hshift : (ExtendedMantissa.mk m round sticky).shiftRightOne =
        ⟨m / 2, false, round || sticky⟩ := by simp [ExtendedMantissa.shiftRightOne, hm]
    rw [hm, Nat.cast_zero, add_zero] at hdiv
    rw [hshift]
    cases round <;> cases sticky <;> simp only [Placed, ExtendedMantissa.accuracy, Bool.or] at h ⊢
    · linarith
    · constructor <;> linarith
    · constructor <;> linarith
    · constructor <;> linarith
  · have hshift : (ExtendedMantissa.mk m round sticky).shiftRightOne =
        ⟨m / 2, true, round || sticky⟩ := by simp [ExtendedMantissa.shiftRightOne, hm]
    rw [hm, Nat.cast_one] at hdiv
    rw [hshift]
    cases round <;> cases sticky <;> simp only [Placed, ExtendedMantissa.accuracy, Bool.or] at h ⊢
    · linarith
    · constructor <;> linarith
    · constructor <;> linarith
    · constructor <;> linarith

theorem placed_shiftRight (h : Placed em.mantissa em.accuracy q) (k : Nat) :
    Placed (em >>> k).mantissa (em >>> k).accuracy (q / 2 ^ k) := by
  induction k with
  | zero =>
    rw [pow_zero, div_one]
    exact h
  | succ k ih =>
    rw [pow_succ, ← div_div]
    exact placed_shiftRightOne ih

theorem mantissa_ofMantissaAndAccuracy (m : Nat) (a : Accuracy) :
    (ExtendedMantissa.ofMantissaAndAccuracy m a).mantissa = m ∧
      (ExtendedMantissa.ofMantissaAndAccuracy m a).accuracy = a := by
  rcases a with _ | o
  · exact ⟨rfl, rfl⟩
  · cases o <;> exact ⟨rfl, rfl⟩

/-! ### Scales -/

/-- **The scale of a number**: around `q` the doubles are multiples of `2 ^ t`, with 53 bits unless
they are subnormal. -/
structure Scale (q : ℚ) (t : Int) : Prop where
  min : -1074 ≤ t
  lt : q < 2 ^ (t + 53)
  le : t ≠ -1074 → 2 ^ (t + 52) ≤ q

theorem scale_of_placed (h : Placed m a (q / 2 ^ e))
    (ht : Format.binary64.targetExponent (totalExponent m e) = t) (het : e ≤ t) : Scale q t := by
  have htwo : (0 : ℚ) < 2 ^ e := by positivity
  obtain ⟨hle, hlt⟩ := h.bounds
  rw [le_div_iff₀ htwo] at hle
  rw [div_lt_iff₀ htwo] at hlt
  rw [targetExponent_eq, totalExponent] at ht
  have hupper : ((m + 1 : Nat) : ℚ) ≤ 2 ^ ((m.log2 + 1 : Nat) : Int) := by
    rw [zpow_natCast]
    exact_mod_cast Nat.lt_log2_self
  refine ⟨by omega, ?_, fun hne => ?_⟩
  · calc q < (m + 1 : Nat) * 2 ^ e := by exact_mod_cast hlt
      _ ≤ 2 ^ ((m.log2 + 1 : Nat) : Int) * 2 ^ e := by gcongr
      _ = 2 ^ (((m.log2 + 1 : Nat) : Int) + e) := (zpow_add₀ two_ne_zero _ _).symm
      _ ≤ 2 ^ (t + 53) := zpow_le_zpow_right₀ one_le_two (by omega)
  · have hm : m ≠ 0 := by
      rintro rfl
      have : Nat.log2 0 = 0 := by decide
      omega
    have hlower : (2 : ℚ) ^ (m.log2 : Int) ≤ m := by
      rw [zpow_natCast]
      exact_mod_cast Nat.log2_self_le hm
    calc (2 : ℚ) ^ (t + 52) = 2 ^ ((m.log2 : Int) + e) := by congr 1; omega
      _ = 2 ^ (m.log2 : Int) * 2 ^ e := zpow_add₀ two_ne_zero _ _
      _ ≤ m * 2 ^ e := by gcongr
      _ ≤ q := hle

/-! ### Rounding -/

theorem shiftToTargetExponent_eq
    (ht : Format.binary64.targetExponent (totalExponent m e) = t) :
    shiftToTargetExponent .binary64 m e a =
      (ExtendedMantissa.ofMantissaAndAccuracy m a >>> (t - e).toNat, max t e) := by
  unfold shiftToTargetExponent shiftToExponent
  simp only [ht]
  congr 1
  omega

/-- **The double `r · 2 ^ t`**, where a mantissa of 54 bits is carried over. -/
def carried (s : Sign) (r : Nat) (t : Int) : UnpackedFloat :=
  if h : r = 0 then .zero s
  else if r < 2 ^ 53 then .finite s r t (Nat.pos_of_ne_zero h)
  else .finite s (2 ^ 52) (t + 1) (by decide)

/-- A rounded mantissa is shifted once more, which only matters if it has been rounded up to 54
bits. -/
theorem shift_rounded {r : Nat} (hr : r ≤ 2 ^ 53) (ht : -1074 ≤ t) :
    shiftToTargetExponent .binary64 r t .exact =
      if r < 2 ^ 53 then (⟨r, false, false⟩, t) else (⟨2 ^ 52, false, false⟩, t + 1) := by
  rcases Nat.lt_or_ge r (2 ^ 53) with hlt | hge
  · have hlog : r.log2 ≤ 52 := by
      by_cases hzero : r = 0
      · rw [hzero]
        decide
      · have := (Nat.log2_lt hzero).2 hlt
        omega
    have hle : max (r.log2 + 1 + t - 53) (-1074) ≤ t := by omega
    rw [if_pos hlt, shiftToTargetExponent_eq rfl, targetExponent_eq, totalExponent,
      max_eq_right hle, Int.toNat_eq_zero.2 (by omega)]
    rfl
  · obtain rfl : r = 2 ^ 53 := Nat.le_antisymm hr hge
    have htarget : Format.binary64.targetExponent (totalExponent (2 ^ 53) t) = t + 1 := by
      rw [targetExponent_eq, totalExponent, Nat.log2_two_pow]
      omega
    rw [if_neg (Nat.lt_irrefl _), shiftToTargetExponent_eq htarget, max_eq_left (by omega),
      show (t + 1 - t).toNat = 1 by omega]
    rfl

theorem placed_shifted (h : Placed m a (q / 2 ^ e)) (het : e ≤ t)
    (hem : ExtendedMantissa.ofMantissaAndAccuracy m a >>> (t - e).toNat = em) :
    Placed em.mantissa em.accuracy (q / 2 ^ t) := by
  have hstart : Placed (ExtendedMantissa.ofMantissaAndAccuracy m a).mantissa
      (ExtendedMantissa.ofMantissaAndAccuracy m a).accuracy (q / 2 ^ e) := by
    obtain ⟨hmantissa, haccuracy⟩ := mantissa_ofMantissaAndAccuracy m a
    rwa [hmantissa, haccuracy]
  have hshift := placed_shiftRight hstart (t - e).toNat
  have hpow : (2 : ℚ) ^ t = 2 ^ e * 2 ^ (t - e).toNat := by
    rw [← zpow_natCast, ← zpow_add₀ two_ne_zero, Int.toNat_of_nonneg (by omega)]
    congr 1
    omega
  rwa [hem, div_div, ← hpow] at hshift

theorem Scale.rounded_le {r : Nat} (h : Scale q t) (hr : |(r : ℚ) - q / 2 ^ t| ≤ 1 / 2) :
    r ≤ 2 ^ 53 := by
  have hlt : q / 2 ^ t < 2 ^ 53 := by
    rw [div_lt_iff₀ (by positivity), mul_comm, ← zpow_natCast, ← zpow_add₀ two_ne_zero]
    exact h.lt
  have hle : (r : ℚ) < (2 ^ 53 + 1 : Nat) := by
    have := (abs_le.1 hr).2
    push_cast
    linarith
  exact Nat.lt_succ_iff.1 (by exact_mod_cast hle)

theorem roundWithAccuracy_eq_carried (s : Sign)
    (hshift : shiftToTargetExponent .binary64 m e a = (em, t)) (ht : -1074 ≤ t)
    (hr : em.roundedMantissa ≤ 2 ^ 53) :
    roundWithAccuracy .binary64 s m e a = carried s em.roundedMantissa t := by
  unfold roundWithAccuracy
  rw [hshift]
  dsimp only
  rw [shift_rounded hr ht]
  unfold carried
  by_cases hlt : em.roundedMantissa < 2 ^ 53
  · rw [if_pos hlt]
    exact dite_congr rfl (fun _ => rfl) fun _ => (if_pos hlt).symm
  · have hne : em.roundedMantissa ≠ 0 := by omega
    rw [if_neg hlt, dif_neg hne, if_neg hlt]
    rfl

/-- **A mantissa is rounded on the scale of its number**, where the number is placed once more. -/
theorem exists_carried (s : Sign) (h : Placed m a (q / 2 ^ e))
    (het : e ≤ Format.binary64.targetExponent (totalExponent m e)) :
    ∃ (t : Int) (em : ExtendedMantissa), Scale q t ∧
      Placed em.mantissa em.accuracy (q / 2 ^ t) ∧
      roundWithAccuracy .binary64 s m e a = carried s em.roundedMantissa t := by
  obtain ⟨t, ht⟩ : ∃ t, Format.binary64.targetExponent (totalExponent m e) = t := ⟨_, rfl⟩
  obtain ⟨em, hem⟩ : ∃ em, ExtendedMantissa.ofMantissaAndAccuracy m a >>> (t - e).toNat = em :=
    ⟨_, rfl⟩
  rw [ht] at het
  have hscale := scale_of_placed h ht het
  have hplaced := placed_shifted h het hem
  have hshift : shiftToTargetExponent .binary64 m e a = (em, t) := by
    rw [shiftToTargetExponent_eq ht, max_eq_left het, hem]
  exact ⟨t, em, hscale, hplaced,
    roundWithAccuracy_eq_carried s hshift hscale.min (hscale.rounded_le hplaced.abs_sub_le)⟩

/-- **Rounding gives the nearest multiple** of the unit on the scale of a number. -/
theorem exists_roundWithAccuracy (s : Sign) (h : Placed m a (q / 2 ^ e))
    (het : e ≤ Format.binary64.targetExponent (totalExponent m e)) :
    ∃ (t : Int) (r : Nat), Scale q t ∧ |(r : ℚ) - q / 2 ^ t| ≤ 1 / 2 ∧
      roundWithAccuracy .binary64 s m e a = carried s r t := by
  obtain ⟨t, em, hscale, hplaced, hround⟩ := exists_carried s h het
  exact ⟨t, em.roundedMantissa, hscale, hplaced.abs_sub_le, hround⟩

/-! ### Reading decimals -/

variable {c k : Nat}

/-- A product with a power of ten is read from an integer with more bits than a double. -/
theorem placed_ofScientific_nonneg (hc : c ≠ 0) :
    Placed (c <<< 53 * 10 ^ k) .exact (c * 10 ^ k / 2 ^ (-53 : Int)) ∧
      -53 ≤ Format.binary64.targetExponent (totalExponent (c <<< 53 * 10 ^ k) (-53)) := by
  constructor
  · show _ = _
    rw [Nat.shiftLeft_eq, zpow_neg, div_inv_eq_mul]
    push_cast
    ring
  · have hpos : 2 ^ 53 ≤ c <<< 53 * 10 ^ k := by
      have h10 := Nat.one_le_pow k 10 (by decide)
      rw [Nat.shiftLeft_eq]
      nlinarith [Nat.one_le_iff_ne_zero.2 hc]
    have hlog : 53 ≤ (c <<< 53 * 10 ^ k).log2 := (Nat.le_log2 (by omega)).2 hpos
    rw [targetExponent_eq, totalExponent]
    omega

/-- A quotient is taken with more bits than a double has, unless it is subnormal. -/
theorem exists_divCore (hc : c ≠ 0) (hd : 0 < d) (e g : Int) : ∃ m f a,
    divCore .binary64 c e d g = (m, f, a) ∧ Placed m a (c * 2 ^ e / (d * 2 ^ g) / 2 ^ f) ∧
      f ≤ Format.binary64.targetExponent (totalExponent m f) := by
  obtain ⟨f, hf⟩ : ∃ f, min (e - g) (Format.binary64.targetExponent
    (totalExponent c e - totalExponent d g)) = f := ⟨_, rfl⟩
  obtain ⟨j, hj⟩ : ∃ j : Nat, (e - g - f).toNat = j := ⟨_, rfl⟩
  have hshift : e = j + g + f := by omega
  refine ⟨c <<< j / d, f, accuracyOfFraction (c <<< j % d) d, ?_, ?_, ?_⟩
  · unfold divCore
    simp only [hf, hj]
  · have hquotient : (c : ℚ) * 2 ^ e / (d * 2 ^ g) / 2 ^ f = (c <<< j : Nat) / d := by
      rw [hshift, zpow_add₀ two_ne_zero, zpow_add₀ two_ne_zero, zpow_natCast, Nat.shiftLeft_eq]
      push_cast
      field_simp
    rw [hquotient]
    exact placed_fraction hd
  · rw [targetExponent_eq, totalExponent, totalExponent] at hf
    rw [targetExponent_eq, totalExponent]
    by_cases hmin : f ≤ -1074
    · omega
    · -- The numerator has at least 52 bits more than the denominator.
      have hbits : 2 ^ 52 * d ≤ c <<< j := by
        calc 2 ^ 52 * d ≤ 2 ^ 52 * 2 ^ (d.log2 + 1) :=
              Nat.mul_le_mul_left _ (Nat.le_of_lt Nat.lt_log2_self)
          _ = 2 ^ (52 + (d.log2 + 1)) := (Nat.pow_add ..).symm
          _ ≤ 2 ^ (c.log2 + j) := Nat.pow_le_pow_right (by decide) (by omega)
          _ = 2 ^ c.log2 * 2 ^ j := Nat.pow_add ..
          _ ≤ c * 2 ^ j := Nat.mul_le_mul_right _ (Nat.log2_self_le hc)
          _ = c <<< j := (Nat.shiftLeft_eq ..).symm
      have hle : 2 ^ 52 ≤ c <<< j / d := (Nat.le_div_iff_mul_le hd).2 hbits
      have hlog : 52 ≤ (c <<< j / d).log2 := (Nat.le_log2 (by omega)).2 hle
      omega

theorem div_of_divCore {f g : Int} {hc : 0 < c} {hd : 0 < d} {s s' : Sign}
    (h : divCore .binary64 c e d g = (m, f, a)) :
    UnpackedFloat.div .binary64 (.finite s c e hc) (.finite s' d g hd) =
      roundWithAccuracy .binary64 (s / s') m f a := by
  show (match divCore .binary64 c e d g with
    | (m, e, acc) => roundWithAccuracy .binary64 (s / s') m e acc) = _
  rw [h]

theorem le_of_exponent {x : Int} (hc : c ≠ 0) (hx : 2 ^ 11 < x) :
    2 ^ (2000 : Int) ≤ (c : ℚ) * 10 ^ x := by
  obtain ⟨k, rfl⟩ := Int.eq_ofNat_of_zero_le (show 0 ≤ x by omega)
  have hone : (1 : ℚ) ≤ c := by exact_mod_cast Nat.one_le_iff_ne_zero.2 hc
  calc (2 : ℚ) ^ (2000 : Int) ≤ 2 ^ (k : Int) := zpow_le_zpow_right₀ one_le_two (by omega)
    _ = 2 ^ k := zpow_natCast ..
    _ ≤ 10 ^ k := by gcongr; norm_num
    _ = 10 ^ (k : Int) := (zpow_natCast ..).symm
    _ ≤ c * 10 ^ (k : Int) := le_mul_of_one_le_left (by positivity) hone

theorem lt_of_exponent {x : Int} (hx : x < -(2 ^ 11 + (c.log2 : Int))) :
    (c : ℚ) * 10 ^ x < 2 ^ (-2000 : Int) := by
  obtain ⟨k, rfl⟩ : ∃ k : Nat, x = -k := ⟨(-x).toNat, by omega⟩
  have hlog : (c : ℚ) < 2 ^ ((c.log2 + 1 : Nat) : Int) := by
    rw [zpow_natCast]
    exact_mod_cast Nat.lt_log2_self
  have hten : (10 : ℚ) ^ (-k : Int) ≤ 2 ^ (-k : Int) := by
    rw [zpow_neg, zpow_neg, zpow_natCast, zpow_natCast]
    gcongr
    norm_num
  calc (c : ℚ) * 10 ^ (-k : Int)
      < 2 ^ ((c.log2 + 1 : Nat) : Int) * 10 ^ (-k : Int) := by gcongr
    _ ≤ 2 ^ ((c.log2 + 1 : Nat) : Int) * 2 ^ (-k : Int) := by gcongr
    _ = 2 ^ (((c.log2 + 1 : Nat) : Int) + -k) := (zpow_add₀ two_ne_zero _ _).symm
    _ ≤ 2 ^ (-2000 : Int) := zpow_le_zpow_right₀ one_le_two (by omega)

/-- **A decimal is read by rounding a mantissa**, unless its exponent is far out of range. -/
theorem exists_placed_ofScientific {x : Int} (hc : c ≠ 0) (hlarge : x ≤ 2 ^ 11)
    (hsmall : -(2 ^ 11 + (c.log2 : Int)) ≤ x) : ∃ m e a,
      ofScientific .binary64 c x = roundWithAccuracy .binary64 .positive m e a ∧
      Placed m a (c * 10 ^ x / 2 ^ e) ∧
      e ≤ Format.binary64.targetExponent (totalExponent m e) := by
  have hlarge : ¬ x > 2 ^ Format.binary64.exponentBits := Int.not_lt.2 hlarge
  have hsmall : ¬ x < -((2 ^ Format.binary64.exponentBits : Int) + c.log2) := Int.not_lt.2 hsmall
  unfold ofScientific
  rw [dif_neg hc, if_neg hlarge, if_neg hsmall]
  by_cases hx : 0 ≤ x
  · obtain ⟨k, rfl⟩ := Int.eq_ofNat_of_zero_le hx
    obtain ⟨hplaced, hle⟩ := placed_ofScientific_nonneg (k := k) hc
    rw [if_pos hx, zpow_natCast]
    exact ⟨_, _, _, rfl, hplaced, hle⟩
  · obtain ⟨k, rfl⟩ : ∃ k : Nat, x = -k := ⟨(-x).toNat, by omega⟩
    have hten : 0 < 10 ^ k := Nat.pow_pos (by decide)
    obtain ⟨m, f, a, hdiv, hplaced, hle⟩ := exists_divCore hc hten 0 0
    have hvalue : (c : ℚ) * 10 ^ (-k : Int) =
        c * 2 ^ (0 : Int) / ((10 ^ k : Nat) * 2 ^ (0 : Int)) := by
      rw [zpow_neg, zpow_natCast, zpow_zero, mul_one, mul_one, div_eq_mul_inv]
      push_cast
      rfl
    rw [if_neg hx, hvalue]
    have hk : (- -(k : Int)).toNat = k := by omega
    rw [← hk] at hdiv
    rw [div_of_divCore hdiv]
    exact ⟨m, f, a, rfl, hplaced, hle⟩

end Double

end Calculator
