import Calculator.Double.Text
import Calculator.Proofs.Doubles.Nearest

/-!
# The shortest decimal reads back

The numbers that are rounded to a double form an interval, half a unit on each side, but a quarter
below a power of two. Every decimal that is tried for being the shortest one is compared with its
ends, and the one with seventeen digits, which is taken if all the others fail, lies inside.

* `InInterval m e q`: `q` is in the interval of `m · 2 ^ e`;
* `InInterval.carried_eq`, `InInterval.toFloat_eq`: the numbers in the interval are rounded to the
  double, so decimals are read as it;
* `inInterval_of_near`, `hasValue_toFloat`: seventeen digits are enough, and decimals that are doubles
  are read as they stand;
* `inInterval_of_contains`: what the comparison with the ends says;
* `inInterval_shortest`: the shortest decimal is in the interval.
-/

namespace Calculator.Double

open Float.Model (UnpackedFloat)
open Float.Model.UnpackedFloat
open Decimal (RoundsTo)

variable {s : Sign} {m r : Nat} {e t : Int} {q : ℚ}

/-! ### The interval of a double -/

/-- How far the interval reaches below the double, in units. -/
def below (m : Nat) (e : Int) : ℚ := if m = 2 ^ 52 ∧ -1074 < e then 1 / 4 else 1 / 2

/-- **The interval of the numbers that are rounded to `m · 2 ^ e`.** The ends belong to it if the
mantissa is even. -/
structure InInterval (m : Nat) (e : Int) (q : ℚ) : Prop where
  low : (m - below m e) * 2 ^ e ≤ q
  high : q ≤ (m + 1 / 2) * 2 ^ e
  odd : ¬Even m → (m - below m e) * 2 ^ e < q ∧ q < (m + 1 / 2) * 2 ^ e

theorem below_le (m : Nat) (e : Int) : below m e ≤ 1 / 2 := by
  unfold below
  split <;> norm_num

theorem InInterval.roundsTo (h : InInterval m e q) : RoundsTo (q / 2 ^ e) m := by
  have htwo : (0 : ℚ) < 2 ^ e := by positivity
  have hbelow := below_le m e
  have hlow := (le_div_iff₀ htwo).2 h.low
  have hhigh := (div_le_iff₀ htwo).2 h.high
  refine ⟨abs_le.2 ⟨by linarith, by linarith⟩, fun htie => ?_⟩
  by_contra hodd
  obtain ⟨hlow, hhigh⟩ := h.odd hodd
  rw [← lt_div_iff₀ htwo] at hlow
  rw [← div_lt_iff₀ htwo] at hhigh
  exact (abs_lt.2 ⟨by linarith, by linarith⟩).ne htie

/-- Below a power of two, on the scale below. -/
theorem InInterval.roundsTo_double (h : InInterval (2 ^ 52) e q) (he : -1074 < e)
    (hlt : q < 2 ^ (e + 52)) : RoundsTo (q / 2 ^ (e - 1)) (2 ^ 53) := by
  have htwo : (0 : ℚ) < 2 ^ e := by positivity
  have hdouble : q / 2 ^ (e - 1) = 2 * (q / 2 ^ e) := by
    rw [zpow_sub_one₀ two_ne_zero]
    field_simp
  have hbelow : below (2 ^ 52) e = 1 / 4 := if_pos ⟨rfl, he⟩
  have hlow := (le_div_iff₀ htwo).2 h.low
  have hhigh : q / 2 ^ e < 2 ^ 52 := by
    rw [div_lt_iff₀ htwo, ← zpow_natCast, ← zpow_add₀ two_ne_zero, add_comm]
    exact hlt
  rw [hbelow] at hlow
  rw [hdouble]
  push_cast at hlow
  refine ⟨?_, fun _ => by decide⟩
  rw [abs_le]
  push_cast
  constructor <;> linarith

/-- **The numbers in the interval are rounded to the double**, on whichever scale they are. -/
theorem InInterval.carried_eq (hc : Canonical m e) (h : InInterval m e q) (hscale : Scale q t)
    (hr : RoundsTo (q / 2 ^ t) r) : carried s r t = .finite s m e hc.pos := by
  have hself := h.roundsTo
  have hnear := hself.near
  rw [abs_sub_comm] at hnear
  unfold carried
  rcases scale_of_near hc hscale hnear with rfl | ⟨rfl, rfl⟩
  · obtain rfl := hr.unique hself
    rw [dif_neg hc.pos.ne', if_pos hc.lt]
  · have hmin := hscale.min
    have hlt : q < 2 ^ (e + 52) := by
      have hlt := hscale.lt
      rwa [show e - 1 + 53 = e + 52 by omega] at hlt
    obtain rfl := hr.unique (h.roundsTo_double (by omega) hlt)
    rw [dif_neg (by decide), if_neg (by decide)]
    simp only [Int.sub_add_cancel]

/-- **A decimal in the interval is read as the double.** -/
theorem InInterval.toFloat_eq {d : Decimal} (hc : Canonical m e) (h : InInterval m e d.value) :
    d.toFloat = ofParts (.finite .positive m e hc.pos) := by
  obtain ⟨t, r, hscale, hr, hread⟩ := rounds_toFloat d
  rw [hread, h.carried_eq hc hscale hr]

theorem Canonical.div_lt_half (hc : Canonical m e) : (m : ℚ) / (2 * 10 ^ 16) < 1 / 2 := by
  have hm : (m : ℚ) < 2 ^ 53 := by exact_mod_cast hc.lt
  rw [div_lt_div_iff₀ (by positivity) two_pos]
  linarith

/-- **Seventeen digits are enough**: half of the last one is less than a quarter of a unit below a
power of two, and less than half a unit elsewhere. -/
theorem inInterval_of_near (hc : Canonical m e) (hq : |q - m * 2 ^ e| ≤ m * 2 ^ e / (2 * 10 ^ 16)) :
    InInterval m e q := by
  have htwo : (0 : ℚ) < 2 ^ e := by positivity
  have hhalf := hc.div_lt_half
  have hbelow : (m : ℚ) / (2 * 10 ^ 16) < below m e := by
    unfold below
    split
    · next h =>
      rw [h.1]
      norm_num
    · exact hhalf
  rw [mul_div_right_comm] at hq
  obtain ⟨hlower, hupper⟩ := abs_le.1 hq
  have hlow : (m - below m e) * 2 ^ e < q := by
    have := mul_lt_mul_of_pos_right hbelow htwo
    linarith
  have hhigh : q < (m + 1 / 2) * 2 ^ e := by
    have := mul_lt_mul_of_pos_right hhalf htwo
    linarith
  exact ⟨hlow.le, hhigh.le, fun _ => ⟨hlow, hhigh⟩⟩

theorem hasValue_toFloat {d : Decimal} (h : Representable d.value) :
    HasValue d.toFloat d.value := by
  have hread : d.toFloat = ofParts (ofScientific .binary64 d.coefficient d.exponent) := rfl
  rcases h with hzero | ⟨m, e, hc, hvalue⟩
  · have hcoefficient : d.coefficient = 0 := by
      have hpow : (10 : ℚ) ^ d.exponent ≠ 0 := by positivity
      exact_mod_cast (mul_eq_zero.1 hzero).resolve_right hpow
    rw [hread, hzero]
    unfold ofScientific
    rw [dif_pos hcoefficient]
    exact hasValue_zero (parts_ofParts_zero .positive)
  · have hnonneg : 0 ≤ d.value := by
      unfold Decimal.value
      positivity
    rw [abs_of_nonneg hnonneg] at hvalue
    have hnear : |d.value - m * 2 ^ e| ≤ m * 2 ^ e / (2 * 10 ^ 16) := by
      rw [hvalue, sub_self, abs_zero]
      positivity
    rw [(inInterval_of_near hc hnear).toFloat_eq hc, hvalue]
    exact hasValue_positive (parts_ofParts_finite hc .positive)

end Calculator.Double

namespace Calculator.Decimal

open Double (below InInterval Canonical)

variable {s : Neighbourhood} {d : Decimal} {m n : Nat} {e unit : Int}

/-! ### The decimals that are tried -/

theorem div_le_value_iff (hden : 0 < s.den) (n : Nat) (d : Decimal) : (n : ℚ) / s.den ≤ d.value ↔
    n * tenTo (-d.exponent) ≤ d.coefficient * tenTo d.exponent * s.den := by
  have hden' : (0 : ℚ) < s.den := by exact_mod_cast hden
  have hten : (0 : ℚ) < tenTo (-d.exponent) := by exact_mod_cast tenTo_pos (-d.exponent)
  unfold value
  rw [← tenTo_div, ← mul_div_assoc, div_le_div_iff₀ hden' hten]
  exact_mod_cast Iff.rfl

theorem value_le_div_iff (hden : 0 < s.den) (n : Nat) (d : Decimal) : d.value ≤ (n : ℚ) / s.den ↔
    d.coefficient * tenTo d.exponent * s.den ≤ n * tenTo (-d.exponent) := by
  have hden' : (0 : ℚ) < s.den := by exact_mod_cast hden
  have hten : (0 : ℚ) < tenTo (-d.exponent) := by exact_mod_cast tenTo_pos (-d.exponent)
  unfold value
  rw [← tenTo_div, ← mul_div_assoc, div_le_div_iff₀ hten hden']
  exact_mod_cast Iff.rfl

/-- **What is compared are the ends of the interval.** -/
theorem contains_iff (hden : 0 < s.den) (d : Decimal) : s.contains d = true ↔
    ((s.low : ℚ) / s.den ≤ d.value ∧ d.value ≤ s.high / s.den) ∧
      (s.closed = false → (s.low : ℚ) / s.den < d.value ∧ d.value < s.high / s.den) := by
  rw [div_le_value_iff hden, value_le_div_iff hden, ← not_le, value_le_div_iff hden, ← not_le,
    div_le_value_iff hden, not_le, not_le]
  unfold Neighbourhood.contains
  cases s.closed
  · simp
    omega
  · simp

theorem den_ofParts_pos (m : Nat) (e : Int) : 0 < (Neighbourhood.ofParts m e).den :=
  Nat.mul_pos (by decide) (twoTo_pos (-e))

theorem quarters (n m : Nat) (e : Int) :
    ((n * twoTo e : Nat) : ℚ) / (Neighbourhood.ofParts m e).den = n / 4 * 2 ^ e := by
  have hden : ((Neighbourhood.ofParts m e).den : ℚ) = 4 * twoTo (-e) := by
    exact_mod_cast rfl
  rw [hden, Nat.cast_mul, mul_div_mul_comm, twoTo_div]

theorem low_ofParts (hm : 0 < m) (e : Int) :
    ((Neighbourhood.ofParts m e).low : ℚ) / (Neighbourhood.ofParts m e).den =
      (m - below m e) * 2 ^ e := by
  have hpow : twoTo 52 = 2 ^ 52 := rfl
  refine (quarters _ m e).trans ?_
  unfold below
  rw [hpow]
  split
  · rw [Nat.cast_sub (by omega)]
    push_cast
    ring
  · rw [Nat.cast_sub (by omega)]
    push_cast
    ring

theorem high_ofParts (m : Nat) (e : Int) :
    ((Neighbourhood.ofParts m e).high : ℚ) / (Neighbourhood.ofParts m e).den =
      (m + 1 / 2) * 2 ^ e := by
  refine (quarters _ m e).trans ?_
  push_cast
  ring

theorem value_ofParts (m : Nat) (e : Int) :
    ((Neighbourhood.ofParts m e).value : ℚ) / (Neighbourhood.ofParts m e).den = m * 2 ^ e := by
  refine (quarters _ m e).trans ?_
  push_cast
  ring

theorem inInterval_of_contains (hm : 0 < m)
    (h : (Neighbourhood.ofParts m e).contains d = true) : InInterval m e d.value := by
  rw [contains_iff (den_ofParts_pos m e), low_ofParts hm, high_ofParts] at h
  obtain ⟨⟨hlow, hhigh⟩, hopen⟩ := h
  refine ⟨hlow, hhigh, fun hodd => hopen ?_⟩
  show (m % 2 == 0) = false
  rwa [beq_eq_false_iff_ne, Ne, ← Nat.even_iff]

theorem contains_of_onGrid? (h : s.onGrid? unit = some d) : s.contains d = true := by
  unfold Neighbourhood.onGrid? at h
  dsimp only at h
  split at h
  · next hlow hhigh =>
    obtain rfl := Option.some.inj h
    split
    · exact hlow
    · exact hhigh
  · next hlow _ =>
    obtain rfl := Option.some.inj h
    exact hlow
  · next _ hhigh =>
    obtain rfl := Option.some.inj h
    exact hhigh
  · cases h

/-- **The shortest decimal is in the interval**, also if none of the grids has a point in it. -/
theorem inInterval_shortest (hc : Canonical m e) : InInterval m e (shortest m e).value := by
  unfold shortest
  dsimp only
  cases hfind : (List.range maxDigits).findSome? fun (i : Nat) =>
      (Neighbourhood.ofParts m e).onGrid? (leadingExponent (Neighbourhood.ofParts m e).value
        (Neighbourhood.ofParts m e).den - i) with
  | some d =>
    obtain ⟨i, -, hgrid⟩ := List.exists_of_findSome?_eq_some hfind
    exact inInterval_of_contains hc.pos (contains_of_onGrid? hgrid)
  | none =>
    have hvalue : 0 < (Neighbourhood.ofParts m e).value :=
      Nat.mul_pos (Nat.mul_pos (by decide) hc.pos) (twoTo_pos e)
    have hnear := abs_value_ofRatio_sub_le hvalue (den_ofParts_pos m e) (maxDigits - 1)
    rw [value_ofParts] at hnear
    exact Double.inInterval_of_near hc hnear

end Calculator.Decimal
