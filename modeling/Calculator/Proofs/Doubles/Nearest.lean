import Calculator.Proofs.Decimals.Nearest
import Calculator.Proofs.Doubles.Exactness

/-!
# The nearest double

What it means that a number is rounded correctly, said without mantissas and scales: no double is
nearer, a tie goes to the even one, and from half a unit above the largest double on the result is
infinite.

* `CorrectlyRounded x q`: `x` is the double that the number `q ≥ 0` is rounded to;
* `Rounds x q`: the same by computation, the nearest multiple of the unit on the scale of `q`;
* `Rounds.correctlyRounded`: computed rounding is correct;
* `RoundedFrom.rounds`, `rounds_toFloat`: mantissas and decimals are rounded so, a decimal whatever
  its exponent is.
-/

namespace Calculator.Double

open Float.Model (UnpackedFloat Format totalExponent)
open Float.Model.UnpackedFloat
open Decimal (RoundsTo)

variable {x y : Float} {s : Sign} {m n r c : Nat} {e t : Int} {p q : ℚ} {a : Accuracy}

/-! ### Correct rounding -/

/-- **The end of the range**, half a unit above the largest double. -/
def rangeEnd : ℚ := (2 ^ 53 - 1 / 2) * 2 ^ (971 : Int)

/-- The last bit of the mantissa is zero. -/
def EvenMantissa (x : Float) : Prop :=
  ∀ s m e hm, parts x = .finite s m e hm → Even m

/-- **No double is nearer to `q`**, and if another one is as near, this one is even. -/
structure Nearest (x : Float) (q : ℚ) : Prop where
  finite : x.isFinite = true
  le : ∀ y p, HasValue y p → |exact x - q| ≤ |p - q|
  even : ∀ y p, HasValue y p → p ≠ exact x → |p - q| = |exact x - q| → EvenMantissa x

/-- **The double that a number `q ≥ 0` is rounded to**: the nearest one, an infinity from the end of
the range on, and never one with a minus sign. -/
structure CorrectlyRounded (x : Float) (q : ℚ) : Prop where
  unsigned : x.abs = x
  nearest : q < rangeEnd → Nearest x q
  overflow : rangeEnd ≤ q → x = infinity

/-! ### Rounding on a scale -/

/-- **`q` is rounded to `x` on its scale.** -/
def Rounds (x : Float) (q : ℚ) : Prop :=
  ∃ (t : Int) (r : Nat), Scale q t ∧ RoundsTo (q / 2 ^ t) r ∧ x = ofParts (carried .positive r t)

theorem roundsTo_of_placed (h : Placed m a q) : RoundsTo q (a.roundToNearestEven m) := by
  refine ⟨h.abs_sub_le, fun hhalf => ?_⟩
  unfold Placed at h
  unfold Accuracy.roundToNearestEven at hhalf ⊢
  split at h
  · simp [h] at hhalf
  · obtain ⟨hlow, hhigh⟩ := h
    dsimp only at hhalf
    rw [abs_of_neg (by linarith)] at hhalf
    linarith
  · -- The only tie.
    rcases Nat.mod_two_eq_zero_or_one m with hm | hm
    · simp [hm, Nat.even_iff]
    · simp [hm, Nat.even_iff]
      omega
  · obtain ⟨hlow, hhigh⟩ := h
    dsimp only at hhalf
    push_cast at hhalf
    rw [abs_of_pos (by linarith)] at hhalf
    linarith

theorem RoundedFrom.rounds (h : RoundedFrom x .positive q) : Rounds x q := by
  obtain ⟨m, e, a, rfl, hplaced, he⟩ := h
  obtain ⟨t, em, hscale, hshifted, hround⟩ := exists_carried .positive hplaced he
  exact ⟨t, em.roundedMantissa, hscale, roundsTo_of_placed hshifted, by rw [hround]⟩

theorem Scale.unique {u : Int} (h : Scale q t) (h' : Scale q u) : t = u := by
  have hle {t u : Int} (h : Scale q t) (h' : Scale q u) : u ≤ t := by
    by_contra hlt
    have hpow : (2 : ℚ) ^ (u + 52) < 2 ^ (t + 53) :=
      (h'.le (by have := h.min; omega)).trans_lt h.lt
    have := (zpow_lt_zpow_iff_right₀ one_lt_two).1 hpow
    omega
  exact le_antisymm (hle h' h) (hle h h')

theorem RoundedFrom.unique (h : RoundedFrom x s q) (h' : RoundedFrom y s q) : x = y := by
  obtain ⟨m, e, a, rfl, hplaced, he⟩ := h
  obtain ⟨n, f, b, rfl, hplaced', hf⟩ := h'
  obtain ⟨t, em, hscale, hshifted, hround⟩ := exists_carried s hplaced he
  obtain ⟨u, en, hscale', hshifted', hround'⟩ := exists_carried s hplaced' hf
  obtain rfl := hscale.unique hscale'
  have hmantissa : em.roundedMantissa = en.roundedMantissa :=
    (roundsTo_of_placed hshifted).unique (roundsTo_of_placed hshifted')
  rw [hround, hround', hmantissa]

theorem Scale.le_rounded (h : Scale q t) (hr : RoundsTo (q / 2 ^ t) r) (ht : t ≠ -1074) :
    2 ^ 52 ≤ r := by
  refine hr.le_of_le ?_
  rw [le_div_iff₀ (by positivity)]
  calc ((2 ^ 52 : Nat) : ℚ) * 2 ^ t = 2 ^ (t + 52) := by
        rw [zpow_add₀ two_ne_zero, mul_comm]
        norm_num
    _ ≤ q := h.le ht

theorem Scale.canonical (h : Scale q t) (hr : RoundsTo (q / 2 ^ t) r) (hpos : 0 < r)
    (hlt : r < 2 ^ 53) (ht : t ≤ 971) : Canonical r t :=
  ⟨hpos, hlt, h.min, ht, h.le_rounded hr⟩

/-! ### The end of the range -/

theorem lt_rangeEnd_iff : q < rangeEnd ↔ q / 2 ^ (971 : Int) < 2 ^ 53 - 1 / 2 := by
  rw [rangeEnd, div_lt_iff₀ (by positivity)]

theorem Scale.lt_rangeEnd (h : Scale q t) (ht : t < 971) : q < rangeEnd := by
  calc q < 2 ^ (t + 53) := h.lt
    _ ≤ 2 ^ ((52 : Int) + 971) := zpow_le_zpow_right₀ one_le_two (by omega)
    _ = 2 ^ 52 * 2 ^ (971 : Int) := by rw [zpow_add₀ two_ne_zero]; norm_num
    _ ≤ rangeEnd := by
      unfold rangeEnd
      gcongr
      norm_num

theorem Scale.rangeEnd_le (h : Scale q t) (ht : 971 < t) : rangeEnd ≤ q := by
  calc rangeEnd ≤ 2 ^ 53 * 2 ^ (971 : Int) := by
        unfold rangeEnd
        gcongr
        norm_num
    _ = 2 ^ ((53 : Int) + 971) := by rw [zpow_add₀ two_ne_zero]; norm_num
    _ ≤ 2 ^ (t + 52) := zpow_le_zpow_right₀ one_le_two (by omega)
    _ ≤ q := h.le (by omega)

/-- On the last scale the numbers below the end of the range are those that are not rounded up to a
mantissa of 54 bits: the largest mantissa is odd, so the tie is. -/
theorem lt_iff_of_roundsTo (hr : RoundsTo q r) : q < 2 ^ 53 - 1 / 2 ↔ r < 2 ^ 53 := by
  obtain ⟨hlow, hhigh⟩ := abs_le.1 hr.near
  constructor
  · intro hq
    have hlt : (r : ℚ) < (2 ^ 53 : Nat) := by
      push_cast
      linarith
    exact_mod_cast hlt
  · intro hlt
    have hle : (r : ℚ) ≤ 2 ^ 53 - 1 := by
      have : (r : ℚ) + 1 ≤ 2 ^ 53 := by exact_mod_cast hlt
      linarith
    by_contra hq
    have hhalf : |(r : ℚ) - q| = 1 / 2 := by
      rw [abs_of_neg (by linarith)]
      linarith
    have hr' : (r : ℚ) = (2 ^ 53 - 1 : Nat) := by
      push_cast
      linarith
    have heven := hr.even hhalf
    rw [Nat.cast_injective hr'] at heven
    revert heven
    decide

theorem eq_infinity (h : parts x = .infinity .positive) : x = infinity := by
  rw [← ofParts_parts x, h]
  rfl

theorem abs_of_parts (h : parts x = .finite .positive m e hm) : x.abs = x := by
  have habs := parts_abs h
  rw [← ofParts_parts x.abs, habs, ← h, ofParts_parts]

/-- **A number below the end of the range** that is rounded to `r` units. -/
structure InRange (x : Float) (q : ℚ) (r : Nat) (t : Int) : Prop where
  lt : q < rangeEnd
  unsigned : x.abs = x
  value : HasValue x (r * 2 ^ t)
  even : Even r → EvenMantissa x

theorem inRange_of_parts (h : parts x = .finite .positive m e hm) (hlt : q < rangeEnd)
    (hvalue : (m : ℚ) * 2 ^ e = r * 2 ^ t) (heven : Even r → Even m) : InRange x q r t := by
  refine ⟨hlt, abs_of_parts h, ?_, fun hr => ?_⟩
  · rw [← hvalue]
    exact hasValue_positive h
  · intro s n f hn h'
    obtain ⟨-, rfl, -⟩ := UnpackedFloat.finite.inj (h.symm.trans h')
    exact heven hr

theorem inRange_zero (hlt : q < rangeEnd) : InRange (ofParts (.zero .positive)) q 0 t := by
  refine ⟨hlt, rfl, ?_, fun _ => ?_⟩
  · rw [Nat.cast_zero, zero_mul]
    exact hasValue_zero (parts_ofParts_zero .positive)
  · intro s m e hm h
    rw [parts_ofParts_zero] at h
    cases h

/-- A mantissa of 54 bits is carried over, which is an infinity on the last scale. -/
theorem Scale.carry (h : Scale q t) (hr : RoundsTo (q / 2 ^ t) (2 ^ 53)) :
    (rangeEnd ≤ q ∧ ofParts (.finite .positive (2 ^ 52) (t + 1) (by decide)) = infinity) ∨
      InRange (ofParts (.finite .positive (2 ^ 52) (t + 1) (by decide))) q (2 ^ 53) t := by
  by_cases ht : t + 1 ≤ 971
  · have hc : Canonical (2 ^ 52) (t + 1) :=
      ⟨by decide, by decide, by have := h.min; omega, ht, fun _ => le_rfl⟩
    refine .inr (inRange_of_parts (parts_ofParts_finite hc .positive) (h.lt_rangeEnd (by omega)) ?_
      fun _ => by decide)
    rw [zpow_add_one₀ two_ne_zero]
    push_cast
    ring
  · refine .inl ⟨?_, eq_infinity (parts_ofParts_of_lt (by omega))⟩
    rcases (show 971 ≤ t by omega).eq_or_lt with rfl | ht
    · refine not_lt.1 fun hlt => ?_
      have := (lt_iff_of_roundsTo hr).1 (lt_rangeEnd_iff.1 hlt)
      omega
    · exact h.rangeEnd_le ht

/-- **What rounding gives**: an infinity from the end of the range on, else a multiple of the
unit. -/
theorem Rounds.cases (h : Rounds x q) : (rangeEnd ≤ q ∧ x = infinity) ∨
    ∃ (t : Int) (r : Nat), Scale q t ∧ RoundsTo (q / 2 ^ t) r ∧ InRange x q r t := by
  obtain ⟨t, r, hscale, hr, rfl⟩ := h
  have hle : r ≤ 2 ^ 53 := hscale.rounded_le hr.near
  unfold carried
  by_cases hzero : r = 0
  · have ht : t = -1074 := by
      by_contra hne
      have := hscale.le_rounded hr hne
      omega
    subst hzero
    exact .inr ⟨t, 0, hscale, hr, inRange_zero (hscale.lt_rangeEnd (by omega))⟩
  · rw [dif_neg hzero]
    by_cases hlt : r < 2 ^ 53
    · rw [if_pos hlt]
      rcases lt_trichotomy t 971 with ht | rfl | ht
      · have hc := hscale.canonical hr (Nat.pos_of_ne_zero hzero) hlt ht.le
        exact .inr ⟨t, r, hscale, hr, inRange_of_parts (parts_ofParts_finite hc .positive)
          (hscale.lt_rangeEnd ht) rfl id⟩
      · have hc := hscale.canonical hr (Nat.pos_of_ne_zero hzero) hlt le_rfl
        exact .inr ⟨971, r, hscale, hr, inRange_of_parts (parts_ofParts_finite hc .positive)
          (lt_rangeEnd_iff.2 ((lt_iff_of_roundsTo hr).2 hlt)) rfl id⟩
      · exact .inl ⟨hscale.rangeEnd_le ht, eq_infinity (parts_ofParts_of_lt ht)⟩
    · obtain rfl : r = 2 ^ 53 := by omega
      rw [if_neg hlt]
      exact (hscale.carry hr).imp_right fun hrange => ⟨t, _, hscale, hr, hrange⟩

/-! ### No double is nearer -/

/-- A positive double is a multiple of the unit, or lies below all numbers of the scale. -/
theorem multiple_or_lt (hc : Canonical m e) (t : Int) :
    (∃ k : Nat, (m : ℚ) * 2 ^ e = k * 2 ^ t) ∨ t ≠ -1074 ∧ (m : ℚ) * 2 ^ e < 2 ^ (t + 52) := by
  rcases le_or_gt t e with hte | het
  · exact .inl ⟨_, (mul_twoTo_sub m hte).symm⟩
  · refine .inr ⟨by have := hc.min; omega, ?_⟩
    have hm : (m : ℚ) < 2 ^ (53 : Int) := by exact_mod_cast hc.lt
    calc (m : ℚ) * 2 ^ e < 2 ^ (53 : Int) * 2 ^ e := by gcongr
      _ = 2 ^ (53 + e) := (zpow_add₀ two_ne_zero _ _).symm
      _ ≤ 2 ^ (t + 52) := zpow_le_zpow_right₀ one_le_two (by omega)

theorem abs_mul_sub (k : Nat) (q : ℚ) (t : Int) :
    |(k : ℚ) * 2 ^ t - q| = |(k : ℚ) - q / 2 ^ t| * 2 ^ t := by
  have htwo : (0 : ℚ) < 2 ^ t := by positivity
  rw [← abs_of_pos htwo, ← abs_mul, abs_of_pos htwo, sub_mul, div_mul_cancel₀ _ htwo.ne']

theorem abs_sub_le_of_roundsTo (hr : RoundsTo (q / 2 ^ t) r) (k : Nat) :
    |(r : ℚ) * 2 ^ t - q| ≤ |(k : ℚ) * 2 ^ t - q| := by
  rw [abs_mul_sub, abs_mul_sub]
  have := hr.le k
  gcongr

/-- **A double that is no multiple of the unit is farther away**: it is negative, or below the
scale. -/
theorem Scale.multiple_or_farther (h : Scale q t) (hr : RoundsTo (q / 2 ^ t) r) (hq : 0 ≤ q)
    (hy : HasValue y p) : (∃ k : Nat, p = k * 2 ^ t) ∨ |(r : ℚ) * 2 ^ t - q| < |p - q| := by
  rcases hy.cases with ⟨s, -, rfl⟩ | ⟨s, m, e, hm, hparts, rfl⟩
  · exact .inl ⟨0, by rw [Nat.cast_zero, zero_mul]⟩
  · have hc := canonical_of_parts hparts
    have hpos : (0 : ℚ) < m * 2 ^ e := by positivity
    cases s with
    | positive =>
      rw [apply_positive_mul]
      refine (multiple_or_lt hc t).imp_right fun ⟨ht, hlt⟩ => ?_
      have hlow := h.le ht
      have hnear := abs_sub_le_of_roundsTo hr (2 ^ 52)
      have hunit : ((2 ^ 52 : Nat) : ℚ) * 2 ^ t = 2 ^ (t + 52) := by
        rw [zpow_add₀ two_ne_zero, mul_comm]
        norm_num
      rw [hunit, abs_of_nonpos (by linarith : (2 : ℚ) ^ (t + 52) - q ≤ 0)] at hnear
      rw [abs_of_neg (by linarith : (m : ℚ) * 2 ^ e - q < 0)]
      linarith
    | negative =>
      right
      have hnear := abs_sub_le_of_roundsTo hr 0
      rw [Nat.cast_zero, zero_mul, zero_sub, abs_neg, abs_of_nonneg hq] at hnear
      rw [apply_negative_mul, abs_of_neg (by linarith : -((m : ℚ) * 2 ^ e) - q < 0)]
      linarith

/-- **Rounding on a scale is correct.** -/
theorem Rounds.correctlyRounded (h : Rounds x q) (hq : 0 ≤ q) : CorrectlyRounded x q := by
  rcases h.cases with ⟨hend, rfl⟩ | ⟨t, r, hscale, hr, hlt, habs, hx, heven⟩
  · exact ⟨rfl, fun hlt => absurd hlt hend.not_gt, fun _ => rfl⟩
  · refine ⟨habs, fun _ => ⟨hx.finite, fun y p hy => ?_, fun y p hy hne heq => heven ?_⟩,
      fun hend => absurd hlt hend.not_gt⟩
    · rw [hx.value]
      rcases hscale.multiple_or_farther hr hq hy with ⟨k, rfl⟩ | hfar
      · exact abs_sub_le_of_roundsTo hr k
      · exact hfar.le
    · rw [hx.value] at hne heq
      rcases hscale.multiple_or_farther hr hq hy with ⟨k, rfl⟩ | hfar
      · have hunit : (2 : ℚ) ^ t ≠ 0 := by positivity
        rw [abs_mul_sub, abs_mul_sub] at heq
        exact hr.even_of_eq (fun hk => hne (by rw [hk])) (mul_right_cancel₀ hunit heq)
      · exact absurd heq hfar.ne'

/-! ### Decimals -/

theorem rounds_zero (hq : 0 ≤ q) (hlt : q < 2 ^ (-2000 : Int)) :
    Rounds (ofParts (.zero .positive)) q := by
  have hhalf : q / 2 ^ (-1074 : Int) < 1 / 2 := by
    rw [div_lt_iff₀ (by positivity)]
    calc q < 2 ^ (-2000 : Int) := hlt
      _ ≤ 2 ^ ((-1 : Int) + -1074) := zpow_le_zpow_right₀ one_le_two (by norm_num)
      _ = 1 / 2 * 2 ^ (-1074 : Int) := by rw [zpow_add₀ two_ne_zero]; norm_num
  have hnonneg : 0 ≤ q / 2 ^ (-1074 : Int) := by positivity
  refine ⟨-1074, 0, ⟨le_rfl, ?_, fun hne => absurd rfl hne⟩, ⟨?_, fun _ => ⟨0, rfl⟩⟩, rfl⟩
  · exact hlt.trans_le (zpow_le_zpow_right₀ one_le_two (by norm_num))
  · rw [Nat.cast_zero, zero_sub, abs_neg, abs_of_nonneg hnonneg]
    exact hhalf.le

theorem rangeEnd_le_of_le (h : 2 ^ (2000 : Int) ≤ q) : rangeEnd ≤ q := by
  refine le_trans ?_ h
  calc rangeEnd ≤ 2 ^ 53 * 2 ^ (971 : Int) := by
        unfold rangeEnd
        gcongr
        norm_num
    _ = 2 ^ ((53 : Int) + 971) := by rw [zpow_add₀ two_ne_zero]; norm_num
    _ ≤ 2 ^ (2000 : Int) := zpow_le_zpow_right₀ one_le_two (by omega)

theorem rounds_infinity {k : Nat} (hc : c ≠ 0) (hk : 2 ^ 11 < (k : Int)) :
    Rounds infinity ((c : ℚ) * 10 ^ k) := by
  obtain ⟨hplaced, hle⟩ := placed_ofScientific_nonneg (k := k) hc
  have hrounds := RoundedFrom.rounds ⟨_, _, _, rfl, hplaced, hle⟩
  rcases hrounds.cases with ⟨-, hinfinity⟩ | ⟨_, _, -, -, hrange⟩
  · rwa [hinfinity] at hrounds
  · have hlarge := le_of_exponent hc hk
    rw [zpow_natCast] at hlarge
    exact absurd hrange.lt (rangeEnd_le_of_le hlarge).not_gt

/-- **Every decimal is rounded on its scale**, whatever its exponent is. -/
theorem rounds_toFloat (d : Decimal) : Rounds d.toFloat d.value := by
  obtain ⟨c, x⟩ := d
  show Rounds (ofParts (ofScientific .binary64 c x)) (c * 10 ^ x)
  by_cases hc : c = 0
  · subst hc
    unfold ofScientific
    rw [dif_pos rfl, Nat.cast_zero, zero_mul]
    exact rounds_zero le_rfl (by positivity)
  · by_cases hlarge : x ≤ 2 ^ 11
    · by_cases hsmall : -(2 ^ 11 + (c.log2 : Int)) ≤ x
      · obtain ⟨m, e, a, hread, hplaced, hle⟩ := exists_placed_ofScientific hc hlarge hsmall
        rw [hread]
        exact RoundedFrom.rounds ⟨m, e, a, rfl, hplaced, hle⟩
      · have hzero : ofScientific .binary64 c x = .zero .positive := by
          unfold ofScientific
          rw [dif_neg hc, if_neg (show ¬ x > 2 ^ Format.binary64.exponentBits by
            exact not_lt.2 hlarge), if_pos (show x < -((2 ^ Format.binary64.exponentBits : Int) +
            c.log2) by exact not_le.1 hsmall)]
        rw [hzero]
        exact rounds_zero (by positivity) (lt_of_exponent (not_le.1 hsmall))
    · have hinfinity : ofScientific .binary64 c x = .infinity .positive := by
        unfold ofScientific
        rw [dif_neg hc, if_pos (show x > 2 ^ Format.binary64.exponentBits by
          exact not_le.1 hlarge)]
      obtain ⟨k, rfl⟩ := Int.eq_ofNat_of_zero_le (show 0 ≤ x by omega)
      rw [hinfinity, zpow_natCast]
      exact rounds_infinity hc (by omega)

end Calculator.Double
