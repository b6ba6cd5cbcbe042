import Calculator.Proofs.Decimals.Styles
import Calculator.Proofs.Display.Layouts

/-!
# Results without a text

The number of places after a point is limited, so that a result with many of them may have no text.
If it has one, it is the text with any number of places: the program rounds between the limits twice,
but the second time to the last digit that the first one has left.

* `nearest_toDecimal`, `toDecimal_spec`: the digits that are displayed;
* `neg_four_le_log`: from `10 ^ -4` on, no number is displayed with a smaller exponent;
* `toFixed_eq`: rounding once more changes nothing;
* `displayGeneral?_cases`: between the limits a result has its text or none;
* `display?_cases`: so has every double, and none only with a precision of more than `65532`;
* `display?_neg`: a negative double has a text exactly if the positive one has.
-/

namespace Calculator

open Float.Model.UnpackedFloat (Sign)
open Double (parts signText display display? displayGeneral displayGeneral? toDecimal toDecimal?
  toFixed toFixed? maxPlaces exact)
open Decimal (Nearest HasDigits RoundsTo)

variable {v : Float} {s : Sign} {m n p places : Nat} {e k : Int} {hm : 0 < m} {q r : ℚ}
  {text : String}

/-! ### The digits -/

theorem nearest_toDecimal (hm : 0 < m) (e : Int) (places : Nat) :
    Nearest (m * 2 ^ e) (places + 1) (toDecimal m e places).value := by
  rw [← mul_twoTo_div m e]
  exact Decimal.nearest_ofRatio (Nat.mul_pos hm (twoTo_pos e)) (twoTo_pos (-e)) places

theorem toDecimal_spec (hm : 0 < m) (e : Int) (places : Nat) :
    (10 ^ places ≤ (toDecimal m e places).coefficient ∧
      (toDecimal m e places).coefficient < 10 ^ (places + 1)) ∧
    RoundsTo (m * 2 ^ e / 10 ^ (toDecimal m e places).exponent)
      (toDecimal m e places).coefficient := by
  rw [← mul_twoTo_div m e]
  exact Decimal.ofRatio_spec (Nat.mul_pos hm (twoTo_pos e)) (twoTo_pos (-e)) places

theorem Decimal.Nearest.le_of_le {r' : ℚ} (h : Nearest q n r) (hr' : HasDigits n r')
    (hle : r' ≤ q) : r' ≤ r := by
  by_contra hlt
  have hnear := h.le r' hr'
  rw [abs_of_neg (by linarith), abs_of_nonpos (by linarith)] at hnear
  linarith

theorem hasDigits_zpow (hn : 0 < n) (x : Int) : HasDigits n (10 ^ x) := by
  refine ⟨10 ^ (n - 1), x - (n - 1 : Nat), Nat.le_refl _,
    Nat.pow_lt_pow_right (by decide) (by omega), ?_⟩
  push_cast
  rw [← zpow_natCast, ← zpow_add₀ (by norm_num)]
  congr 1
  omega

theorem log_toDecimal (hm : 0 < m) (e : Int) (places : Nat) :
    Int.log 10 (toDecimal m e places).value = (toDecimal m e places).exponent + places := by
  obtain ⟨⟨hfirst, hlast⟩, -⟩ := toDecimal_spec hm e places
  exact Decimal.log_value hfirst hlast

/-- `10 ^ -4` has every number of digits, so that nothing is rounded from above to below it. -/
theorem neg_four_le_log (hm : 0 < m) (hlow : (10 : ℚ) ^ (-4 : Int) ≤ m * 2 ^ e) (places : Nat) :
    -4 ≤ Int.log 10 (toDecimal m e places).value := by
  have hle := (nearest_toDecimal hm e places).le_of_le (hasDigits_zpow (Nat.succ_pos places) (-4))
    hlow
  have hpos : 0 < (toDecimal m e places).value := lt_of_lt_of_le (by positivity) hle
  exact (Int.zpow_le_iff_le_log (by norm_num) hpos).1 (by exact_mod_cast hle)

/-! ### The second rounding -/

theorem roundsTo_toFixed (m : Nat) (e : Int) (places : Nat) :
    RoundsTo (m * 2 ^ e / 10 ^ (-places : Int)) (toFixed m e places).coefficient := by
  rw [← mul_twoTo_div m e]
  exact Decimal.roundsTo_scaled (twoTo_pos (-e)) (m * twoTo e) (-places)

/-- **Rounding once more changes nothing**, because there is one nearest integer: that of the first
rounding is one on the scale of the second. -/
theorem toFixed_eq (hm : 0 < m) (hexponent : (toDecimal m e places).exponent ≤ 0) :
    toFixed m e (-(toDecimal m e places).exponent).toNat = toDecimal m e places := by
  obtain ⟨-, hround⟩ := toDecimal_spec hm e places
  generalize toDecimal m e places = d at hexponent hround ⊢
  have hscale : -((-d.exponent).toNat : Int) = d.exponent := by omega
  have hfixed := roundsTo_toFixed m e (-d.exponent).toNat
  rw [hscale] at hfixed
  have hcoefficient : (toFixed m e (-d.exponent).toNat).coefficient = d.coefficient :=
    hfixed.unique hround
  cases d
  exact congrArg₂ Decimal.mk hcoefficient hscale

/-! ### Between the limits -/

/-- **Between the limits a result has its text**, unless that has too many places. They are not more
than four beyond the digits, because nothing is displayed below `10 ^ -4`. -/
theorem displayGeneral?_cases (hm : 0 < m) (hp : 0 < p)
    (hlow : (10 : ℚ) ^ (-4 : Int) ≤ m * 2 ^ e) :
    displayGeneral? m e p = some (displayGeneral m e p) ∨
      displayGeneral? m e p = none ∧ maxPlaces < p + 3 := by
  obtain ⟨places, rfl⟩ : ∃ places, p = places + 1 := ⟨p - 1, by omega⟩
  obtain ⟨⟨hfirst, hlast⟩, -⟩ := toDecimal_spec hm e places
  have hmin := neg_four_le_log hm hlow places
  have hexponent := Decimal.firstExponent_eq hfirst hlast
  rw [log_toDecimal hm, ← hexponent] at hmin
  unfold displayGeneral? displayGeneral
  rw [Nat.add_sub_cancel, toDecimal?]
  by_cases hplaces : places ≤ maxPlaces
  · have hmax : ¬ Int64.maxValue.toInt < (places + 1 : Nat) := by
      have hvalue : Int64.maxValue.toInt = 2 ^ 63 - 1 := rfl
      unfold maxPlaces at hplaces
      omega
    rw [if_pos hplaces]
    simp only [bind, Option.bind_some, pure, if_neg hmax, ← hexponent, Bool.or_eq_true,
      decide_eq_true_eq]
    by_cases hlarge : ((places + 1 : Nat) : Int) ≤ (toDecimal m e places).firstExponent
    · rw [if_pos (Or.inr hlarge), if_pos hlarge]
      exact Or.inl rfl
    · have hleft : (((places + 1 : Nat) : Int) - 1 - (toDecimal m e places).firstExponent).toNat =
          (-(toDecimal m e places).exponent).toNat := by omega
      rw [if_neg (by omega), if_neg hlarge, hleft, toFixed?, toFixed_eq hm (by omega)]
      by_cases hfixed : (-(toDecimal m e places).exponent).toNat ≤ maxPlaces
      · rw [if_pos hfixed]
        exact Or.inl rfl
      · rw [if_neg hfixed]
        exact Or.inr ⟨rfl, by omega⟩
  · rw [if_neg hplaces]
    exact Or.inr ⟨rfl, by omega⟩

/-! ### All results -/

theorem display?_zero (h : parts v = .zero s) : display? v p = some (display v p) := by
  unfold display? display
  rw [h]

theorem display?_whole (h : parts v = .finite s m e hm) (hk : exact v = k)
    (hlt : k.natAbs < 10 ^ 15) : display? v p = some (display v p) := by
  unfold display? display
  rw [h]
  dsimp only
  rw [if_pos ((Double.isWhole_iff h).2 ⟨k, hk, hlt⟩), if_pos ((Double.isWhole_iff h).2 ⟨k, hk, hlt⟩)]

/-- The text of a number that is not displayed in full is its sign and what its size calls for. -/
theorem display?_eq (h : parts v = .finite s m e hm)
    (hwhole : ¬ ∃ k : Int, exact v = k ∧ k.natAbs < 10 ^ 15) : display? v p =
      (if (10 : ℚ) ^ 10 ≤ m * 2 ^ e ∨ (m : ℚ) * 2 ^ e < 10 ^ (-4 : Int) then
        (toDecimal? m e p).map (·.scientific id)
      else displayGeneral? m e (max p 1)).map fun t => String.ofList (signText s ++ t) := by
  unfold display?
  rw [h]
  dsimp only
  rw [if_neg (mt (Double.isWhole_iff h).1 hwhole)]
  refine congrArg (Option.map _) (if_congr ?_ rfl rfl)
  rw [Bool.or_eq_true, decide_eq_true_iff, decide_eq_true_iff, Double.largeLimit_le_iff h,
    Double.lt_smallLimit_iff h]

/-- **A double has the text with any number of places, or none.** -/
theorem display?_cases (v : Float) (p : Nat) :
    display? v p = some (display v p) ∨ display? v p = none ∧ 65532 < p := by
  cases h : parts v with
  | notANumber | infinity s =>
    left
    unfold display? display
    rw [h]
  | zero s => exact Or.inl (display?_zero h)
  | finite s m e hm =>
    by_cases hwhole : ∃ k : Int, exact v = k ∧ k.natAbs < 10 ^ 15
    · obtain ⟨k, hk, hlt⟩ := hwhole
      exact Or.inl (display?_whole h hk hlt)
    rw [display?_eq h hwhole]
    by_cases hrange : (10 : ℚ) ^ 10 ≤ m * 2 ^ e ∨ (m : ℚ) * 2 ^ e < 10 ^ (-4 : Int)
    · rw [if_pos hrange, display_extreme h hwhole (by rwa [Double.abs_exact h]), toDecimal?]
      by_cases hplaces : p ≤ maxPlaces
      · rw [if_pos hplaces]
        exact Or.inl rfl
      · rw [if_neg hplaces]
        refine Or.inr ⟨rfl, ?_⟩
        unfold maxPlaces at hplaces
        omega
    · obtain ⟨hhigh, hlow⟩ := not_or.1 hrange
      rw [not_le] at hhigh
      rw [not_lt] at hlow
      rw [if_neg hrange, display_middle h hwhole (by rwa [Double.abs_exact h])
        (by rwa [Double.abs_exact h])]
      rcases displayGeneral?_cases hm (show 0 < max p 1 by omega) hlow with htext | ⟨hnone, hlt⟩
      · rw [htext]
        exact Or.inl rfl
      · rw [hnone]
        refine Or.inr ⟨rfl, ?_⟩
        unfold maxPlaces at hlt
        omega

theorem eq_display (h : display? v p = some text) : text = display v p := by
  rcases display?_cases v p with hsome | ⟨hnone, -⟩
  · exact Option.some.inj (h.symm.trans hsome)
  · rw [hnone] at h
    cases h

theorem display?_of_le (v : Float) (hp : p ≤ 65532) : display? v p = some (display v p) :=
  (display?_cases v p).resolve_right fun h => by omega

theorem display?_neg (h : parts v = .finite .positive m e hm) :
    display? (-v) p = (display? v p).map ("-" ++ ·) := by
  have hneg : parts (-v) = .finite .negative m e hm := Double.parts_neg_finite h
  have hexact := Double.exact_neg h
  by_cases hwhole : ∃ k : Int, exact v = k ∧ k.natAbs < 10 ^ 15
  · obtain ⟨k, hk, hlt⟩ := hwhole
    have hk' : exact (-v) = (-k : Int) := by
      rw [hexact, hk, Int.cast_neg]
    have hlt' : (-k).natAbs < 10 ^ 15 := by rwa [Int.natAbs_neg]
    rw [display?_whole h hk hlt, display?_whole hneg hk' hlt', display_whole h hk hlt,
      display_whole hneg hk' hlt', Int.natAbs_neg]
    exact congrArg some String.ofList_append
  · have hwhole' : ¬ ∃ k : Int, exact (-v) = k ∧ k.natAbs < 10 ^ 15 := by
      rintro ⟨k, hk, hlt⟩
      refine hwhole ⟨-k, ?_, by rwa [Int.natAbs_neg]⟩
      rw [Int.cast_neg, ← hk, hexact, neg_neg]
    rw [display?_eq h hwhole, display?_eq hneg hwhole', Option.map_map]
    refine congrArg (Option.map · _) (funext fun t => ?_)
    exact String.ofList_append

end Calculator
