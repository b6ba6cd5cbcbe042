import Calculator.Proofs.Display.Limits

/-!
# How results are displayed

The text of a finite double shows the nearest decimal with the digits that are asked for, in the
style of its layout.

* `displayGeneral_spec`: between the limits, a result is displayed as `%.pg` prints it;
* `display_styles`: the text is canonical, shows the nearest decimal, and that of a negative double
  is the text of the positive one with a sign.
-/

namespace Calculator

open Float.Model.UnpackedFloat (Sign)
open Double (parts signText display display? displayGeneral toDecimal exact)
open Decimal (Denotes Nearest Plain Trimmed ScientificText PositionalText digits ofDigits)

variable {v : Float} {s : Sign} {m p : Nat} {e : Int} {hm : 0 < m}

/-- **Between the limits a result is displayed as `%.pg` prints it**: with `p` significant digits and
without the zeros at the end, scientifically if the rounded number has more than `p` digits before
the point, and otherwise rounded to the places that are left. -/
theorem displayGeneral_spec (hm : 0 < m) (hp : 0 < p) (hlow : (10 : ℚ) ^ (-4 : Int) ≤ m * 2 ^ e) :
    ∃ r, Nearest (m * 2 ^ e) p r ∧ Denotes (displayGeneral m e p) r ∧
      (p ≤ Int.log 10 r → ScientificText Trimmed r (p - 1) (displayGeneral m e p)) ∧
      (Int.log 10 r < p → -4 ≤ Int.log 10 r ∧
        PositionalText (m * 2 ^ e) (p - 1 - Int.log 10 r).toNat (displayGeneral m e p)) := by
  obtain ⟨places, rfl⟩ : ∃ places, p = places + 1 := ⟨p - 1, by omega⟩
  have hnear := nearest_toDecimal hm e places
  have hdenotes := denotes_displayGeneral m e (places + 1)
  have hmin := neg_four_le_log hm hlow places
  have hlog := log_toDecimal hm e places
  obtain ⟨⟨hfirst, hlast⟩, hround⟩ := toDecimal_spec hm e places
  rw [Nat.add_sub_cancel] at hdenotes
  refine ⟨_, hnear, hdenotes, ?_⟩
  unfold displayGeneral
  rw [Nat.add_sub_cancel]
  generalize toDecimal m e places = d at hmin hlog hfirst hlast hround ⊢
  dsimp only
  refine ⟨fun hle => ?_, fun hlt => ⟨hmin, ?_⟩⟩
  · rw [if_pos (by omega)]
    exact Decimal.scientificText hfirst hlast Decimal.trimmed_trimZeros
  · have hplaces : (((places + 1 : Nat) : Int) - 1 - Int.log 10 d.value).toNat =
        (-d.exponent).toNat := by omega
    have hpos : 0 < d.coefficient := (Nat.pow_pos (by decide)).trans_le hfirst
    rw [if_neg (by omega), hplaces]
    exact Decimal.positionalText hpos (by omega) hround

/-! ### Displaying a result -/

/-- **How a finite double is displayed.**

* With a precision up to `65532` it has a text. With a greater one a whole number below `10 ^ 15` has
  one, and any other has none or one of those below.
* A whole number below `10 ^ 15` is its digits, with a sign if it is negative.
* Any other from `10 ^ 10` on or below `10 ^ -4` is in scientific style, all `p` digits after the
  point included, and shows the nearest decimal with `p + 1` significant digits.
* All others show the nearest decimal with `p` significant digits, but at least one, without the
  zeros at the end, and have an exponent exactly if the power of ten of that decimal is `p` or more.
* The text of a negative double is that of the positive one behind a sign. -/
theorem display_styles (v : Float) (p : Nat) (hv : v.isFinite = true) :
    (p ≤ 65532 → (display? v p).isSome = true) ∧
    (∀ k : Int, exact v = k → k.natAbs < 10 ^ 15 → ∃ ds,
      display? v p = some (String.ofList ((if k < 0 then ['-'] else []) ++ ds)) ∧
      Plain ds ∧ ofDigits ds = k.natAbs) ∧
    ((¬ ∃ k : Int, exact v = k ∧ k.natAbs < 10 ^ 15) → ∀ text, display? v p = some text →
      (10 ^ 10 ≤ |exact v| ∨ |exact v| < 10 ^ (-4 : Int) → ∃ t r,
        text = String.ofList ((if exact v < 0 then ['-'] else []) ++ t) ∧
        Nearest |exact v| (p + 1) r ∧ Denotes t r ∧ ScientificText Eq r p t) ∧
      (10 ^ (-4 : Int) ≤ |exact v| → |exact v| < 10 ^ 10 → ∃ t r,
        text = String.ofList ((if exact v < 0 then ['-'] else []) ++ t) ∧
        Nearest |exact v| (max p 1) r ∧ Denotes t r ∧
        ('e' ∈ t ↔ (max p 1 : Nat) ≤ Int.log 10 r) ∧
        ((max p 1 : Nat) ≤ Int.log 10 r → ScientificText Trimmed r (max p 1 - 1) t) ∧
        (Int.log 10 r < (max p 1 : Nat) → -4 ≤ Int.log 10 r ∧
          PositionalText |exact v| ((max p 1 : Nat) - 1 - Int.log 10 r).toNat t))) ∧
    (0 < exact v → display? (-v) p = (display? v p).map ("-" ++ ·)) := by
  refine ⟨fun hp => by rw [display?_of_le v hp]; rfl, ?_⟩
  cases h : parts v with
  | notANumber | infinity s =>
    rw [Double.isFinite_eq, h] at hv
    cases hv
  | zero s =>
    have hzero : exact v = 0 := by
      unfold exact
      rw [h]
    refine ⟨fun k hk _ => ?_, fun hwhole => ?_, fun hpos => ?_⟩
    · rw [hzero] at hk
      obtain rfl : k = 0 := by exact_mod_cast hk.symm
      refine ⟨digits 0, ?_, Decimal.plain_digits 0, rfl⟩
      rw [display?_zero h, display_zero h]
      rfl
    · exact absurd ⟨0, by simpa using hzero, by decide⟩ hwhole
    · exact absurd hzero hpos.ne'
  | finite s m e hm =>
    refine ⟨fun k hk hlt => ?_, fun hwhole text htext => ?_, fun hpos => ?_⟩
    · have hsign : signText s = if k < 0 then ['-'] else [] := by
        rw [Double.signText_eq h, hk]
        exact if_congr Int.cast_lt_zero rfl rfl
      rw [← hsign, display?_whole h hk hlt, display_whole h hk hlt]
      exact ⟨digits k.natAbs, rfl, Decimal.plain_digits _, Decimal.ofDigits_digits _⟩
    · rw [eq_display htext, ← Double.signText_eq h]
      refine ⟨fun hrange => ?_, fun hlow hhigh => ?_⟩
      · obtain ⟨⟨hfirst, hlast⟩, -⟩ := toDecimal_spec hm e p
        rw [display_extreme h hwhole hrange, Double.abs_exact h]
        exact ⟨_, _, rfl, nearest_toDecimal hm e p,
          Decimal.denotes_scientific Decimal.keepsValue_id _,
          Decimal.scientificText hfirst hlast fun _ => rfl⟩
      · rw [display_middle h hwhole hlow hhigh]
        rw [Double.abs_exact h] at hlow ⊢
        obtain ⟨r, hnear, hdenotes, hscientific, hpositional⟩ :=
          displayGeneral_spec hm (show 0 < max p 1 by omega) hlow
        refine ⟨_, r, rfl, hnear, hdenotes, ⟨fun hmem => ?_, fun hle => (hscientific hle).mem⟩,
          hscientific, hpositional⟩
        by_contra hlt
        exact (hpositional (by omega)).2.not_mem hmem
    · cases s with
      | positive => exact display?_neg h
      | negative =>
        have hsign := Double.signText_eq h
        rw [if_neg hpos.not_gt] at hsign
        cases hsign

/-- A whole number, a small one, and one that is half way between `9` and `10`. -/
theorem display_styles_carry :
    ((-17.0 : Float).isFinite = true ∧ exact (-17.0) = (-17 : Int) ∧ (-17 : Int).natAbs < 10 ^ 15 ∧
      ∃ ds, display? (-17.0) 0 = some (String.ofList ('-' :: ds)) ∧ Plain ds ∧ ofDigits ds = 17) ∧
    ((9.5367431640625e-07 : Float).isFinite = true ∧ exact 9.5367431640625e-07 = 1 / 2 ^ 20 ∧
      display? 9.5367431640625e-07 2 = some "9.54e-07" ∧
      ∃ t r, "9.54e-07" = String.ofList t ∧ Nearest (1 / 2 ^ 20) 3 r ∧ Denotes t r ∧
        ScientificText Eq r 2 t) ∧
    ((9.5 : Float).isFinite = true ∧ exact 9.5 = 19 / 2 ∧ display? 9.5 1 = some "1e+01" ∧
      (∃ t r, "1e+01" = String.ofList t ∧ Nearest (19 / 2) 1 r ∧ Denotes t r ∧
        ('e' ∈ t ↔ 1 ≤ Int.log 10 r)) ∧
      display? (-9.5) 1 = some "-1e+01") := by
  have hwhole : exact (-17.0) = (-17 : Int) := by
    have h : parts (-17.0) = .finite .negative (17 * 2 ^ 48) (-48) (by decide) := by rfl
    rw [Double.exact_of_parts h]
    norm_num [Sign.apply]
  have hsmall : exact 9.5367431640625e-07 = 1 / 2 ^ 20 := by
    have h : parts 9.5367431640625e-07 = .finite .positive (2 ^ 52) (-72) (by decide) := by rfl
    rw [Double.exact_of_parts h]
    norm_num [Sign.apply]
  have hhalf : exact 9.5 = 19 / 2 := by
    have h : parts 9.5 = .finite .positive (19 * 2 ^ 48) (-49) (by decide) := by rfl
    rw [Double.exact_of_parts h]
    norm_num [Sign.apply]
  have hsmall' : ¬ ∃ k : Int, exact 9.5367431640625e-07 = k ∧ k.natAbs < 10 ^ 15 := by
    rintro ⟨k, hk, -⟩
    rw [hsmall, div_eq_iff (by norm_num)] at hk
    have hk : 1 = k * 2 ^ 20 := by exact_mod_cast hk
    omega
  have hhalf' : ¬ ∃ k : Int, exact 9.5 = k ∧ k.natAbs < 10 ^ 15 := by
    rintro ⟨k, hk, -⟩
    rw [hhalf, div_eq_iff (by norm_num)] at hk
    have hk : 19 = k * 2 := by exact_mod_cast hk
    omega
  have htextSmall : display? 9.5367431640625e-07 2 = some "9.54e-07" := by rfl
  have htextHalf : display? 9.5 1 = some "1e+01" := by rfl
  obtain ⟨-, htext, -, -⟩ := display_styles (-17.0) 0 rfl
  obtain ⟨-, -, hextreme, -⟩ := display_styles 9.5367431640625e-07 2 rfl
  obtain ⟨-, -, hmiddle, hneg⟩ := display_styles 9.5 1 rfl
  refine ⟨⟨rfl, hwhole, by decide, htext _ hwhole (by decide)⟩, ⟨rfl, hsmall, htextSmall, ?_⟩,
    rfl, hhalf, htextHalf, ?_, (hneg (by rw [hhalf]; norm_num)).trans (by rw [htextHalf]; rfl)⟩
  · obtain ⟨t, r, ht, hnear, hdenotes, hstyle⟩ :=
      (hextreme hsmall' _ htextSmall).1 (Or.inr (by rw [hsmall]; norm_num [abs_of_pos]))
    rw [hsmall, if_neg (by norm_num)] at ht
    rw [hsmall, abs_of_pos (by norm_num)] at hnear
    exact ⟨t, r, ht, hnear, hdenotes, hstyle⟩
  · obtain ⟨t, r, ht, hnear, hdenotes, hmem, -⟩ := (hmiddle hhalf' _ htextHalf).2
      (by rw [hhalf]; norm_num [abs_of_pos]) (by rw [hhalf]; norm_num [abs_of_pos])
    rw [hhalf, if_neg (by norm_num)] at ht
    rw [hhalf, abs_of_pos (by norm_num)] at hnear
    exact ⟨t, r, ht, hnear, hdenotes, hmem⟩

end Calculator
