import Calculator.Proofs.Decimals.Reading
import Calculator.Proofs.Doubles.Order

/-!
# The layouts of a result

Which of the three layouts the text of a double has, by the exact value of the double.

* `isWhole_iff`: which doubles are displayed in full;
* `display_whole`, `display_extreme`, `display_middle`: the layout of a text;
* `display_cases`: there is no other;
* `exists_numeral`: whatever the layout, a finite double is displayed as a sign and a numeral.
-/

namespace Calculator

open Float.Model.UnpackedFloat (Sign)
open Double (parts ofParts signText display displayGeneral toDecimal exact)
open Decimal (Denotes digits)

variable {v : Float} {s : Sign} {m n p : Nat} {e k : Int} {hm : 0 < m}

/-! ### The exact value -/

namespace Double

theorem signText_eq (h : parts v = .finite s m e hm) :
    signText s = if exact v < 0 then ['-'] else [] := by
  have hpos : (0 : ℚ) < m * 2 ^ e := by positivity
  rw [exact_of_parts h]
  cases s with
  | positive => exact (if_neg hpos.not_gt).symm
  | negative =>
    have hneg : ((-m : Int) : ℚ) * 2 ^ e < 0 := by
      rw [Int.cast_neg, neg_mul]
      exact neg_lt_zero.2 hpos
    exact (if_pos hneg).symm

theorem isWhole_iff (h : parts v = .finite s m e hm) :
    (v == trunc v && v.abs < wholeLimit) = true ↔
      ∃ k : Int, exact v = k ∧ k.natAbs < 10 ^ 15 := by
  rw [Bool.and_eq_true, eq_trunc_iff h, decide_eq_true_iff, lt_wholeLimit_iff h, ← abs_exact h]
  constructor
  · rintro ⟨⟨n, hn⟩, hlt⟩
    rw [hn] at hlt
    have hlt : n < 10 ^ 15 := by exact_mod_cast hlt
    rcases eq_or_eq_neg_of_abs_eq hn with hk | hk
    · exact ⟨n, by exact_mod_cast hk, hlt⟩
    · exact ⟨-n, by exact_mod_cast hk, by omega⟩
  · rintro ⟨k, hk, hlt⟩
    have habs : |exact v| = k.natAbs := by
      rw [hk, Nat.cast_natAbs, Int.cast_abs]
    rw [habs]
    exact ⟨⟨k.natAbs, rfl⟩, by exact_mod_cast hlt⟩

end Double

/-! ### The layout of a text -/

theorem toString_apply (hn : 0 < n) :
    toString (s.apply n) = String.ofList (signText s ++ digits n) := by
  cases s with
  | positive => exact Nat.toString_eq_ofList_toDigits
  | negative =>
    obtain ⟨n, rfl⟩ := Nat.exists_eq_add_of_lt hn
    show "-" ++ toString (0 + n + 1) = _
    rw [Nat.toString_eq_ofList_toDigits, ← String.ofList_append]
    rfl

theorem display_zero (h : parts v = .zero s) : display v p = "0" := by
  unfold display
  rw [h]

theorem display_whole (h : parts v = .finite s m e hm) (hk : exact v = k)
    (hlt : k.natAbs < 10 ^ 15) : display v p = String.ofList (signText s ++ digits k.natAbs) := by
  have hn : (m : ℚ) * 2 ^ e = k.natAbs := by
    rw [← Double.abs_exact h, hk, Nat.cast_natAbs, Int.cast_abs]
  have hpos : 0 < k.natAbs := by
    have hpos : (0 : ℚ) < k.natAbs := by
      rw [← hn]
      positivity
    exact_mod_cast hpos
  unfold display
  rw [h]
  dsimp only
  rw [if_pos ((Double.isWhole_iff h).2 ⟨k, hk, hlt⟩), Double.integerPart?_of_whole h hn]
  exact toString_apply hpos

section NotWhole

variable (h : parts v = .finite s m e hm)
  (hwhole : ¬ ∃ k : Int, exact v = k ∧ k.natAbs < 10 ^ 15)
include h hwhole

theorem display_extreme (hrange : 10 ^ 10 ≤ |exact v| ∨ |exact v| < 10 ^ (-4 : Int)) :
    display v p = String.ofList (signText s ++ (toDecimal m e p).scientific id) := by
  rw [Double.abs_exact h] at hrange
  unfold display
  rw [h]
  dsimp only
  rw [if_neg (mt (Double.isWhole_iff h).1 hwhole), if_pos]
  rw [Bool.or_eq_true, decide_eq_true_iff, decide_eq_true_iff, Double.largeLimit_le_iff h,
    Double.lt_smallLimit_iff h]
  exact hrange

theorem display_middle (hlow : 10 ^ (-4 : Int) ≤ |exact v|) (hhigh : |exact v| < 10 ^ 10) :
    display v p = String.ofList (signText s ++ displayGeneral m e (max p 1)) := by
  rw [Double.abs_exact h] at hlow hhigh
  unfold display
  rw [h]
  dsimp only
  rw [if_neg (mt (Double.isWhole_iff h).1 hwhole), if_neg]
  rw [Bool.or_eq_true, decide_eq_true_iff, decide_eq_true_iff, Double.largeLimit_le_iff h,
    Double.lt_smallLimit_iff h, not_or, not_le, not_lt]
  exact ⟨hhigh, hlow⟩

end NotWhole

/-- **The three layouts** of a double that is not zero. -/
theorem display_cases (h : parts v = .finite s m e hm) (p : Nat) :
    (∃ n : Nat, (m : ℚ) * 2 ^ e = n ∧ display v p = String.ofList (signText s ++ digits n)) ∨
    display v p = String.ofList (signText s ++ (toDecimal m e p).scientific id) ∨
    display v p = String.ofList (signText s ++ displayGeneral m e (max p 1)) := by
  by_cases hwhole : ∃ k : Int, exact v = k ∧ k.natAbs < 10 ^ 15
  · obtain ⟨k, hk, hlt⟩ := hwhole
    refine Or.inl ⟨k.natAbs, ?_, display_whole h hk hlt⟩
    rw [← Double.abs_exact h, hk, Nat.cast_natAbs, Int.cast_abs]
  by_cases hrange : 10 ^ 10 ≤ |exact v| ∨ |exact v| < 10 ^ (-4 : Int)
  · exact Or.inr (Or.inl (display_extreme h hwhole hrange))
  · obtain ⟨hhigh, hlow⟩ := not_or.1 hrange
    exact Or.inr (Or.inr (display_middle h hwhole (not_lt.1 hlow) (not_le.1 hhigh)))

/-! ### Numerals -/

theorem denotes_displayGeneral (m : Nat) (e : Int) (p : Nat) :
    Denotes (displayGeneral m e p) (toDecimal m e (p - 1)).value := by
  unfold displayGeneral
  dsimp only
  split
  · exact Decimal.denotes_scientific Decimal.keepsValue_trimZeros _
  · exact Decimal.denotes_positional Decimal.keepsValue_trimZeros _

/-- **A finite double is displayed as a sign and a numeral.** -/
theorem exists_numeral (hv : v.isFinite = true) (p : Nat) :
    ∃ s t q, display v p = String.ofList (signText s ++ t) ∧ Denotes t q := by
  cases h : parts v with
  | notANumber | infinity s =>
    rw [Double.isFinite_eq, h] at hv
    cases hv
  | zero s => exact ⟨.positive, digits 0, 0, display_zero h, Decimal.denotes_nat 0⟩
  | finite s m e hm =>
    rcases display_cases h p with ⟨n, -, htext⟩ | htext | htext
    · exact ⟨s, _, _, htext, Decimal.denotes_nat n⟩
    · exact ⟨s, _, _, htext, Decimal.denotes_scientific Decimal.keepsValue_id _⟩
    · exact ⟨s, _, _, htext, denotes_displayGeneral ..⟩

end Calculator
