import Calculator.Gamma
import Calculator.Proofs.Doubles.Ranking
import Calculator.Proofs.Doubles.Signed

/-!
# The gamma function reflects at most once

Below one half the gamma function is computed from its value at `1 - z`. That is a recursion without
a measure: what ends it is the rounding of `1 - z`, which lies above one half before it is rounded,
and does not cross one half, since that is a double.

* `Rounds.not_lt`: rounding does not cross a double;
* `not_lt_half`: a reflected argument is not below one half, whatever double it is;
* `Reflects z k v`: the recursion leads from `z` to the value `v` with `k` reflections;
* `reflects_once`: it always ends, with at most one reflection, in the value that is computed.
-/

namespace Calculator

namespace Double

open Float.Model.UnpackedFloat (Sign)

variable {x y z : Float} {s : Sign} {p q : ℚ}

/-! ### Rounding keeps the order -/

theorem RoundsSigned.rounds (h : RoundsSigned x q) (hq : 0 < q) : Rounds x q := by
  obtain ⟨s, p, hp, rfl, hround⟩ := h
  cases s with
  | positive =>
    rw [apply_positive_mul]
    exact hround.rounds
  | negative =>
    rw [apply_negative_mul] at hq
    linarith

theorem not_infinity_lt (y : Float) : ¬ infinity < y := by
  rw [lt_iff_compare]
  show ¬ (Float.Model.UnpackedFloat.infinity .positive).compare (parts y) = some .lt
  cases parts y with
  | infinity s => cases s <;> decide
  | notANumber | zero | finite => nofun

/-- **Rounding does not cross a double**: a number that is not below it is not rounded below it. -/
theorem Rounds.not_lt (h : Rounds x q) (hy : HasValue y p) (hp : 0 ≤ p) (hpq : p ≤ q) :
    ¬ x < y := by
  have hcorrect := h.correctlyRounded (hp.trans hpq)
  rcases lt_or_ge q rangeEnd with hlt | hend
  · have hnearest := hcorrect.nearest hlt
    have hdistance := hnearest.le y p hy
    rw [abs_sub_comm p, abs_of_nonneg (sub_nonneg.2 hpq)] at hdistance
    have hlow := (abs_le.1 hdistance).1
    have hx : HasValue x (exact x) := ⟨hnearest.finite, rfl⟩
    rw [hx.lt_iff hy]
    linarith
  · rw [hcorrect.overflow hend]
    exact not_infinity_lt y

end Double

namespace Gamma

open Double

variable {z v : Float} {k : Nat}

/-! ### The reflected argument -/

theorem hasValue_half : HasValue 0.5 (1 / 2) := by
  have hparts : parts 0.5 = .finite .positive (2 ^ 52) (-53) (by decide) := by rfl
  have hvalue := hasValue_positive hparts
  norm_num at hvalue
  exact hvalue

/-- **A reflected argument is not below one half**, also that of an infinity. -/
theorem not_lt_half (h : z < 0.5) : ¬ 1.0 - z < 0.5 := by
  have hnumber : z.isNaN = false := by
    rw [← Bool.not_eq_true]
    intro hnan
    rw [lt_iff_compare, compare_of_isNaN (.inl hnan)] at h
    cases h
  have hone : HasValue 1.0 1 := hasValue_ofInt (n := 1) (by decide)
  rw [sub_eq_add]
  by_cases hz : z.isFinite = true
  · have hvalue : HasValue z (exact z) := ⟨hz, rfl⟩
    have hlt := (hvalue.lt_iff hasValue_half).1 h
    have hpos : 0 < 1 + -exact z := by linarith
    have hrounds := (hone.roundsSigned_add hvalue.neg hpos.ne').rounds hpos
    exact hrounds.not_lt hasValue_half (by norm_num) (by linarith)
  · -- Only the infinity with a minus sign is below one half.
    have hfinite := Bool.eq_false_iff.2 hz
    obtain ⟨s, hs⟩ := exists_infinity hfinite hnumber
    have hopposite : parts (-z) = .infinity (-s) := by
      rw [parts_neg, hs]
      rfl
    have hlost := hone.add_of_not_isFinite ((isFinite_neg z).trans hfinite)
    rw [hlost]
    cases s with
    | positive =>
      rw [eq_infinity hs] at h
      exact absurd h (not_infinity_lt 0.5)
    | negative =>
      rw [eq_infinity hopposite]
      exact not_infinity_lt 0.5

/-! ### The recursion -/

/-- **A run of the recursion**: from one half on the approximation is taken, and below it the value
of the reflected argument, for which the recursion starts again. -/
inductive Reflects : Float → Nat → Float → Prop
  | direct {z : Float} (h : ¬ z < 0.5) : Reflects z 0 (lanczos z)
  | reflect {z v : Float} {k : Nat} (h : z < 0.5) (hv : Reflects (1.0 - z) k v) :
    Reflects z (k + 1) (pi / ((pi * z).sin * v))

/-- The number of reflections that an argument needs. -/
def reflections (z : Float) : Nat := if z < 0.5 then 1 else 0

/-- **Every argument has a run**, and the value that is computed is its value. -/
theorem reflects_extended (z : Float) : Reflects z (reflections z) (extended z) := by
  unfold reflections extended
  by_cases h : z < 0.5
  · rw [if_pos h, if_pos h]
    exact .reflect h (.direct (not_lt_half h))
  · rw [if_neg h, if_neg h]
    exact .direct h

theorem Reflects.unique {j : Nat} {w : Float} (h : Reflects z j w) (h' : Reflects z k v) :
    j = k ∧ w = v := by
  induction h generalizing k v with
  | direct h =>
    cases h' with
    | direct _ => exact ⟨rfl, rfl⟩
    | reflect h' _ => exact absurd h' h
  | reflect h _ ih =>
    cases h' with
    | direct h' => exact absurd h h'
    | reflect _ hv =>
      obtain ⟨rfl, rfl⟩ := ih hv
      exact ⟨rfl, rfl⟩

/-- **The gamma function reflects at most once.** The argument of a reflection is not below one
half, for every double; so the recursion ends, with one reflection below one half and none from there
on, and in no other way, and its value is the one whose finiteness the gamma function checks. -/
theorem reflects_once (z : Float) :
    (z < 0.5 → ¬ 1.0 - z < 0.5) ∧
    (∀ k v, Reflects z k v ↔ k = reflections z ∧ v = extended z) ∧
    ∃ k ≤ 1, ∃ v, Reflects z k v ∧
      gamma z = if z ≤ 0.0 && Double.isIntegral z then .error .domainError else checked v := by
  refine ⟨not_lt_half, fun k v => ⟨fun h => h.unique (reflects_extended z), ?_⟩, ?_⟩
  · rintro ⟨rfl, rfl⟩
    exact reflects_extended z
  · refine ⟨reflections z, ?_, extended z, reflects_extended z, rfl⟩
    unfold reflections
    split
    · exact le_rfl
    · exact zero_le_one

/-- The double next to one half: only rounding decides where it is reflected to. -/
theorem reflects_once_neighbour :
    (0.49999999999999994 : Float) < 0.5 ∧ ¬ (1.0 : Float) - 0.49999999999999994 < 0.5 ∧
      Reflects 0.49999999999999994 1 (extended 0.49999999999999994) := by
  have hlt : (0.49999999999999994 : Float) < 0.5 := by decide
  obtain ⟨hreflected, hruns, -⟩ := reflects_once 0.49999999999999994
  exact ⟨hlt, hreflected hlt, (hruns 1 _).2 ⟨(if_pos hlt).symm, rfl⟩⟩

end Gamma

end Calculator
