import Calculator.Display
import Calculator.Proofs.Doubles.Canonical

/-!
# Doubles that are whole numbers

The exact value of a double is the number that its mantissa and exponent stand for (`exact`). A
double equals its own integer part exactly if this value is a whole number.

* `eq_trunc_iff`: the test that a double is whole, by its exact value;
* `integerPart?_of_whole`: the integer that such a double is.
-/

namespace Calculator.Double

open Float.Model (UnpackedFloat Format totalExponent)
open Float.Model.UnpackedFloat

variable {x y : Float} {s : Sign} {m n : Nat} {e f : Int} {hm : 0 < m}

/-- **The exact value of a finite double**, zero for all others. -/
def exact (x : Float) : ℚ :=
  match parts x with
  | .finite s m e _ => s.apply m * 2 ^ e
  | _ => 0

theorem exact_of_parts (h : parts x = .finite s m e hm) : exact x = s.apply m * 2 ^ e := by
  unfold exact
  rw [h]

theorem abs_exact (h : parts x = .finite s m e hm) : |exact x| = m * 2 ^ e := by
  have hpos : (0 : ℚ) ≤ m * 2 ^ e := by positivity
  rw [exact_of_parts h]
  cases s with
  | positive => exact abs_of_nonneg hpos
  | negative =>
    show |((-m : Int) : ℚ) * 2 ^ e| = _
    rw [Int.cast_neg, neg_mul, abs_neg]
    exact abs_of_nonneg hpos

theorem parts_neg (x : Float) : parts (-x) = (parts x).neg := by
  show parts (ofParts (parts x).neg) = _
  cases hx : parts x with
  | notANumber => rfl
  | infinity s => exact parts_ofParts_infinity (-s)
  | zero s => cases s <;> rfl
  | finite s m e hm => exact parts_ofParts_finite (canonical_of_parts hx) (-s)

theorem parts_neg_finite (h : parts x = .finite s m e hm) : parts (-x) = .finite (-s) m e hm := by
  rw [parts_neg, h]
  rfl

theorem exact_neg (h : parts x = .finite s m e hm) : exact (-x) = -exact x := by
  rw [exact_of_parts h, exact_of_parts (parts_neg_finite h)]
  cases s with
  | positive =>
    show ((-m : Int) : ℚ) * 2 ^ e = -((m : Int) * 2 ^ e)
    rw [Int.cast_neg, neg_mul]
  | negative =>
    show ((m : Int) : ℚ) * 2 ^ e = -((-m : Int) * 2 ^ e)
    rw [Int.cast_neg, neg_mul, neg_neg]

/-! ### Comparing -/

theorem beq_iff (h : parts x = .finite s m e hm) : (x == y) = true ↔ parts y = parts x := by
  show (parts x).beq (parts y) = true ↔ _
  rw [beq_iff_ne_notANumber_and_eq, h]
  constructor
  · rintro ⟨-, -, hy | ⟨hx, -⟩ | ⟨hx, -⟩⟩
    · exact hy.symm
    · cases hx
    · cases hx
  · intro hy
    rw [hy]
    simp

/-! ### Integer parts -/

/-- The mantissa of a whole number ends with the zeros behind the point. -/
theorem canonical_shiftLeft (hn : 0 < n) (hlog : n.log2 ≤ 52) :
    Canonical (n <<< (52 - n.log2)) (n.log2 - 52) := by
  have hlog' : (n <<< (52 - n.log2)).log2 = 52 := by
    rw [log2_shiftLeft hn]
    omega
  have hpos : n <<< (52 - n.log2) ≠ 0 := by
    intro h
    rw [h] at hlog'
    cases hlog'
  obtain ⟨hlow, hhigh⟩ := (Nat.log2_eq_iff hpos).1 hlog'
  exact ⟨Nat.pos_of_ne_zero hpos, hhigh, by omega, by omega, fun _ => hlow⟩

theorem normalize_apply (hn : 0 < n) (s z : Sign) (e : Int) :
    UnpackedFloat.normalize .binary64 (s.apply n) e z = UnpackedFloat.round .binary64 s n e := by
  unfold UnpackedFloat.normalize
  cases s with
  | positive =>
    have hc : compare (n : Int) 0 = .gt := Int.compare_eq_gt.2 (by omega)
    show (match compare (n : Int) 0 with | .lt => _ | .eq => _ | .gt => _ : UnpackedFloat) = _
    rw [hc]
    rfl
  | negative =>
    have hc : compare (-(n : Int)) 0 = .lt := Int.compare_eq_lt.2 (by omega)
    have hneg : (- -(n : Int)).toNat = n := by omega
    show (match compare (-(n : Int)) 0 with | .lt => _ | .eq => _ | .gt => _ : UnpackedFloat) = _
    rw [hc]
    show UnpackedFloat.round .binary64 .negative (- -(n : Int)).toNat e = _
    rw [hneg]

theorem parts_nearest (hn : 0 < n) (hlog : n.log2 ≤ 52) (s z : Sign) :
    parts (nearest (s.apply n) 0 z) =
      .finite s (n <<< (52 - n.log2)) (n.log2 - 52) (canonical_shiftLeft hn hlog).pos := by
  unfold nearest
  rw [normalize_apply hn, round_of_log2_le hn hlog]
  exact parts_ofParts_finite (canonical_shiftLeft hn hlog) s

theorem apply_tdiv (s : Sign) (m d : Nat) : (s.apply m).tdiv d = s.apply (m / d : Nat) := by
  cases s with
  | positive => exact (Int.ofNat_tdiv m d).symm
  | negative =>
    show (-(m : Int)).tdiv d = -((m / d : Nat) : Int)
    rw [Int.neg_tdiv, Int.ofNat_tdiv]

theorem trunc_of_nonneg (h : parts x = .finite s m e hm) (he : 0 ≤ e) : trunc x = x := by
  unfold trunc toIntegral
  rw [h]
  exact if_pos he

theorem trunc_of_neg (h : parts x = .finite s m e hm) (he : e < 0) :
    trunc x = nearest (s.apply (m / twoTo (-e) : Nat)) 0 s := by
  unfold trunc toIntegral
  rw [h]
  show (if 0 ≤ e then x else nearest ((s.apply m).tdiv (twoTo (-e))) 0 s) = _
  rw [if_neg (by omega), apply_tdiv]

theorem value_eq_iff : (m : ℚ) * 2 ^ e = n ↔ m * twoTo e = n * twoTo (-e) := by
  have hne : (twoTo (-e) : ℚ) ≠ 0 := by exact_mod_cast (twoTo_pos (-e)).ne'
  rw [← twoTo_div e, mul_div_assoc', div_eq_iff hne]
  exact_mod_cast Iff.rfl

theorem parts_nearest_zero (s : Sign) : parts (nearest (s.apply (0 : Nat)) 0 s) = .zero s := by
  cases s <;> rfl

theorem log2_le (hc : Canonical m e) (hn : 0 < n) (hle : n ≤ m) : n.log2 ≤ 52 := by
  have := (Nat.log2_lt hn.ne').2 (hle.trans_lt hc.lt)
  omega

/-- The double of the integer part is `m · 2 ^ e` again only if nothing has been cut off. -/
theorem parts_nearest_eq_iff (hc : Canonical m e) (he : e < 0) :
    parts (nearest (s.apply (m / twoTo (-e) : Nat)) 0 s) = .finite s m e hm ↔
      ∃ n, m = n * twoTo (-e) := by
  have hpow : twoTo (-e) = 2 ^ (-e).toNat := rfl
  constructor
  · intro h
    refine ⟨m / twoTo (-e), ?_⟩
    have hle : m / twoTo (-e) ≤ m := Nat.div_le_self _ _
    generalize m / twoTo (-e) = n at h hle
    rcases Nat.eq_zero_or_pos n with rfl | hn
    · rw [parts_nearest_zero] at h
      cases h
    · have hlog := log2_le hc hn hle
      rw [parts_nearest hn hlog] at h
      obtain ⟨-, hm, he⟩ := UnpackedFloat.finite.inj h
      have hshift : 52 - n.log2 = (-e).toNat := by omega
      rw [hpow, ← hm, Nat.shiftLeft_eq, hshift]
  · rintro ⟨n, rfl⟩
    have hn : 0 < n := Nat.pos_of_mul_pos_right hm
    have hlog := log2_le hc hn (Nat.le_mul_of_pos_right n (twoTo_pos _))
    have hsum : (n * twoTo (-e)).log2 = n.log2 + (-e).toNat := by
      rw [hpow, ← Nat.shiftLeft_eq, log2_shiftLeft hn]
    have hsum_le := log2_le hc hm (Nat.le_refl _)
    have hsum_ge := (Nat.le_log2 hm.ne').2 (hc.full (by omega))
    have hshift : 52 - n.log2 = (-e).toNat := by omega
    rw [Nat.mul_div_cancel n (twoTo_pos _), parts_nearest hn hlog]
    simp only [UnpackedFloat.finite.injEq, true_and]
    refine ⟨?_, by omega⟩
    rw [hshift, Nat.shiftLeft_eq, hpow]

/-- **A double equals its integer part exactly if its value is a whole number.** -/
theorem eq_trunc_iff (h : parts x = .finite s m e hm) :
    (x == trunc x) = true ↔ ∃ n : Nat, (m : ℚ) * 2 ^ e = n := by
  rw [beq_iff h]
  rcases Int.lt_or_le e 0 with he | he
  · rw [trunc_of_neg h he, h, parts_nearest_eq_iff (canonical_of_parts h) he]
    refine exists_congr fun n => ?_
    rw [value_eq_iff, twoTo_of_nonpos he.le, Nat.mul_one]
  · rw [trunc_of_nonneg h he]
    refine iff_of_true rfl ⟨m * twoTo e, ?_⟩
    rw [value_eq_iff, twoTo_of_nonpos (by omega : -e ≤ 0), Nat.mul_one]

/-! ### Whole numbers that are displayed in full -/

theorem integerPart?_of_whole (h : parts x = .finite s m e hm) (hn : (m : ℚ) * 2 ^ e = n) :
    integerPart? x = some (s.apply n) := by
  unfold integerPart?
  rw [h]
  show some ((s.apply (m * twoTo e : Nat)).tdiv (twoTo (-e))) = _
  rw [value_eq_iff.1 hn, apply_tdiv, Nat.mul_div_cancel n (twoTo_pos _)]

theorem parts_abs (h : parts x = .finite s m e hm) : parts x.abs = .finite .positive m e hm := by
  show parts (ofParts (parts x).abs) = _
  rw [h]
  exact parts_ofParts_finite (canonical_of_parts h) .positive

theorem parts_wholeLimit : parts wholeLimit = .finite .positive (8 * 10 ^ 15) (-3) (by decide) := by
  rfl

end Calculator.Double
