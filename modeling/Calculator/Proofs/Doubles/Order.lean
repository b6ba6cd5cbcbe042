import Calculator.Proofs.Doubles.Integral

/-!
# The order of doubles

Positive doubles are compared by their exponents first, then by their mantissas. For canonical ones
that is the order of their values, because a larger exponent comes with a mantissa of full length.

* `compare_parts`: exponent and mantissa are compared like the value;
* `lt_iff`, `le_iff`: so are positive doubles;
* `lt_iff_of_gap`: a double that stands for a number between its neighbour and itself;
* `lt_wholeLimit_iff`, `largeLimit_le_iff`, `lt_smallLimit_iff`: the limits of the three layouts.
-/

namespace Calculator.Double

open Float.Model (UnpackedFloat)
open Float.Model.UnpackedFloat

variable {x y : Float} {s : Sign} {m n : Nat} {e f : Int} {hm : 0 < m} {hn : 0 < n} {r : ℚ}

/-! ### Canonical values -/

theorem value_lt_of_lt (hc : Canonical m e) (hd : Canonical n f) (h : e < f) :
    (m : ℚ) * 2 ^ e < n * 2 ^ f := by
  have hm : (m : ℚ) < 2 ^ 53 := by exact_mod_cast hc.lt
  have hn : (2 : ℚ) ^ 52 ≤ n := by
    have hmin := hc.min
    exact_mod_cast hd.full (by omega)
  have hpow : (2 : ℚ) ^ (e + 1) ≤ 2 ^ f := zpow_le_zpow_right₀ one_le_two (by omega)
  calc (m : ℚ) * 2 ^ e < 2 ^ 53 * 2 ^ e := by gcongr
    _ = 2 ^ 52 * 2 ^ (e + 1) := by rw [zpow_add_one₀ two_ne_zero]; ring
    _ ≤ n * 2 ^ f := by gcongr

/-- **Exponent and mantissa are compared like the value.** -/
theorem compare_parts (hc : Canonical m e) (hd : Canonical n f) :
    (compare e f).then (compare m n) = compare ((m : ℚ) * 2 ^ e) (n * 2 ^ f) := by
  rcases lt_trichotomy e f with hlt | rfl | hgt
  · have hvalue := value_lt_of_lt hc hd hlt
    rw [Int.compare_eq_lt.2 hlt, compare_lt_iff_lt.2 hvalue]
    rfl
  · have hpos : (0 : ℚ) < 2 ^ e := by positivity
    rw [Int.compare_eq_eq.2 rfl]
    rcases lt_trichotomy m n with hlt | rfl | hgt
    · have hvalue : (m : ℚ) * 2 ^ e < n * 2 ^ e := by gcongr
      rw [Nat.compare_eq_lt.2 hlt, compare_lt_iff_lt.2 hvalue]
      rfl
    · rw [Nat.compare_eq_eq.2 rfl, compare_eq_iff_eq.2 rfl]
      rfl
    · have hvalue : (n : ℚ) * 2 ^ e < m * 2 ^ e := by gcongr
      rw [Nat.compare_eq_gt.2 hgt, compare_gt_iff_gt.2 hvalue]
      rfl
  · have hvalue := value_lt_of_lt hd hc hgt
    rw [Int.compare_eq_gt.2 hgt, compare_gt_iff_gt.2 hvalue]
    rfl

/-! ### Positive doubles -/

theorem compare_eq (hx : parts x = .finite .positive m e hm)
    (hy : parts y = .finite .positive n f hn) :
    (parts x).compare (parts y) = some (compare ((m : ℚ) * 2 ^ e) (n * 2 ^ f)) := by
  rw [← compare_parts (canonical_of_parts hx) (canonical_of_parts hy), hx, hy]
  rfl

theorem lt_iff (hx : parts x = .finite .positive m e hm)
    (hy : parts y = .finite .positive n f hn) : x < y ↔ (m : ℚ) * 2 ^ e < n * 2 ^ f := by
  have hlt : x < y ↔ ((parts x).compare (parts y) == some .lt) = true := decide_eq_true_iff
  rw [hlt, compare_eq hx hy, ← compare_lt_iff_lt]
  simp

theorem le_iff (hx : parts x = .finite .positive m e hm)
    (hy : parts y = .finite .positive n f hn) : x ≤ y ↔ (m : ℚ) * 2 ^ e ≤ n * 2 ^ f := by
  have hle : x ≤ y ↔ ((parts x).compare (parts y)).any (·.isLE) = true := decide_eq_true_iff
  rw [hle, compare_eq hx hy, ← compare_le_iff_le]
  simp [Ordering.isLE_iff_ne_gt]

/-- **A double stands for every number down to its neighbour**, where doubles are compared with
it. -/
theorem lt_iff_of_gap (hc : Canonical m e) (hd : Canonical n f) (hn : 2 ^ 52 < n)
    (hlow : ((n - 1 : Nat) : ℚ) * 2 ^ f < r) (hhigh : r ≤ n * 2 ^ f) :
    (m : ℚ) * 2 ^ e < n * 2 ^ f ↔ (m : ℚ) * 2 ^ e < r := by
  refine ⟨fun hlt => ?_, fun hlt => hlt.trans_le hhigh⟩
  have hlt' := hd.lt
  have hbelow : Canonical (n - 1) f := ⟨by omega, by omega, hd.min, hd.max, fun _ => by omega⟩
  have hpos : (0 : ℚ) < 2 ^ f := by positivity
  -- There is no double between the neighbours.
  have hle : (m : ℚ) * 2 ^ e ≤ (n - 1 : Nat) * 2 ^ f := by
    rcases lt_trichotomy e f with he | rfl | he
    · exact (value_lt_of_lt hc hbelow he).le
    · have hmn : m < n := by exact_mod_cast lt_of_mul_lt_mul_right hlt hpos.le
      have hmn : (m : ℚ) ≤ (n - 1 : Nat) := by exact_mod_cast Nat.le_sub_one_of_lt hmn
      gcongr
    · exact absurd (value_lt_of_lt hd hc he) hlt.not_gt
  exact hle.trans_lt hlow

/-! ### The limits of the layouts -/

theorem parts_largeLimit :
    parts largeLimit = .finite .positive 5242880000000000 (-19) (by decide) := by
  rfl

theorem parts_smallLimit :
    parts smallLimit = .finite .positive 7378697629483821 (-66) (by decide) := by
  rfl

theorem lt_wholeLimit_iff (h : parts x = .finite s m e hm) :
    x.abs < wholeLimit ↔ (m : ℚ) * 2 ^ e < 10 ^ 15 := by
  rw [lt_iff (parts_abs h) parts_wholeLimit]
  norm_num

theorem largeLimit_le_iff (h : parts x = .finite s m e hm) :
    largeLimit ≤ x.abs ↔ (10 : ℚ) ^ 10 ≤ m * 2 ^ e := by
  rw [le_iff parts_largeLimit (parts_abs h)]
  norm_num

/-- The limit below is no double; the nearest one is a little larger. -/
theorem lt_smallLimit_iff (h : parts x = .finite s m e hm) :
    x.abs < smallLimit ↔ (m : ℚ) * 2 ^ e < 10 ^ (-4 : Int) := by
  rw [lt_iff (parts_abs h) parts_smallLimit]
  refine lt_iff_of_gap (canonical_of_parts h) (canonical_of_parts parts_smallLimit) (by decide) ?_ ?_
  · norm_num
  · norm_num

end Calculator.Double
