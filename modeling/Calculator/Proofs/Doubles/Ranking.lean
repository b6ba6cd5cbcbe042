import Calculator.Proofs.Doubles.Order
import Calculator.Proofs.Doubles.Symmetry
import Mathlib.Data.Prod.Lex

/-!
# The total order of doubles

Doubles are compared by their values, but an infinity has none, and NaN is not compared at all. With
a rank that puts the infinities at both ends and NaN after them, all that is left is the order of
pairs of numbers.

* `rank`: the place of a double among all doubles;
* `HasValue.compare_eq`, `HasValue.lt_iff`, `HasValue.beq_iff`: finite doubles are compared by value,
  whatever their signs;
* `rank_lt_iff`, `rank_eq_iff`: the order of ranks is that of doubles, with NaN at the end;
* `TotalOrder.Lawful`: what an implementation of a total order promises;
* `TotalOrder.Lawful.compare_eq`: it compares ranks;
* `TotalOrder.lawful_standard`: the implementation used here keeps its promise.
-/

namespace Calculator.Double

open Float.Model (UnpackedFloat)
open Float.Model.UnpackedFloat

variable {x y : Float} {s t : Sign} {m : Nat} {e : Int} {p q : ℚ}

/-! ### Values -/

theorem compare_neg_neg (p q : ℚ) : compare (-p) (-q) = compare q p := by
  rcases lt_trichotomy p q with hlt | rfl | hgt
  · rw [compare_gt_iff_gt.2 hlt, compare_gt_iff_gt.2 (neg_lt_neg hlt)]
  · rw [compare_eq_iff_eq.2 rfl, compare_eq_iff_eq.2 rfl]
  · rw [compare_lt_iff_lt.2 hgt, compare_lt_iff_lt.2 (neg_lt_neg hgt)]

theorem HasValue.compare_eq (hx : HasValue x p) (hy : HasValue y q) :
    (parts x).compare (parts y) = some (compare p q) := by
  rcases hx.cases with ⟨s, hx', rfl⟩ | ⟨s, m, e, hm, hx', rfl⟩
  · rcases hy.cases with ⟨t, hy', rfl⟩ | ⟨t, n, f, hn, hy', rfl⟩
    · rw [hx', hy', compare_eq_iff_eq.2 rfl]
      rfl
    · have hpos : (0 : ℚ) < n * 2 ^ f := by positivity
      rw [hx', hy']
      cases t with
      | positive =>
        rw [apply_positive_mul, compare_lt_iff_lt.2 hpos]
        rfl
      | negative =>
        rw [apply_negative_mul, compare_gt_iff_gt.2 (neg_lt_zero.2 hpos)]
        rfl
  · have hpos : (0 : ℚ) < m * 2 ^ e := by positivity
    rcases hy.cases with ⟨t, hy', rfl⟩ | ⟨t, n, f, hn, hy', rfl⟩
    · rw [hx', hy']
      cases s with
      | positive =>
        rw [apply_positive_mul, compare_gt_iff_gt.2 hpos]
        rfl
      | negative =>
        rw [apply_negative_mul, compare_lt_iff_lt.2 (neg_lt_zero.2 hpos)]
        rfl
    · have hpos' : (0 : ℚ) < n * 2 ^ f := by positivity
      have hparts := compare_parts (canonical_of_parts hx') (canonical_of_parts hy')
      rw [hx', hy']
      cases s with
      | positive =>
        cases t with
        | positive =>
          rw [apply_positive_mul, apply_positive_mul, ← hparts]
          rfl
        | negative =>
          rw [apply_positive_mul, apply_negative_mul, compare_gt_iff_gt.2 (by linarith)]
          rfl
      | negative =>
        cases t with
        | positive =>
          rw [apply_positive_mul, apply_negative_mul, compare_lt_iff_lt.2 (by linarith)]
          rfl
        | negative =>
          rw [apply_negative_mul, apply_negative_mul, compare_neg_neg, Std.OrientedOrd.eq_swap,
            ← hparts]
          rfl

/-! ### Ranks -/

/-- The numbers lie between the infinities, and NaN after all of them. -/
def level (x : Float) : ℤ :=
  match parts x with
  | .notANumber => 2
  | .infinity .positive => 1
  | .infinity .negative => -1
  | .zero _ | .finite .. => 0

/-- **The place of a double among all doubles.** -/
def rank (x : Float) : ℤ ×ₗ ℚ := toLex (level x, exact x)

theorem compare_rank (x y : Float) : compare (rank x) (rank y) =
    (compare (level x) (level y)).then (compare (exact x) (exact y)) := rfl

theorem level_of_isFinite (h : x.isFinite = true) : level x = 0 := by
  rw [isFinite_eq] at h
  unfold level
  cases hx : parts x with
  | notANumber | infinity => rw [hx] at h; cases h
  | zero | finite => rfl

theorem level_infinity (h : parts x = .infinity s) : level x = s.apply 1 := by
  unfold level
  rw [h]
  cases s <;> rfl

theorem exact_infinity (h : parts x = .infinity s) : exact x = 0 := by
  unfold exact
  rw [h]

theorem rank_of_isNaN (h : x.isNaN = true) : rank x = toLex ((2 : ℤ), (0 : ℚ)) := by
  have hx : parts x = .notANumber := isNaN_iff.1 h
  unfold rank level exact
  rw [hx]

theorem level_lt_of_isNaN (h : x.isNaN = false) : level x < 2 := by
  by_cases hx : x.isFinite = true
  · rw [level_of_isFinite hx]
    decide
  · obtain ⟨s, hs⟩ := exists_infinity (Bool.eq_false_iff.2 hx) h
    rw [level_infinity hs]
    cases s <;> decide

theorem rank_lt_of_isNaN (hx : x.isNaN = false) (hy : y.isNaN = true) : rank x < rank y := by
  rw [rank_of_isNaN hy]
  exact Prod.Lex.toLex_lt_toLex.2 (.inl (level_lt_of_isNaN hx))

theorem compare_eq_rank (hx : x.isNaN = false) (hy : y.isNaN = false) :
    (parts x).compare (parts y) = some (compare (rank x) (rank y)) := by
  rw [compare_rank]
  by_cases hxf : x.isFinite = true
  · have hxv : HasValue x (exact x) := ⟨hxf, rfl⟩
    rw [level_of_isFinite hxf]
    by_cases hyf : y.isFinite = true
    · rw [hxv.compare_eq ⟨hyf, rfl⟩, level_of_isFinite hyf]
      rfl
    · obtain ⟨t, hy'⟩ := exists_infinity (Bool.eq_false_iff.2 hyf) hy
      rw [level_infinity hy', hy']
      rcases hxv.cases with ⟨s, hx', -⟩ | ⟨s, m, e, hm, hx', -⟩
      · rw [hx']
        cases t <;> rfl
      · rw [hx']
        cases t <;> rfl
  · obtain ⟨s, hx'⟩ := exists_infinity (Bool.eq_false_iff.2 hxf) hx
    rw [level_infinity hx', exact_infinity hx', hx']
    by_cases hyf : y.isFinite = true
    · rw [level_of_isFinite hyf]
      rcases (⟨hyf, rfl⟩ : HasValue y (exact y)).cases with ⟨t, hy', -⟩ | ⟨t, n, f, hn, hy', -⟩
      · rw [hy']
        cases s <;> rfl
      · rw [hy']
        cases s <;> rfl
    · obtain ⟨t, hy'⟩ := exists_infinity (Bool.eq_false_iff.2 hyf) hy
      rw [level_infinity hy', exact_infinity hy', hy', compare_eq_iff_eq.2 (rfl : (0 : ℚ) = 0)]
      cases s <;> cases t <;> rfl

theorem compare_of_isNaN (h : x.isNaN = true ∨ y.isNaN = true) :
    (parts x).compare (parts y) = none := by
  rcases h with h | h
  · have hx : parts x = .notANumber := isNaN_iff.1 h
    rw [hx]
    rfl
  · have hy : parts y = .notANumber := isNaN_iff.1 h
    rw [hy]
    cases parts x with
    | infinity s => cases s <;> rfl
    | notANumber | zero | finite => rfl

theorem lt_iff_compare : x < y ↔ (parts x).compare (parts y) = some .lt := by
  have hlt : x < y ↔ ((parts x).compare (parts y) == some .lt) = true := decide_eq_true_iff
  rw [hlt, beq_iff_eq]

theorem beq_iff_compare : (x == y) = true ↔ (parts x).compare (parts y) = some .eq :=
  beq_iff_eq (a := (parts x).compare (parts y))

theorem HasValue.lt_iff (hx : HasValue x p) (hy : HasValue y q) : x < y ↔ p < q := by
  rw [lt_iff_compare, hx.compare_eq hy, Option.some_inj, compare_lt_iff_lt]

theorem HasValue.beq_iff (hx : HasValue x p) (hy : HasValue y q) : (x == y) = true ↔ p = q := by
  rw [beq_iff_compare, hx.compare_eq hy, Option.some_inj, compare_eq_iff_eq]

theorem lt_iff_rank (hx : x.isNaN = false) (hy : y.isNaN = false) : x < y ↔ rank x < rank y := by
  rw [lt_iff_compare, compare_eq_rank hx hy, Option.some_inj, compare_lt_iff_lt]

theorem beq_iff_rank (hx : x.isNaN = false) (hy : y.isNaN = false) :
    (x == y) = true ↔ rank x = rank y := by
  rw [beq_iff_compare, compare_eq_rank hx hy, Option.some_inj, compare_eq_iff_eq]

/-- **The order of ranks** is that of doubles, with NaN at the end. -/
theorem rank_lt_iff : rank x < rank y ↔ x < y ∨ x.isNaN = false ∧ y.isNaN = true := by
  cases hx : x.isNaN with
  | true =>
    have hle : rank y ≤ rank x := by
      cases hy : y.isNaN with
      | true => rw [rank_of_isNaN hx, rank_of_isNaN hy]
      | false => exact (rank_lt_of_isNaN hy hx).le
    rw [lt_iff_compare, compare_of_isNaN (.inl hx)]
    exact iff_of_false hle.not_gt (by simp)
  | false =>
    cases hy : y.isNaN with
    | true => exact iff_of_true (rank_lt_of_isNaN hx hy) (.inr ⟨rfl, rfl⟩)
    | false => simp [lt_iff_rank hx hy]

theorem rank_eq_iff : rank x = rank y ↔ (x == y) = true ∨ x.isNaN = true ∧ y.isNaN = true := by
  cases hx : x.isNaN with
  | true =>
    rw [beq_iff_compare, compare_of_isNaN (.inl hx)]
    cases hy : y.isNaN with
    | true => exact iff_of_true (by rw [rank_of_isNaN hx, rank_of_isNaN hy]) (.inr ⟨rfl, rfl⟩)
    | false => exact iff_of_false (rank_lt_of_isNaN hy hx).ne' (by simp)
  | false =>
    cases hy : y.isNaN with
    | true =>
      rw [beq_iff_compare, compare_of_isNaN (.inr hy)]
      exact iff_of_false (rank_lt_of_isNaN hx hy).ne (by simp)
    | false =>
      rw [beq_iff_rank hx hy]
      simp

/-! ### Implementations -/

/-- **What an implementation of the total order promises**: numbers are ordered as numbers, so that
the zeros are equal, every NaN equals every NaN and is greater than all else, and equal doubles feed
the same words to a hasher. -/
structure TotalOrder.Lawful (order : TotalOrder) : Prop where
  lt_iff (x y : Float) : order.compare x y = .lt ↔ x < y ∨ x.isNaN = false ∧ y.isNaN = true
  gt_iff (x y : Float) : order.compare x y = .gt ↔ y < x ∨ y.isNaN = false ∧ x.isNaN = true
  same_iff (x y : Float) :
    order.same x y = true ↔ (x == y) = true ∨ x.isNaN = true ∧ y.isNaN = true
  feed_eq (x y : Float) : order.same x y = true → order.feed x = order.feed y

variable {order : TotalOrder}

theorem TotalOrder.Lawful.compare_eq (ho : order.Lawful) (x y : Float) :
    order.compare x y = Ord.compare (rank x) (rank y) := by
  have hlt := ho.lt_iff x y
  have hgt := ho.gt_iff x y
  rw [← rank_lt_iff] at hlt hgt
  cases h : order.compare x y with
  | lt => rw [compare_lt_iff_lt.2 (hlt.1 h)]
  | gt => rw [compare_gt_iff_gt.2 (hgt.1 h)]
  | eq =>
    rw [h] at hlt hgt
    have hge : rank y ≤ rank x := not_lt.1 fun hlt' => by cases hlt.2 hlt'
    have hle : rank x ≤ rank y := not_lt.1 fun hgt' => by cases hgt.2 hgt'
    rw [compare_eq_iff_eq.2 (le_antisymm hle hge)]

theorem TotalOrder.Lawful.same_iff_rank (ho : order.Lawful) (x y : Float) :
    order.same x y = true ↔ rank x = rank y := by
  rw [ho.same_iff, rank_eq_iff]

/-! ### The standard implementation -/

theorem compareTotal_eq (x y : Float) : compareTotal x y = compare (rank x) (rank y) := by
  unfold compareTotal
  cases hx : x.isNaN with
  | true =>
    cases hy : y.isNaN with
    | true =>
      rw [rank_of_isNaN hx, rank_of_isNaN hy, compare_eq_iff_eq.2 rfl]
      rfl
    | false =>
      rw [compare_gt_iff_gt.2 (rank_lt_of_isNaN hy hx)]
      rfl
  | false =>
    cases hy : y.isNaN with
    | true =>
      rw [compare_lt_iff_lt.2 (rank_lt_of_isNaN hx hy)]
      rfl
    | false =>
      have hlt := lt_iff_rank hx hy
      have hgt := lt_iff_rank hy hx
      rw [if_neg Bool.false_ne_true, if_neg Bool.false_ne_true]
      rcases lt_trichotomy (rank x) (rank y) with h | h | h
      · rw [if_pos (hlt.2 h), compare_lt_iff_lt.2 h]
      · rw [if_neg (mt hlt.1 h.not_lt), if_neg (mt hgt.1 h.not_gt), compare_eq_iff_eq.2 h]
      · rw [if_neg (mt hlt.1 h.not_gt), if_pos (hgt.2 h), compare_gt_iff_gt.2 h]

theorem key_eq (h : Same x y) : key x = key y := by
  rcases h with rfl | ⟨hx, hy⟩
  · rfl
  · unfold key
    rw [isNaN_of_isFinite hx.finite, isNaN_of_isFinite hy.finite, hx.beq_zero_iff.2 rfl,
      hy.beq_zero_iff.2 rfl]
    rfl

/-- **The standard implementation keeps the promise.** -/
theorem TotalOrder.lawful_standard : TotalOrder.standard.Lawful where
  lt_iff x y := by
    rw [← rank_lt_iff, ← compare_lt_iff_lt, ← compareTotal_eq]
    rfl
  gt_iff x y := by
    rw [← rank_lt_iff, ← compare_gt_iff_gt, ← compareTotal_eq]
    rfl
  same_iff x y := by
    show sameTotal x y = true ↔ _
    unfold sameTotal
    cases hx : x.isNaN with
    | true =>
      rw [beq_iff_same, hx]
      simp
    | false => simp
  feed_eq x y h := by
    show [key x] = [key y]
    rw [key_eq (sameTotal_iff.1 h)]

end Calculator.Double
