import Calculator.Proofs.Doubles.Integral

/-!
# Exact arithmetic

Where the exact result of an operation is a double, the operation gives it: nothing is rounded.

* `HasValue x q`: the finite double `x` stands for the number `q`; both zeros stand for `0`;
* `Representable q`: some double stands for `q`, for instance for every integer up to `2 ^ 53`
  (`representable_int`), also in another unit (`representable_scaled`);
* `hasValue_nearest`: the double nearest to such a number stands for it;
* `HasValue.add`, `HasValue.sub`, `HasValue.mul`, `HasValue.mulAdd`, `HasValue.div`,
  `HasValue.remainder_scaled`: so do the results of the operations;
* `HasValue.exists_scaled`: large doubles are whole numbers of a unit;
* `RoundedFrom x s q`: `x` is rounded from `±q`, like every product and quotient (`roundedFrom_mul`,
  `roundedFrom_div`).
-/

namespace Calculator.Double

open Float.Model (UnpackedFloat Format totalExponent)
open Float.Model.UnpackedFloat

variable {x y z : Float} {s t : Sign} {m n : Nat} {e f : Int} {hm : 0 < m} {p q r : ℚ}
  {a : Accuracy}

/-! ### Signs -/

theorem apply_eq (s : Sign) (n : Int) : s.apply n = s.apply 1 * n := by
  cases s with
  | positive => exact (Int.one_mul n).symm
  | negative => exact Int.neg_eq_neg_one_mul n

theorem apply_mul_eq (s : Sign) (n : Nat) (e : Int) :
    ((s.apply n : Int) : ℚ) * 2 ^ e = s.apply 1 * (n * 2 ^ e) := by
  rw [apply_eq, Int.cast_mul, Int.cast_natCast, mul_assoc]

theorem apply_positive_mul (q : ℚ) : ((Sign.apply .positive 1 : Int) : ℚ) * q = q := by
  rw [show Sign.apply .positive 1 = 1 from rfl, Int.cast_one, one_mul]

theorem apply_negative_mul (q : ℚ) : ((Sign.apply .negative 1 : Int) : ℚ) * q = -q := by
  rw [show Sign.apply .negative 1 = -1 from rfl, Int.cast_neg, Int.cast_one, neg_one_mul]

theorem apply_neg (s : Sign) (k : Int) : (-s).apply k = -s.apply k := by
  cases s with
  | positive => rfl
  | negative => exact (Int.neg_neg k).symm

theorem abs_apply_one (s : Sign) : |((s.apply 1 : Int) : ℚ)| = 1 := by
  cases s <;> simp [Sign.apply]

theorem apply_one_mul (s t : Sign) : (s * t).apply 1 = s.apply 1 * t.apply 1 := by
  cases s <;> cases t <;> rfl

theorem apply_one_div (s t : Sign) :
    (((s / t).apply 1 : Int) : ℚ) = (s.apply 1 : Int) / (t.apply 1 : Int) := by
  have hdiv : (s / t).apply 1 = s.apply 1 * t.apply 1 := by cases s <;> cases t <;> rfl
  have hunit : ((t.apply 1 : Int) : ℚ) * (t.apply 1 : Int) = 1 := by
    rw [← Int.cast_mul]
    cases t <;> exact Int.cast_one
  rw [hdiv, Int.cast_mul, eq_div_iff (left_ne_zero_of_mul_eq_one hunit), mul_assoc, hunit, mul_one]

theorem exists_apply {n : Int} (h : n ≠ 0) : ∃ (s : Sign) (k : Nat), 0 < k ∧ n = s.apply k := by
  rcases Int.lt_or_gt_of_ne h with hneg | hpos
  · exact ⟨.negative, n.natAbs, by omega, by show n = -(n.natAbs : Int); omega⟩
  · exact ⟨.positive, n.natAbs, by omega, by show n = (n.natAbs : Int); omega⟩

/-! ### The value of a double -/

/-- **A finite double that stands for `q`.** -/
structure HasValue (x : Float) (q : ℚ) : Prop where
  finite : x.isFinite = true
  value : exact x = q

theorem HasValue.checked_eq (h : HasValue x q) : checked x = .ok x := if_pos h.finite

theorem hasValue_zero (h : parts x = .zero s) : HasValue x 0 := by
  refine ⟨?_, ?_⟩
  · rw [isFinite_eq, h]
    rfl
  · unfold exact
    rw [h]

theorem hasValue_finite (h : parts x = .finite s m e hm) :
    HasValue x (s.apply 1 * (m * 2 ^ e)) := by
  refine ⟨?_, ?_⟩
  · rw [isFinite_eq, h]
    rfl
  · rw [exact_of_parts h, apply_mul_eq]

theorem hasValue_positive (h : parts x = .finite .positive m e hm) : HasValue x (m * 2 ^ e) := by
  have hvalue := hasValue_finite h
  rwa [apply_positive_mul] at hvalue

theorem HasValue.cases (h : HasValue x q) : (∃ s, parts x = .zero s ∧ q = 0) ∨
    ∃ s m e hm, parts x = .finite s m e hm ∧ q = s.apply 1 * (m * 2 ^ e) := by
  obtain ⟨hfinite, hvalue⟩ := h
  rw [isFinite_eq] at hfinite
  cases hx : parts x with
  | notANumber => rw [hx] at hfinite; cases hfinite
  | infinity s => rw [hx] at hfinite; cases hfinite
  | zero s =>
    refine .inl ⟨s, rfl, ?_⟩
    rw [← hvalue, (hasValue_zero hx).value]
  | finite s m e hm =>
    refine .inr ⟨s, m, e, hm, rfl, ?_⟩
    rw [← hvalue, (hasValue_finite hx).value]

theorem ne_zero_of_parts (hq : q = s.apply 1 * (m * 2 ^ e)) (hm : 0 < m) : q ≠ 0 := by
  have hm : (m : ℚ) ≠ 0 := by exact_mod_cast hm.ne'
  have hs : ((s.apply 1 : Int) : ℚ) ≠ 0 := abs_ne_zero.1 (by rw [abs_apply_one]; exact one_ne_zero)
  rw [hq]
  positivity

theorem HasValue.exists_zero (h : HasValue x 0) : ∃ s, parts x = .zero s := by
  rcases h.cases with ⟨s, hx, -⟩ | ⟨s, m, e, hm, -, hzero⟩
  · exact ⟨s, hx⟩
  · exact absurd rfl (ne_zero_of_parts hzero hm)

theorem HasValue.beq_zero_iff (h : HasValue x q) : (x == 0.0) = true ↔ q = 0 := by
  show (parts x).beq (.zero .positive) = true ↔ _
  rcases h.cases with ⟨s, hx, hq⟩ | ⟨s, m, e, hm, hx, hq⟩
  · rw [hx]
    exact iff_of_true rfl hq
  · rw [hx]
    refine iff_of_false ?_ (ne_zero_of_parts hq hm)
    cases s <;> exact Bool.false_ne_true

theorem parts_ofParts_zero (s : Sign) : parts (ofParts (.zero s)) = .zero s := by
  cases s <;> rfl

/-! ### Representable numbers -/

/-- **The numbers that doubles stand for.** -/
def Representable (q : ℚ) : Prop := q = 0 ∨ ∃ m e, Canonical m e ∧ |q| = m * 2 ^ e

/-- **Every integer up to `2 ^ 53` is representable**, in every unit that is not too small or too
large. -/
theorem representable_scaled {n : Int} (h : n.natAbs ≤ 2 ^ 53) (hlow : -1022 ≤ f)
    (hhigh : f ≤ 970) : Representable (n * 2 ^ f) := by
  rcases Nat.eq_zero_or_pos n.natAbs with hzero | hpos
  · left
    rw [Int.natAbs_eq_zero.1 hzero, Int.cast_zero, zero_mul]
  · right
    have hunit : (0 : ℚ) < 2 ^ f := by positivity
    have habs : |(n : ℚ) * 2 ^ f| = n.natAbs * 2 ^ f := by
      rw [abs_mul, abs_of_pos hunit, Nat.cast_natAbs, Int.cast_abs]
    rw [habs]
    generalize n.natAbs = k at h hpos
    rcases Nat.lt_or_eq_of_le h with hlt | rfl
    · have hlog : k.log2 ≤ 52 := by
        have := (Nat.log2_lt hpos.ne').2 hlt
        omega
      have hc := canonical_shiftLeft hpos hlog
      refine ⟨k <<< (52 - k.log2), (k.log2 : Int) - 52 + f, ⟨hc.pos, hc.lt, by omega, by omega,
        fun _ => hc.full (by omega)⟩, ?_⟩
      have hsum : (2 : ℚ) ^ (52 - k.log2) * 2 ^ ((k.log2 : Int) - 52) = 1 := by
        rw [← zpow_natCast, ← zpow_add₀ two_ne_zero, Nat.cast_sub hlog]
        norm_num
      rw [Nat.shiftLeft_eq, Nat.cast_mul, Nat.cast_pow, Nat.cast_ofNat, zpow_add₀ two_ne_zero,
        ← mul_assoc, mul_assoc (k : ℚ), hsum, mul_one]
    · -- The limit itself has one bit more, but ends with a zero.
      refine ⟨2 ^ 52, f + 1, ⟨by decide, by decide, by omega, by omega, fun _ => le_rfl⟩, ?_⟩
      rw [zpow_add_one₀ two_ne_zero]
      push_cast
      ring

theorem representable_int {n : Int} (h : n.natAbs ≤ 2 ^ 53) : Representable n := by
  have hscaled := representable_scaled h (f := 0) (by decide) (by decide)
  rwa [zpow_zero, mul_one] at hscaled

theorem representable_nat (h : n ≤ 2 ^ 53) : Representable n := by
  have hint := representable_int (n := n) (by omega)
  rwa [Int.cast_natCast] at hint

/-! ### Rounding representable numbers -/

/-- **A representable number is not rounded.** -/
theorem roundWithAccuracy_of_canonical (s : Sign) (hc : Canonical m e)
    (h : Placed n a (m * 2 ^ e / 2 ^ f))
    (hf : f ≤ Format.binary64.targetExponent (totalExponent n f)) :
    roundWithAccuracy .binary64 s n f a = .finite s m e hc.pos := by
  obtain ⟨t, r, hscale, hr, hround⟩ := exists_roundWithAccuracy s h hf
  rw [hround, carried_of_canonical hc hscale hr]

theorem hasValue_ofParts (hc : Canonical m e) (s : Sign) :
    HasValue (ofParts (.finite s m e hc.pos)) (s.apply 1 * (m * 2 ^ e)) :=
  hasValue_finite (parts_ofParts_finite hc s)

/-- **`x` is a rounded mantissa with the sign `s`**, which is placed at the number `q`. -/
def RoundedFrom (x : Float) (s : Sign) (q : ℚ) : Prop :=
  ∃ n f a, x = ofParts (roundWithAccuracy .binary64 s n f a) ∧ Placed n a (q / 2 ^ f) ∧
    f ≤ Format.binary64.targetExponent (totalExponent n f)

theorem RoundedFrom.hasValue (h : RoundedFrom x s q) (hq : Representable (s.apply 1 * q))
    (hpos : 0 < q) : HasValue x (s.apply 1 * q) := by
  obtain ⟨n, f, a, rfl, hplaced, hf⟩ := h
  have habs : |(s.apply 1 : Int) * q| = q := by
    rw [abs_mul, abs_apply_one, one_mul, abs_of_pos hpos]
  rcases hq with hzero | ⟨m, e, hc, hvalue⟩
  · rw [hzero, abs_zero] at habs
    exact absurd habs hpos.ne
  · rw [habs] at hvalue
    subst hvalue
    rw [roundWithAccuracy_of_canonical s hc hplaced hf]
    exact hasValue_ofParts hc s

/-- Before a number is rounded its exponent is decreased, which leaves the value. -/
theorem roundedFrom_round (s : Sign) (hn : 0 < n) (f : Int) :
    RoundedFrom (ofParts (UnpackedFloat.round .binary64 s n f)) s (n * 2 ^ f) := by
  obtain ⟨t, ht⟩ : ∃ t, Format.binary64.targetExponent (totalExponent n f) = t := ⟨_, rfl⟩
  obtain ⟨j, hj⟩ : ∃ j : Nat, (f - t).toNat = j := ⟨_, rfl⟩
  have hround : UnpackedFloat.round .binary64 s n f =
      roundWithAccuracy .binary64 s (n <<< j) (f - j) .exact := by
    unfold UnpackedFloat.round decreaseExponent
    simp only [ht, hj]
  rw [hround]
  refine ⟨_, _, _, rfl, ?_, ?_⟩
  · show _ = _
    rw [Nat.shiftLeft_eq, zpow_sub₀ two_ne_zero, zpow_natCast]
    push_cast
    field_simp
  · rw [targetExponent_eq, totalExponent] at ht
    rw [targetExponent_eq, totalExponent, log2_shiftLeft hn]
    omega

/-- **The double nearest to a representable number stands for it.** -/
theorem hasValue_nearest {n : Int} (hq : Representable (n * 2 ^ f)) (z : Sign) :
    HasValue (nearest n f z) (n * 2 ^ f) := by
  by_cases hzero : n = 0
  · subst hzero
    have hz : UnpackedFloat.normalize .binary64 0 f z = .zero z := rfl
    rw [Int.cast_zero, zero_mul]
    unfold nearest
    rw [hz]
    exact hasValue_zero (parts_ofParts_zero z)
  · obtain ⟨s, k, hk, rfl⟩ := exists_apply hzero
    rw [apply_mul_eq] at hq ⊢
    unfold nearest
    rw [normalize_apply hk]
    exact (roundedFrom_round s hk f).hasValue hq (by positivity)

theorem hasValue_ofInt {n : Int} (h : n.natAbs ≤ 2 ^ 53) : HasValue (ofInt n) n := by
  have hvalue : (n : ℚ) * 2 ^ (0 : Int) = n := by rw [zpow_zero, mul_one]
  have hnearest := hasValue_nearest (f := 0) (hvalue ▸ representable_int h) .positive
  rwa [hvalue] at hnearest

theorem hasValue_ofNat (h : n ≤ 2 ^ 53) : HasValue (ofNat n) n := by
  have hvalue := hasValue_ofInt (n := n) (by omega)
  rwa [Int.cast_natCast] at hvalue

/-! ### Operations -/

theorem HasValue.neg (h : HasValue x q) : HasValue (-x) (-q) := by
  refine ⟨(isFinite_neg x).trans h.finite, ?_⟩
  rcases h.cases with ⟨s, hx, rfl⟩ | ⟨s, m, e, hm, hx, -⟩
  · have hneg : parts (-x) = .zero (-s) := by
      show parts (ofParts (parts x).neg) = _
      rw [hx]
      cases s <;> rfl
    rw [(hasValue_zero hneg).value, neg_zero]
  · rw [exact_neg hx, h.value]

theorem HasValue.abs (h : HasValue x q) : HasValue x.abs |q| := by
  rcases h.cases with ⟨s, hx, rfl⟩ | ⟨s, m, e, hm, hx, rfl⟩
  · have habs : parts x.abs = .zero .positive := by
      show parts (ofParts (parts x).abs) = _
      rw [hx]
      cases s <;> rfl
    rw [abs_zero]
    exact hasValue_zero habs
  · have hpos : (0 : ℚ) ≤ m * 2 ^ e := by positivity
    have habs := hasValue_finite (parts_abs hx)
    rwa [apply_positive_mul, ← abs_of_nonneg hpos, ← one_mul |_|, ← abs_apply_one s,
      ← abs_mul] at habs

theorem decreaseExponent_mul (n : Nat) (h : f ≤ e) :
    (((decreaseExponent n e f).1 : Nat) : ℚ) * 2 ^ f = n * 2 ^ e := by
  have hsum : e = (e - f).toNat + f := by omega
  show ((n <<< (e - f).toNat : Nat) : ℚ) * 2 ^ f = _
  conv_rhs => rw [hsum, zpow_add₀ two_ne_zero, zpow_natCast]
  rw [Nat.shiftLeft_eq]
  push_cast
  ring

theorem mul_twoTo_sub (m : Nat) (h : f ≤ e) :
    ((m * twoTo (e - f) : Nat) : ℚ) * 2 ^ f = m * 2 ^ e := by
  have hshift : m * twoTo (e - f) = (decreaseExponent m e f).1 := (Nat.shiftLeft_eq ..).symm
  rw [hshift, decreaseExponent_mul m h]

/-- **What is added**: two zeros, a zero and another number, or two integers in the same unit. -/
theorem HasValue.add_cases (hx : HasValue x p) (hy : HasValue y q) :
    (p = 0 ∧ q = 0 ∧ HasValue (x + y) 0) ∨ (p = 0 ∧ x + y = y) ∨ (q = 0 ∧ x + y = x) ∨
      ∃ (k : Int) (f : Int), x + y = nearest k f .positive ∧ (k : ℚ) * 2 ^ f = p + q := by
  have hsum : x + y = ofParts (UnpackedFloat.add .binary64 (parts x) (parts y)) := rfl
  rcases hx.cases with ⟨s, hx', rfl⟩ | ⟨s, m, e, hm, hx', rfl⟩
  · rcases hy.cases with ⟨t, hy', rfl⟩ | ⟨t, n, f, hn, hy', -⟩
    · have hzero : ∃ u, parts (x + y) = .zero u := by
        rw [hsum, hx', hy']
        cases s <;> cases t <;> exact ⟨_, rfl⟩
      obtain ⟨u, hu⟩ := hzero
      exact .inl ⟨rfl, rfl, hasValue_zero hu⟩
    · refine .inr (.inl ⟨rfl, ?_⟩)
      rw [hsum, hx', hy', ← ofParts_parts y, hy']
      rfl
  · rcases hy.cases with ⟨t, hy', rfl⟩ | ⟨t, n, f, hn, hy', rfl⟩
    · refine .inr (.inr (.inl ⟨rfl, ?_⟩))
      rw [hsum, hx', hy', ← ofParts_parts x, hx']
      rfl
    · refine .inr (.inr (.inr ⟨s.apply (decreaseExponent m e (min e f)).1 +
        t.apply (decreaseExponent n f (min e f)).1, min e f, by rw [hsum, hx', hy']; rfl, ?_⟩))
      rw [Int.cast_add, add_mul, apply_mul_eq, apply_mul_eq,
        decreaseExponent_mul m (min_le_left e f), decreaseExponent_mul n (min_le_right e f)]

theorem HasValue.add (hx : HasValue x p) (hy : HasValue y q) (h : Representable (p + q)) :
    HasValue (x + y) (p + q) := by
  rcases hx.add_cases hy with ⟨rfl, rfl, hzero⟩ | ⟨rfl, hright⟩ | ⟨rfl, hleft⟩ | ⟨k, f, hk, hvalue⟩
  · rwa [zero_add]
  · rwa [hright, zero_add]
  · rwa [hleft, add_zero]
  · rw [hk, ← hvalue]
    rw [← hvalue] at h
    exact hasValue_nearest h .positive

theorem sub_eq_add (x y : Float) : x - y = x + -y := by
  show ofParts (UnpackedFloat.sub .binary64 (parts x) (parts y)) =
    ofParts (UnpackedFloat.add .binary64 (parts x) (parts (-y)))
  rw [parts_neg]
  congr 1
  cases parts x with
  | notANumber => rfl
  | infinity s =>
    cases parts y with
    | notANumber | infinity | zero | finite => rfl
  | zero s =>
    cases parts y with
    | notANumber | infinity | zero | finite => rfl
  | finite s m e hm =>
    cases parts y with
    | notANumber | infinity | zero => rfl
    | finite t n f hn =>
      show UnpackedFloat.normalize _ (_ - _) _ _ = UnpackedFloat.normalize _ (_ + (-t).apply _) _ _
      rw [apply_neg, Int.sub_eq_add_neg]

theorem HasValue.sub (hx : HasValue x p) (hy : HasValue y q) (h : Representable (p - q)) :
    HasValue (x - y) (p - q) := by
  rw [sub_eq_add_neg] at h ⊢
  rw [sub_eq_add]
  exact hx.add hy.neg h

/-- A canonical mantissa has all bits of a double, unless its exponent is the least. -/
theorem Canonical.le_target (hc : Canonical m e) (hd : Canonical n f) :
    e + f ≤ Format.binary64.targetExponent (totalExponent (m * n) (e + f)) := by
  have hpos := Nat.mul_pos hc.pos hd.pos
  have hlog (h : 2 ^ 52 ≤ m * n) : 52 ≤ (m * n).log2 := (Nat.le_log2 hpos.ne').2 h
  rw [targetExponent_eq, totalExponent]
  by_cases he : e = -1074
  · by_cases hf : f = -1074
    · omega
    · have := hlog ((hd.full hf).trans (Nat.le_mul_of_pos_left n hc.pos))
      omega
  · have := hlog ((hc.full he).trans (Nat.le_mul_of_pos_right m hd.pos))
    omega

theorem roundedFrom_mul (hx : parts x = .finite s m e hm) (hy : parts y = .finite t n f hn) :
    RoundedFrom (x * y) (s * t) (m * 2 ^ e * (n * 2 ^ f)) := by
  have hproduct : x * y = ofParts (UnpackedFloat.mul .binary64 (parts x) (parts y)) := rfl
  rw [hproduct, hx, hy]
  refine ⟨m * n, e + f, .exact, rfl, ?_, (canonical_of_parts hx).le_target (canonical_of_parts hy)⟩
  show _ = _
  rw [mul_mul_mul_comm, ← Nat.cast_mul, ← zpow_add₀ two_ne_zero, mul_div_cancel_right₀]
  positivity

theorem HasValue.mul (hx : HasValue x p) (hy : HasValue y q) (h : Representable (p * q)) :
    HasValue (x * y) (p * q) := by
  have hproduct : x * y = ofParts (UnpackedFloat.mul .binary64 (parts x) (parts y)) := rfl
  rcases hx.cases with ⟨s, hx', rfl⟩ | ⟨s, m, e, hm, hx', rfl⟩
  · rw [zero_mul, hproduct, hx']
    rcases hy.cases with ⟨t, hy', -⟩ | ⟨t, n, f, hn, hy', -⟩
    · rw [hy']
      exact hasValue_zero (parts_ofParts_zero (s * t))
    · rw [hy']
      exact hasValue_zero (parts_ofParts_zero (s * t))
  · rcases hy.cases with ⟨t, hy', rfl⟩ | ⟨t, n, f, hn, hy', rfl⟩
    · rw [mul_zero, hproduct, hx', hy']
      exact hasValue_zero (parts_ofParts_zero (s * t))
    · have hvalue : ((s.apply 1 : Int) : ℚ) * (m * 2 ^ e) * ((t.apply 1 : Int) * (n * 2 ^ f)) =
          ((s * t).apply 1 : Int) * (m * 2 ^ e * (n * 2 ^ f)) := by
        rw [apply_one_mul, Int.cast_mul, mul_mul_mul_comm]
      rw [hvalue] at h ⊢
      exact (roundedFrom_mul hx' hy').hasValue h (by positivity)

/-- **What is added to a product without rounding it**: nothing, anything to a product that is zero,
or an integer to another in the same unit. -/
theorem HasValue.mulAdd_cases (hx : HasValue x p) (hy : HasValue y q) (hz : HasValue z r) :
    (r = 0 ∧ mulAdd x y z = x * y) ∨ (p * q = 0 ∧ mulAdd x y z = x * y + z) ∨
      ∃ (k : Int) (f : Int), mulAdd x y z = nearest k f .positive ∧ (k : ℚ) * 2 ^ f = p * q + r := by
  unfold mulAdd
  rcases hx.cases with ⟨s, hx', rfl⟩ | ⟨s, m, e, hm, hx', rfl⟩
  · rw [hx']
    exact .inr (.inl ⟨zero_mul q, rfl⟩)
  · rcases hy.cases with ⟨t, hy', rfl⟩ | ⟨t, n, f, hn, hy', rfl⟩
    · rw [hx', hy']
      exact .inr (.inl ⟨mul_zero _, rfl⟩)
    · rcases hz.cases with ⟨u, hz', rfl⟩ | ⟨u, k, g, hk, hz', rfl⟩
      · rw [hx', hy', hz']
        exact .inl ⟨rfl, rfl⟩
      · rw [hx', hy', hz']
        refine .inr (.inr ⟨_, min (e + f) g, rfl, ?_⟩)
        rw [Int.cast_add, add_mul, apply_mul_eq, apply_mul_eq,
          mul_twoTo_sub (m * n) (min_le_left (e + f) g), mul_twoTo_sub k (min_le_right (e + f) g),
          apply_one_mul, zpow_add₀ two_ne_zero]
        push_cast
        ring

theorem HasValue.mulAdd (hx : HasValue x p) (hy : HasValue y q) (hz : HasValue z r)
    (h : Representable (p * q + r)) : HasValue (mulAdd x y z) (p * q + r) := by
  rcases hx.mulAdd_cases hy hz with ⟨rfl, hmul⟩ | ⟨hzero, hadd⟩ | ⟨k, f, hk, hvalue⟩
  · rw [add_zero] at h ⊢
    rw [hmul]
    exact hx.mul hy h
  · have hproduct := hx.mul hy (.inl hzero)
    rw [hadd]
    exact hproduct.add hz h
  · rw [hk, ← hvalue]
    rw [← hvalue] at h
    exact hasValue_nearest h .positive

theorem roundedFrom_div (hx : parts x = .finite s m e hm) (hy : parts y = .finite t n f hn) :
    RoundedFrom (x / y) (s / t) (m * 2 ^ e / (n * 2 ^ f)) := by
  have hquotient : x / y = ofParts (UnpackedFloat.div .binary64 (parts x) (parts y)) := rfl
  obtain ⟨k, g, a, hcore, hplaced, hle⟩ := exists_divCore hm.ne' hn e f
  rw [hquotient, hx, hy, div_of_divCore hcore]
  exact ⟨k, g, a, rfl, hplaced, hle⟩

theorem HasValue.div (hx : HasValue x p) (hy : HasValue y q) (hq : q ≠ 0)
    (h : Representable (p / q)) : HasValue (x / y) (p / q) := by
  rcases hy.cases with ⟨t, -, hzero⟩ | ⟨t, n, f, hn, hy', rfl⟩
  · exact absurd hzero hq
  · rcases hx.cases with ⟨s, hx', rfl⟩ | ⟨s, m, e, hm, hx', rfl⟩
    · have hquotient : x / y = ofParts (UnpackedFloat.div .binary64 (parts x) (parts y)) := rfl
      rw [zero_div, hquotient, hx', hy']
      exact hasValue_zero (parts_ofParts_zero (s / t))
    · have hvalue : ((s.apply 1 : Int) : ℚ) * (m * 2 ^ e) / ((t.apply 1 : Int) * (n * 2 ^ f)) =
          ((s / t).apply 1 : Int) * (m * 2 ^ e / (n * 2 ^ f)) := by
        rw [apply_one_div, mul_div_mul_comm]
      rw [hvalue] at h ⊢
      exact (roundedFrom_div hx' hy').hasValue h (by positivity)

/-! ### Remainders -/

theorem mod_of_unit_le {a b : Nat} (h : f ≤ e) (hm : (m : ℚ) * 2 ^ e = a * 2 ^ f)
    (hn : (n : ℚ) * 2 ^ e = b * 2 ^ f) :
    ((m % n : Nat) : ℚ) * 2 ^ e = (a % b : Nat) * 2 ^ f := by
  have hunit : (2 : ℚ) ^ f ≠ 0 := by positivity
  rw [← mul_twoTo_sub _ h] at hm hn ⊢
  rw [← Nat.cast_injective (mul_right_cancel₀ hunit hm),
    ← Nat.cast_injective (mul_right_cancel₀ hunit hn), Nat.mul_mod_mul_right]

theorem mod_of_unit {a b : Nat} (hm : (m : ℚ) * 2 ^ e = a * 2 ^ f)
    (hn : (n : ℚ) * 2 ^ e = b * 2 ^ f) :
    ((m % n : Nat) : ℚ) * 2 ^ e = (a % b : Nat) * 2 ^ f :=
  (le_total f e).elim (fun h => mod_of_unit_le h hm hn)
    fun h => (mod_of_unit_le h hm.symm hn.symm).symm

theorem apply_tmod (s : Sign) (k : Nat) (b : Int) :
    (s.apply k).tmod b = s.apply (k % b.natAbs : Nat) := by
  have hpositive : (k : Int).tmod b = (k % b.natAbs : Nat) := by
    rcases Int.natAbs_eq b with hb | hb
    · rw [hb, Int.natAbs_natCast, Int.ofNat_tmod]
    · rw [hb, Int.tmod_neg, Int.natAbs_neg, Int.natAbs_natCast, Int.ofNat_tmod]
  cases s with
  | positive => exact hpositive
  | negative =>
    show (-(k : Int)).tmod b = -((k % b.natAbs : Nat) : Int)
    rw [Int.neg_tmod, hpositive]

theorem natAbs_of_scaled {a : Int} (h : (a : ℚ) * 2 ^ f = s.apply 1 * (m * 2 ^ e)) :
    (m : ℚ) * 2 ^ e = a.natAbs * 2 ^ f ∧ a = s.apply a.natAbs := by
  have hpos : (0 : ℚ) ≤ m * 2 ^ e := by positivity
  have hunit : (0 : ℚ) < 2 ^ f := by positivity
  have habs : (m : ℚ) * 2 ^ e = a.natAbs * 2 ^ f := by
    have h' : |(a : ℚ) * 2 ^ f| = |((s.apply 1 : Int) : ℚ) * (m * 2 ^ e)| := by
      rw [h]
    rwa [abs_mul, abs_mul, abs_apply_one, one_mul, abs_of_pos hunit, abs_of_nonneg hpos,
      ← Int.cast_abs, ← Nat.cast_natAbs, eq_comm] at h'
  refine ⟨habs, ?_⟩
  rw [habs, ← mul_assoc, ← Int.cast_natCast, ← Int.cast_mul, ← apply_eq] at h
  exact Int.cast_injective (mul_right_cancel₀ hunit.ne' h)

theorem natAbs_of_value {a : Int} (h : (a : ℚ) = s.apply 1 * (m * 2 ^ e)) :
    (m : ℚ) * 2 ^ e = a.natAbs ∧ a = s.apply a.natAbs := by
  have hone (k : ℚ) : k = k * 2 ^ (0 : Int) := by rw [zpow_zero, mul_one]
  rw [hone (a : ℚ)] at h
  rw [hone (a.natAbs : ℚ)]
  exact natAbs_of_scaled h

/-- **The remainder of whole numbers of a unit is exact**, with the sign of the dividend. -/
theorem HasValue.remainder_scaled {a b u : Int} (hx : HasValue x (a * 2 ^ u))
    (hy : HasValue y (b * 2 ^ u)) (hb : b ≠ 0) (h : Representable ((a.tmod b : Int) * 2 ^ u)) :
    HasValue (remainder x y) ((a.tmod b : Int) * 2 ^ u) := by
  have hunit : (2 : ℚ) ^ u ≠ 0 := by positivity
  unfold Double.remainder
  rcases hy.cases with ⟨t, -, hzero⟩ | ⟨t, n, f, hn, hy', hb'⟩
  · exact absurd (by exact_mod_cast (mul_eq_zero.1 hzero).resolve_right hunit) hb
  · rcases hx.cases with ⟨s, hx', hzero⟩ | ⟨s, m, e, hm, hx', ha'⟩
    · obtain rfl : a = 0 := by exact_mod_cast (mul_eq_zero.1 hzero).resolve_right hunit
      rw [hx', hy', Int.zero_tmod]
      exact hx
    · obtain ⟨hm', ha⟩ := natAbs_of_scaled ha'
      obtain ⟨hn', -⟩ := natAbs_of_scaled hb'
      rw [← mul_twoTo_sub m (min_le_left e f)] at hm'
      rw [← mul_twoTo_sub n (min_le_right e f)] at hn'
      have hvalue : ((s.apply (m * twoTo (e - min e f) % (n * twoTo (f - min e f)) : Nat) : Int) :
          ℚ) * 2 ^ min e f = (a.tmod b : Int) * 2 ^ u := by
        rw [apply_mul_eq, mod_of_unit hm' hn']
        conv_rhs => rw [ha, apply_tmod, apply_mul_eq]
      rw [hx', hy', ← hvalue]
      rw [← hvalue] at h
      exact hasValue_nearest h s

theorem HasValue.remainder {a b : Int} (hx : HasValue x a) (hy : HasValue y b) (hb : b ≠ 0)
    (h : Representable (a.tmod b : Int)) : HasValue (remainder x y) (a.tmod b : Int) := by
  have hone (k : Int) : (k : ℚ) = k * 2 ^ (0 : Int) := by rw [zpow_zero, mul_one]
  rw [hone] at hx hy h ⊢
  exact hx.remainder_scaled hy hb h

/-- **Large doubles lie on a coarse grid.** -/
theorem HasValue.exists_scaled {u : Int} (hx : HasValue x q) (hq : 2 ^ (u + 52) ≤ |q|) :
    ∃ a : Int, q = a * 2 ^ u := by
  rcases hx.cases with ⟨s, -, rfl⟩ | ⟨s, m, e, hm, hx', rfl⟩
  · exact ⟨0, by rw [Int.cast_zero, zero_mul]⟩
  · have hpos : (0 : ℚ) ≤ m * 2 ^ e := by positivity
    have hmantissa : (m : ℚ) < 2 ^ 53 := by exact_mod_cast (canonical_of_parts hx').lt
    rw [abs_mul, abs_apply_one, one_mul, abs_of_nonneg hpos] at hq
    have hlt : (2 : ℚ) ^ (u + 52) < 2 ^ (e + 53) := by
      calc (2 : ℚ) ^ (u + 52) ≤ m * 2 ^ e := hq
        _ < 2 ^ 53 * 2 ^ e := by gcongr
        _ = 2 ^ (e + 53) := by rw [zpow_add₀ two_ne_zero, mul_comm]; norm_num
    have hle : u ≤ e := by
      have := (zpow_lt_zpow_iff_right₀ one_lt_two).1 hlt
      omega
    refine ⟨s.apply (m * twoTo (e - u) : Nat), ?_⟩
    rw [apply_mul_eq, mul_twoTo_sub m hle]

/-! ### Whole numbers -/

theorem floor_of_whole (h : parts x = .finite s m e hm) (hn : (m : ℚ) * 2 ^ e = n) :
    floor x = trunc x := by
  unfold floor trunc toIntegral
  rw [h]
  show (if 0 ≤ e then x else nearest ((s.apply m).fdiv (twoTo (-e))) 0 s) =
    if 0 ≤ e then x else nearest ((s.apply m).tdiv (twoTo (-e))) 0 s
  by_cases he : 0 ≤ e
  · rw [if_pos he, if_pos he]
  · have hdvd : (twoTo (-e) : Int) ∣ s.apply m := by
      have hm := value_eq_iff.1 hn
      rw [twoTo_of_nonpos (Int.le_of_not_le he), Nat.mul_one] at hm
      rw [apply_eq, hm, Nat.cast_mul, ← mul_assoc]
      exact dvd_mul_left _ _
    rw [if_neg he, if_neg he, Int.fdiv_eq_ediv_of_dvd hdvd, Int.tdiv_eq_ediv_of_dvd hdvd]

theorem HasValue.isIntegral {k : Int} (h : HasValue x k) : isIntegral x = true := by
  have hfloor : (x == floor x) = true := by
    rcases h.cases with ⟨s, hx, -⟩ | ⟨s, m, e, hm, hx, hk⟩
    · have hself : floor x = x := by
        unfold floor toIntegral
        rw [hx]
      rw [hself]
      show (parts x).beq (parts x) = true
      rw [hx]
      rfl
    · obtain ⟨hn, -⟩ := natAbs_of_value hk
      rw [floor_of_whole hx hn]
      exact (eq_trunc_iff hx).2 ⟨_, hn⟩
  unfold Double.isIntegral
  rw [h.finite, hfloor]
  rfl

end Calculator.Double
