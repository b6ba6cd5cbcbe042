import Calculator.Whole
import Calculator.Proofs.Doubles.Exactness

/-!
# Common divisors and multiples are exact

The Euclidean algorithm runs on 64-bit words, and the multiple is a checked product of words. Neither
loses anything: the results are those over the integers, also for the least integer, whose absolute
value is a word but no integer of 64 bits.

* `Runs a b n g`: `n` rounds of the algorithm lead from the words `a` and `b` to `g`;
* `toNat_euclid`: the algorithm gives the greatest common divisor, after at most `b` rounds
  (`exists_runs`);
* `multiple_eq`: the factors that are multiplied give the least common multiple;
* `gcd_lcm_exact`: both functions give the exact integer, or an overflow if it is not safe.
-/

namespace Calculator.Divisor

open Double (HasValue)
open Whole (magnitude maxSafe)

/-! ### The Euclidean algorithm -/

/-- **A run of the Euclidean algorithm**: as long as `b` is not zero, `a` and `b` are replaced by `b`
and the remainder of `a`. -/
inductive Runs : UInt64 → UInt64 → Nat → UInt64 → Prop
  | stop {a : UInt64} : Runs a 0 0 a
  | round {a b g : UInt64} {k : Nat} (hb : b ≠ 0) (h : Runs b (a % b) k g) : Runs a b (k + 1) g

variable {a b g : UInt64} {k : Nat}

theorem mod_lt (hb : b ≠ 0) : (a % b).toNat < b.toNat := by
  rw [UInt64.toNat_mod]
  exact Nat.mod_lt _ (Nat.pos_of_ne_zero fun hzero => hb (UInt64.toNat_inj.1 hzero))

/-- **The algorithm stops**, since the second word gets smaller in every round. -/
theorem exists_runs (a b : UInt64) : ∃ k ≤ b.toNat, Runs a b k (euclid a b) := by
  induction a, b using euclid.induct with
  | case1 a =>
    rw [euclid, if_pos rfl]
    exact ⟨0, Nat.zero_le _, .stop⟩
  | case2 a b hb ih =>
    obtain ⟨k, hk, hruns⟩ := ih
    have hlt : (a % b).toNat < b.toNat := mod_lt hb
    rw [euclid, if_neg hb]
    exact ⟨k + 1, by omega, .round hb hruns⟩

theorem gcd_round (a b : UInt64) : Nat.gcd b.toNat (a % b).toNat = Nat.gcd a.toNat b.toNat := by
  rw [UInt64.toNat_mod, Nat.gcd_comm, ← Nat.gcd_rec, Nat.gcd_comm]

theorem Runs.toNat_eq (h : Runs a b k g) : g.toNat = Nat.gcd a.toNat b.toNat := by
  induction h with
  | stop => exact (Nat.gcd_zero_right _).symm
  | round hb h ih => rw [ih, gcd_round]

/-- **The Euclidean algorithm gives the greatest common divisor.** -/
theorem toNat_euclid (a b : UInt64) : (euclid a b).toNat = Nat.gcd a.toNat b.toNat := by
  obtain ⟨k, -, hruns⟩ := exists_runs a b
  exact hruns.toNat_eq

/-! ### Absolute values -/

/-- **The absolute value of an integer is a word**, also that of the least one. -/
theorem toNat_magnitude (a : Int64) : (magnitude a).toNat = a.toInt.natAbs := by
  have hlow := Int64.le_toInt a
  have hhigh := Int64.toInt_lt a
  exact UInt64.toNat_ofNat_of_lt' (by show a.toInt.natAbs < 2 ^ 64; omega)

theorem toNat_euclid_magnitude (a b : Int64) :
    (euclid (magnitude a) (magnitude b)).toNat = Int.gcd a.toInt b.toInt := by
  rw [toNat_euclid, toNat_magnitude, toNat_magnitude, Int.gcd_eq_natAbs]

theorem toInt_ne_zero {a : Int64} (ha : a ≠ 0) : a.toInt ≠ 0 :=
  fun hzero => ha (Int64.toInt_inj.1 hzero)

theorem euclid_ne_zero {a : Int64} (ha : a ≠ 0) (b : Int64) :
    euclid (magnitude a) (magnitude b) ≠ 0 := by
  intro hzero
  have hgcd := toNat_euclid_magnitude a b
  rw [hzero] at hgcd
  exact toInt_ne_zero ha (Int.gcd_eq_zero_iff.1 hgcd.symm).1

/-- **The product of the factors is the least common multiple.** -/
theorem multiple_eq (a b : Int64) :
    (magnitude a / euclid (magnitude a) (magnitude b)).toNat * (magnitude b).toNat =
      Int.lcm a.toInt b.toInt := by
  rw [UInt64.toNat_div, toNat_euclid, toNat_magnitude, toNat_magnitude, Int.lcm, Nat.lcm,
    Nat.div_mul_right_comm (Nat.gcd_dvd_left ..)]

/-! ### Exact results -/

/-- **The outcome is the number `n`**, as a double that stands for it, or an overflow if `n` is not
safe. -/
structure IsExactly (o : Outcome Float) (n : Nat) : Prop where
  exact : n ≤ maxSafe → o = .ok (Double.ofNat n) ∧ HasValue (Double.ofNat n) n
  overflow : maxSafe < n → o = .error .overflow

theorem hasValue_of_le (h : k ≤ maxSafe) : HasValue (Double.ofNat k) k :=
  Double.hasValue_ofNat (by unfold maxSafe at h; omega)

/-- What is safe fits, and is not refused a second time. -/
theorem toDouble_of_le {n : UInt64} (h : n.toNat ≤ maxSafe) :
    toDouble n = .ok (Double.ofNat n.toNat) := by
  have hmax : maxSafe < 2 ^ 63 := by unfold maxSafe; omega
  have hword : n.toInt64.toInt = n.toNat := by
    have hbmod : n.toInt64.toInt = (n.toNat : ℤ).bmod (2 ^ 64) := n.toBitVec.toInt_eq_toNat_bmod
    rw [hbmod, Int.bmod_eq_of_le (by omega) (by omega)]
  have hfit : Whole.signed n = .ok n.toInt64 :=
    if_pos (by show n.toNat ≤ 2 ^ 63 - 1; omega)
  have hsafe : Whole.toDouble n.toInt64 Fault.overflow = .ok (Double.ofNat n.toNat) := by
    unfold Whole.toDouble
    rw [hword]
    exact if_pos h
  unfold toDouble
  rw [if_neg h.not_gt, hfit]
  exact hsafe

theorem isExactly_toDouble (n : UInt64) : IsExactly (toDouble n) n.toNat :=
  ⟨fun hsafe => ⟨toDouble_of_le hsafe, hasValue_of_le hsafe⟩, fun hlarge => if_pos hlarge⟩

theorem mulChecked_eq (h : a.toNat * b.toNat < 2 ^ 64) :
    ∃ n, mulChecked a b = .ok n ∧ n.toNat = a.toNat * b.toNat := by
  refine ⟨a * b, if_pos h, ?_⟩
  rw [UInt64.toNat_mul, Nat.mod_eq_of_lt h]

theorem isExactly_mulChecked (a b : UInt64) :
    IsExactly (mulChecked a b >>= toDouble) (a.toNat * b.toNat) := by
  by_cases hfit : a.toNat * b.toNat < 2 ^ 64
  · obtain ⟨n, hn, hvalue⟩ := mulChecked_eq hfit
    rw [hn, ← hvalue]
    exact isExactly_toDouble n
  · have herror : mulChecked a b = .error .overflow := if_neg hfit
    rw [herror]
    exact ⟨fun hsafe => absurd hsafe (by unfold maxSafe; omega), fun _ => rfl⟩

theorem isExactly_gcd (a b : Int64) : IsExactly (gcd a b) (Int.gcd a.toInt b.toInt) := by
  rw [← toNat_euclid_magnitude]
  exact isExactly_toDouble _

theorem lcm_eq_zero {a b : Int64} (h : a = 0 ∨ b = 0) : Int.lcm a.toInt b.toInt = 0 := by
  rcases h with rfl | rfl
  · exact Int.lcm_zero_left b.toInt
  · exact Int.lcm_zero_right a.toInt

theorem isExactly_lcm (a b : Int64) : IsExactly (lcm a b) (Int.lcm a.toInt b.toInt) := by
  unfold lcm
  by_cases hzero : a = 0 ∨ b = 0
  · rw [if_pos (by simpa using hzero), lcm_eq_zero hzero]
    exact ⟨fun hsafe => ⟨rfl, hasValue_of_le hsafe⟩, fun hlarge => absurd hlarge (Nat.not_lt_zero _)⟩
  · rw [if_neg (by simpa using hzero), ← multiple_eq]
    exact isExactly_mulChecked _ _

/-- **Common divisors and multiples are exact**, for all integers of 64 bits: the algorithm stops, the
division before the product is by no zero, the product of its factors is the least common multiple
and is taken only if it fits, and both functions give the exact integer, or an overflow if it is not
safe. -/
theorem gcd_lcm_exact (a b : Int64) :
    (∃ k, Runs (magnitude a) (magnitude b) k (euclid (magnitude a) (magnitude b))) ∧
    IsExactly (gcd a b) (Int.gcd a.toInt b.toInt) ∧
    (a ≠ 0 → euclid (magnitude a) (magnitude b) ≠ 0) ∧
    (Int.lcm a.toInt b.toInt < 2 ^ 64 → ∃ n,
      mulChecked (magnitude a / euclid (magnitude a) (magnitude b)) (magnitude b) = .ok n ∧
      n.toNat = Int.lcm a.toInt b.toInt) ∧
    IsExactly (lcm a b) (Int.lcm a.toInt b.toInt) := by
  obtain ⟨k, -, hruns⟩ := exists_runs (magnitude a) (magnitude b)
  refine ⟨⟨k, hruns⟩, isExactly_gcd a b, fun ha => euclid_ne_zero ha b, fun hfit => ?_,
    isExactly_lcm a b⟩
  rw [← multiple_eq] at hfit ⊢
  exact mulChecked_eq hfit

/-- The least integer has a divisor in common with `6`, but no safe multiple. -/
theorem gcd_lcm_exact_least :
    gcd Int64.minValue 6 = .ok 2.0 ∧ lcm Int64.minValue 6 = .error .overflow := by
  obtain ⟨-, hgcd, -, -, hlcm⟩ := gcd_lcm_exact Int64.minValue 6
  exact ⟨(hgcd.exact (by decide)).1, hlcm.overflow (by decide)⟩

end Calculator.Divisor
