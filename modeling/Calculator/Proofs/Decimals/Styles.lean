import Calculator.Proofs.Decimals.Nearest
import Calculator.Proofs.Decimals.Reading

/-!
# The styles of printed numbers

What the two layouts look like, digit by digit, and which number they show.

* `Plain ds`: digits without zeros in front;
* `SignedExponent x t`: the text of an exponent, with no more zeros than it needs for two digits;
* `Trimmed ds kept`: digits without the zeros at their end;
* `Normalized r places lead ds`: the digits of `r` with the point after the first;
* `ScientificText keeps r places t`: `t` shows `r` with `places` digits after the point and an
  exponent (`scientificText`);
* `PositionalText q places t`: `t` shows `q`, rounded to `places` digits after the point, without
  the zeros at the end (`positionalText`).

So `ScientificText Eq` is the style of `%.pe`, and `ScientificText Trimmed` and `PositionalText` are
the two styles of `%.pg`.
-/

namespace Calculator.Decimal

variable {ds es whole fraction kept exponent t : List Char} {lead : Char} {d : Decimal} {x : Int}
  {n places : Nat} {q r : ℚ}

/-! ### Digits -/

/-- **Digits without zeros in front**, and at least one. -/
structure Plain (ds : List Char) : Prop where
  ne_nil : ds ≠ []
  digit : ∀ c ∈ ds, c.isDigit = true
  head : ds.head? = some '0' → ds = ['0']

theorem digitChar_ne_zero (hn : 0 < n) (hlt : n < 10) : n.digitChar ≠ '0' := by
  have hall : ∀ i < 10, 0 < i → i.digitChar ≠ '0' := by decide
  exact hall n hlt hn

theorem head_digits (hn : 0 < n) : (digits n).head? ≠ some '0' := by
  induction n using Nat.strong_induction_on with
  | h n ih =>
    rcases Nat.lt_or_ge n 10 with hlt | hge
    · have hdigits : digits n = [n.digitChar] := Nat.toDigits_of_lt_base hlt
      rw [hdigits, List.head?_cons]
      intro h
      exact digitChar_ne_zero hn hlt (Option.some.inj h)
    · have hdigits : digits n = digits (n / 10) ++ [(n % 10).digitChar] :=
        Nat.toDigits_of_base_le (by decide) hge
      rw [hdigits, List.head?_append_of_ne_nil _ (digits_ne_nil _)]
      exact ih (n / 10) (by omega) (by omega)

theorem plain_digits (n : Nat) : Plain (digits n) := by
  refine ⟨digits_ne_nil n, fun c => isDigit_of_mem_digits, fun h => ?_⟩
  rcases Nat.eq_zero_or_pos n with rfl | hn
  · rfl
  · exact absurd h (head_digits hn)

theorem length_digits (hlow : 10 ^ places ≤ n) (hhigh : n < 10 ^ (places + 1)) :
    (digits n).length = places + 1 := by
  have hle := (length_digits_le_iff (Nat.succ_pos places)).2 hhigh
  have hpos := length_digits_pos n
  by_contra hne
  have hlt : n < 10 ^ places := by
    rcases Nat.eq_zero_or_pos places with rfl | hplaces
    · omega
    · exact (length_digits_le_iff hplaces).1 (by omega)
  omega

theorem padded_cases (width n : Nat) : (padded width n = digits n ∧ width ≤ (digits n).length) ∨
    ∃ k, padded width n = '0' :: (List.replicate k '0' ++ digits n) ∧
      k + 1 + (digits n).length = width := by
  unfold padded
  rcases Nat.lt_or_ge (digits n).length width with hlt | hge
  · obtain ⟨k, hk⟩ : ∃ k, width - (digits n).length = k + 1 :=
      ⟨width - (digits n).length - 1, by omega⟩
    exact Or.inr ⟨k, by simp [hk, List.replicate_succ], by omega⟩
  · exact Or.inl ⟨by simp [Nat.sub_eq_zero_of_le hge], hge⟩

/-! ### Exponents -/

/-- **The text of an exponent**: its sign and at least two digits, with a zero in front only to make
them two. -/
def SignedExponent (x : Int) (t : List Char) : Prop :=
  ∃ ds, t = (if x < 0 then '-' else '+') :: ds ∧ (∀ c ∈ ds, c.isDigit = true) ∧ 2 ≤ ds.length ∧
    (ds.head? = some '0' → ds.length = 2) ∧ ofDigits ds = x.natAbs

theorem signedExponent_exponentText (x : Int) : SignedExponent x (exponentText x) := by
  refine ⟨padded 2 x.natAbs, rfl, fun c => isDigit_of_mem_padded, le_length_padded 2 _, fun h => ?_,
    ofDigits_padded 2 _⟩
  rcases padded_cases 2 x.natAbs with ⟨hpadded, hlen⟩ | ⟨k, hpadded, hlen⟩
  · rw [hpadded] at h
    have hzero := (plain_digits x.natAbs).head h
    rw [hzero] at hlen
    exact absurd hlen (by decide)
  · rw [hpadded]
    simp only [List.length_cons, List.length_append, List.length_replicate]
    omega

/-! ### Zeros at the end -/

/-- **The digits that are kept**: all but the zeros at the end. -/
def Trimmed (ds kept : List Char) : Prop :=
  (∃ k, ds = kept ++ List.replicate k '0') ∧ kept.getLast? ≠ some '0'

theorem trimmed_trimZeros (ds : List Char) : Trimmed ds (trimZeros ds) := by
  refine ⟨keepsValue_trimZeros ds, ?_⟩
  have hhead := List.head?_dropWhile_not (· == '0') ds.reverse
  unfold trimZeros
  rw [List.getLast?_reverse]
  intro h
  rw [h] at hhead
  cases hhead

/-! ### The scientific style -/

/-- **The digits of `r`**, with the point after the first one and `places` digits behind it. -/
structure Normalized (r : ℚ) (places : Nat) (lead : Char) (fraction : List Char) : Prop where
  digit : ∀ c ∈ lead :: fraction, c.isDigit = true
  ne_zero : lead ≠ '0'
  length : fraction.length = places
  value : r = ofDigits (lead :: fraction) * 10 ^ (Int.log 10 r - places)

/-- **The text shows `r` in scientific style**: one digit, those of the `places` digits after the
point that are kept, and the exponent. -/
def ScientificText (keeps : List Char → List Char → Prop) (r : ℚ) (places : Nat)
    (t : List Char) : Prop :=
  ∃ lead fraction kept exponent, Normalized r places lead fraction ∧ keeps fraction kept ∧
    SignedExponent (Int.log 10 r) exponent ∧ t = pointed [lead] kept ++ 'e' :: exponent

section Full

variable (hlow : 10 ^ places ≤ d.coefficient) (hhigh : d.coefficient < 10 ^ (places + 1))
include hlow hhigh

theorem log_value : Int.log 10 d.value = d.exponent + places := by
  have hpos : (0 : ℚ) < 10 ^ d.exponent := by positivity
  have hlow : (10 : ℚ) ^ places ≤ d.coefficient := by exact_mod_cast hlow
  have hhigh : (d.coefficient : ℚ) < 10 ^ (places + 1) := by exact_mod_cast hhigh
  refine log_eq ?_ ?_
  · rw [add_comm, zpow_add₀ (by norm_num), zpow_natCast]
    exact mul_le_mul_of_nonneg_right hlow hpos.le
  · rw [add_assoc, add_comm, zpow_add₀ (by norm_num)]
    exact mul_lt_mul_of_pos_right (by exact_mod_cast hhigh) hpos

theorem normalized_digits : ∃ lead fraction, digits d.coefficient = lead :: fraction ∧
    Normalized d.value places lead fraction := by
  have hlen := length_digits hlow hhigh
  have hpos : 0 < d.coefficient := (Nat.pow_pos (by decide)).trans_le hlow
  have hhead := head_digits hpos
  obtain ⟨lead, fraction, hdigits⟩ := List.exists_cons_of_ne_nil (digits_ne_nil d.coefficient)
  rw [hdigits] at hlen hhead
  refine ⟨lead, fraction, hdigits, ?_, ?_, Nat.succ.inj hlen, ?_⟩
  · rw [← hdigits]
    exact fun c => isDigit_of_mem_digits
  · rintro rfl
    exact hhead rfl
  · rw [log_value hlow hhigh, add_sub_cancel_right, ← hdigits, ofDigits_digits]
    rfl

theorem firstExponent_eq : d.firstExponent = d.exponent + places := by
  unfold firstExponent
  rw [length_digits hlow hhigh]
  rfl

/-- **The scientific layout** shows a decimal with all of its digits. -/
theorem scientificText {keeps : List Char → List Char → Prop} {keep : List Char → List Char}
    (hkeep : ∀ ds, keeps ds (keep ds)) :
    ScientificText keeps d.value places (d.scientific keep) := by
  obtain ⟨lead, fraction, hdigits, hnormal⟩ := normalized_digits hlow hhigh
  have hexponent : d.firstExponent = Int.log 10 d.value := by
    rw [log_value hlow hhigh, firstExponent_eq hlow hhigh]
  refine ⟨lead, fraction, keep fraction, _, hnormal, hkeep fraction,
    signedExponent_exponentText _, ?_⟩
  unfold scientific
  dsimp only
  rw [hexponent, hdigits]
  rfl

end Full

/-! ### The positional style -/

/-- **The text shows `q` in positional style**: rounded to `places` digits after the point, a half
going to the even digit, and without the zeros at the end. -/
def PositionalText (q : ℚ) (places : Nat) (t : List Char) : Prop :=
  ∃ whole fraction kept, Plain whole ∧ (∀ c ∈ fraction, c.isDigit = true) ∧
    fraction.length = places ∧ RoundsTo (q * 10 ^ places) (ofDigits (whole ++ fraction)) ∧
    Trimmed fraction kept ∧ t = pointed whole kept

theorem plain_take_padded (hn : 0 < n) (places : Nat) :
    Plain ((padded (places + 1) n).take ((padded (places + 1) n).length - places)) := by
  have hlen := le_length_padded (places + 1) n
  refine ⟨?_, fun c hc => isDigit_of_mem_padded (List.mem_of_mem_take hc), fun hhead => ?_⟩
  · intro hnil
    have := congrArg List.length hnil
    simp only [List.length_take, List.length_nil] at this
    omega
  · rcases padded_cases (places + 1) n with ⟨hpadded, -⟩ | ⟨k, hpadded, hk⟩
    · rw [hpadded] at hlen hhead
      rw [List.head?_take, if_neg (by omega)] at hhead
      exact absurd hhead (head_digits hn)
    · have hone : (padded (places + 1) n).length - places = 1 := by
        rw [hpadded]
        simp only [List.length_cons, List.length_append, List.length_replicate]
        omega
      rw [hone, hpadded]
      rfl

/-- **The positional layout** shows a number that has been rounded to the unit of a decimal. -/
theorem positionalText (hd : 0 < d.coefficient) (hexponent : d.exponent ≤ 0)
    (hround : RoundsTo (q / 10 ^ d.exponent) d.coefficient) :
    PositionalText q (-d.exponent).toNat (d.positional trimZeros) := by
  obtain ⟨k, hk⟩ : ∃ k : Nat, d.exponent = -k := ⟨(-d.exponent).toNat, by omega⟩
  have hplaces : (-d.exponent).toNat = k := by omega
  have hscale : q / 10 ^ d.exponent = q * 10 ^ k := by
    rw [hk, zpow_neg, zpow_natCast, div_inv_eq_mul]
  rw [hscale] at hround
  rw [hplaces]
  unfold positional
  rcases Nat.eq_zero_or_pos k with rfl | hpos
  · rw [if_pos (by omega), hk]
    refine ⟨digits d.coefficient, [], [], plain_digits _, by simp, rfl, ?_, ⟨⟨0, rfl⟩, by simp⟩, ?_⟩
    · rwa [List.append_nil, ofDigits_digits]
    · exact List.append_nil _
  · rw [if_neg (by omega), hplaces]
    have hlen := le_length_padded (k + 1) d.coefficient
    refine ⟨_, _, _, plain_take_padded hd k,
      fun c hc => isDigit_of_mem_padded (List.mem_of_mem_drop hc), ?_, ?_, trimmed_trimZeros _, rfl⟩
    · rw [List.length_drop]
      omega
    · rwa [List.take_append_drop, ofDigits_padded]

theorem PositionalText.not_mem (h : PositionalText q places t) : 'e' ∉ t := by
  obtain ⟨whole, fraction, kept, hwhole, hfraction, -, -, ⟨⟨k, hkept⟩, -⟩, rfl⟩ := h
  have hkept' : ∀ c ∈ kept, c.isDigit = true := by
    intro c hc
    refine hfraction c ?_
    rw [hkept]
    exact List.mem_append_left _ hc
  have hmem : ∀ c ∈ pointed whole kept, c.isDigit = true ∨ c = '.' := by
    intro c hc
    unfold pointed at hc
    split at hc
    · exact Or.inl (hwhole.digit c hc)
    · rcases List.mem_append.1 hc with hc | hc
      · exact Or.inl (hwhole.digit c hc)
      · exact (List.mem_cons.1 hc).symm.imp_left (hkept' c)
  intro he
  rcases hmem 'e' he with he | he
  · cases he
  · cases he

theorem ScientificText.mem {keeps : List Char → List Char → Prop}
    (h : ScientificText keeps r places t) : 'e' ∈ t := by
  obtain ⟨lead, fraction, kept, exponent, -, -, -, rfl⟩ := h
  exact List.mem_append_right _ List.mem_cons_self

end Calculator.Decimal
