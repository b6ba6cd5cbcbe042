import Calculator.Decimal.Layout
import Calculator.Proofs.Doubles.Rounding
import Calculator.Proofs.Tokens.Classes

/-!
# Reading back what has been written

The two layouts of a decimal are numerals, and denote the decimal that has been written. This does
not depend on how many zeros at the end are kept.

* `Denotes t q`: the text `t` is a number, and what is read from it has the value `q`;
* `denotes_pointed`: digits, a point, more digits and an exponent denote what they say;
* `denotes_scientific`, `denotes_positional`: so do the layouts.
-/

namespace Calculator.Decimal

open Lexeme (numbers optional fractions exponents mem_numbers mem_optional mem_fractions
  mem_exponents mem_run)

variable {ds es whole fraction exponent : List Char} {d : Decimal} {x : Int} {n k : Nat}

/-! ### Digits -/

theorem isDigit_of_mem_digits {c : Char} (h : c ∈ digits n) : c.isDigit = true :=
  Nat.isDigit_of_mem_toDigits (by decide) (by decide) h

theorem digits_ne_nil (n : Nat) : digits n ≠ [] := Nat.toDigits_ne_nil

theorem ofDigits_digits (n : Nat) : ofDigits (digits n) = n :=
  Nat.ofDigitChars_toDigits (by decide) (by decide)

theorem ofDigits_append (ds es : List Char) :
    ofDigits (ds ++ es) = 10 ^ es.length * ofDigits ds + ofDigits es := by
  unfold ofDigits
  rw [Nat.ofDigitChars_append, Nat.ofDigitChars_eq_ofDigitChars_zero]

theorem ofDigits_append_zeros (ds : List Char) (k : Nat) :
    ofDigits (ds ++ List.replicate k '0') = 10 ^ k * ofDigits ds := by
  unfold ofDigits
  rw [Nat.ofDigitChars_append, Nat.ofDigitChars_replicate_zero]

theorem ofDigits_padded (width n : Nat) : ofDigits (padded width n) = n := by
  unfold padded
  rw [ofDigits_append, ofDigits_digits]
  have hzeros := ofDigits_append_zeros [] (width - (digits n).length)
  rw [List.nil_append] at hzeros
  have hnil : ofDigits [] = 0 := rfl
  rw [hzeros, hnil, Nat.mul_zero, Nat.mul_zero, Nat.zero_add]

theorem isDigit_of_mem_padded {c : Char} {width : Nat} (h : c ∈ padded width n) :
    c.isDigit = true := by
  rcases List.mem_append.1 h with h | h
  · rw [List.eq_of_mem_replicate h]
    rfl
  · exact isDigit_of_mem_digits h

theorem isDigit_of_mem_append_zeros {c : Char} (h : c ∈ digits n ++ List.replicate k '0') :
    c.isDigit = true := by
  rcases List.mem_append.1 h with h | h
  · exact isDigit_of_mem_digits h
  · rw [List.eq_of_mem_replicate h]
    rfl

theorem le_length_padded (width n : Nat) : width ≤ (padded width n).length := by
  unfold padded
  rw [List.length_append, List.length_replicate]
  omega

/-! ### What is kept -/

/-- **Only zeros at the end are not kept.** -/
def KeepsValue (keep : List Char → List Char) : Prop :=
  ∀ ds, ∃ k, ds = keep ds ++ List.replicate k '0'

theorem keepsValue_id : KeepsValue id := fun ds => ⟨0, (List.append_nil ds).symm⟩

theorem keepsValue_trimZeros : KeepsValue trimZeros := by
  intro ds
  refine ⟨(ds.reverse.takeWhile (· == '0')).length, ?_⟩
  have hzeros : ds.reverse.takeWhile (· == '0') =
      List.replicate (ds.reverse.takeWhile (· == '0')).length '0' := by
    refine List.eq_replicate_iff.2 ⟨rfl, fun c hc => ?_⟩
    exact beq_iff_eq.1 (List.mem_takeWhile_imp (p := (· == '0')) hc)
  have hsplit := List.takeWhile_append_dropWhile (p := (· == '0')) (l := ds.reverse)
  unfold trimZeros
  rw [← List.reverse_replicate, ← hzeros, ← List.reverse_append, hsplit, List.reverse_reverse]

/-! ### Numerals -/

/-- **A text denotes a number**: it is a lexeme of the class, with a digit, and is read so. -/
structure Denotes (t : List Char) (q : ℚ) : Prop where
  mem : t ∈ numbers
  digit : t.any Char.isDigit = true
  value : ∃ d, readPrefix? t = some d ∧ d.value = q

/-- The text of an exponent; without one it is zero. -/
inductive IsExponent : List Char → Int → Prop
  | none : IsExponent [] 0
  | some (x : Int) : IsExponent ('e' :: exponentText x) x

theorem exponentText_eq (x : Int) :
    exponentText x = (if x < 0 then '-' else '+') :: padded 2 x.natAbs := rfl

theorem IsExponent.mem (h : IsExponent exponent x) : exponent ∈ optional exponents := by
  rcases h with _ | x
  · exact mem_optional.2 (Or.inl rfl)
  · refine mem_optional.2 (Or.inr (mem_exponents.2 ⟨'e', [if x < 0 then '-' else '+'],
      padded 2 x.natAbs, rfl, ?_, mem_run.2 fun c => isDigit_of_mem_padded, rfl⟩))
    split <;> simp

theorem IsExponent.read (h : IsExponent exponent x) : readExponent exponent = x := by
  rcases h with _ | x
  · rfl
  · have htake : (padded 2 x.natAbs).takeWhile Char.isDigit = padded 2 x.natAbs :=
      List.takeWhile_eq_self_iff.2 fun c => isDigit_of_mem_padded
    rw [exponentText_eq]
    rcases Int.lt_or_le x 0 with hx | hx
    · rw [if_pos hx]
      show -((ofDigits ((padded 2 x.natAbs).takeWhile Char.isDigit) : Nat) : Int) = x
      rw [htake, ofDigits_padded]
      omega
    · rw [if_neg (by omega)]
      show ((ofDigits ((padded 2 x.natAbs).takeWhile Char.isDigit) : Nat) : Int) = x
      rw [htake, ofDigits_padded]
      omega

theorem span_append {p : Char → Bool} (hds : ∀ c ∈ ds, p c = true)
    (hes : ∀ c ∈ es.head?, p c = false) : (ds ++ es).span p = (ds, es) := by
  have htake : es.takeWhile p = [] ∧ es.dropWhile p = es := by
    rcases es with _ | ⟨c, es⟩
    · exact ⟨rfl, rfl⟩
    · have hc := hes c rfl
      exact ⟨List.takeWhile_cons_of_neg (by simp [hc]), List.dropWhile_cons_of_neg (by simp [hc])⟩
  rw [List.span_eq_takeWhile_dropWhile, List.takeWhile_append_of_pos hds,
    List.dropWhile_append_of_pos hds, htake.1, htake.2, List.append_nil]

theorem IsExponent.head (h : IsExponent exponent x) : ∀ c ∈ exponent.head?, c.isDigit = false :=
  fun c hc => (Lexeme.head_of_mem_exponents h.mem c hc).1

theorem exists_fraction (whole : List Char) (hfraction : ∀ c ∈ fraction, c.isDigit = true)
    (hexponent : IsExponent exponent x) : ∃ f ∈ optional fractions,
      pointed whole fraction ++ exponent = whole ++ (f ++ exponent) ∧
      (∀ c ∈ (f ++ exponent).head?, c.isDigit = false) ∧
      readFraction (f ++ exponent) = (fraction, exponent) := by
  unfold pointed
  rcases fraction with _ | ⟨c, fraction⟩
  · refine ⟨[], mem_optional.2 (Or.inl rfl), by simp, hexponent.head, ?_⟩
    rcases hexponent with _ | x <;> rfl
  · refine ⟨'.' :: c :: fraction, mem_optional.2 (Or.inr (mem_fractions.2
      ⟨c :: fraction, mem_run.2 hfraction, rfl⟩)), by simp, ?_, ?_⟩
    · intro d hd
      obtain rfl : '.' = d := by simpa using hd
      rfl
    · exact span_append hfraction hexponent.head

/-- **Digits, a point, more digits and an exponent denote what they say.** -/
theorem denotes_pointed (hne : whole ≠ []) (hwhole : ∀ c ∈ whole, c.isDigit = true)
    (hfraction : ∀ c ∈ fraction, c.isDigit = true) (hexponent : IsExponent exponent x) :
    Denotes (pointed whole fraction ++ exponent)
      (ofDigits (whole ++ fraction) * 10 ^ (x - fraction.length)) := by
  obtain ⟨f, hf, htext, hhead, hread⟩ := exists_fraction whole hfraction hexponent
  rw [htext]
  refine ⟨mem_numbers.2 ⟨whole, f, exponent, mem_run.2 hwhole, hf, hexponent.mem, Or.inl hne, rfl⟩,
    ?_, ⟨ofDigits (whole ++ fraction), x - fraction.length⟩, ?_, rfl⟩
  · obtain ⟨c, hc⟩ := List.exists_mem_of_ne_nil whole hne
    exact List.any_eq_true.2 ⟨c, List.mem_append_left _ hc, hwhole c hc⟩
  · unfold readPrefix?
    simp only [span_append hwhole hhead, hread, hexponent.read]
    rw [if_neg (by simp [hne])]

/-! ### The layouts -/

theorem isDigit_of_mem_keep {keep : List Char → List Char} (hkeep : KeepsValue keep)
    (hds : ∀ c ∈ ds, c.isDigit = true) : ∀ c ∈ keep ds, c.isDigit = true := by
  obtain ⟨k, hk⟩ := hkeep ds
  intro c hc
  refine hds c ?_
  rw [hk]
  exact List.mem_append_left _ hc

theorem value_keep {keep : List Char → List Char} (hkeep : KeepsValue keep) (ds es : List Char)
    (x : Int) : (ofDigits (ds ++ keep es) : ℚ) * 10 ^ (x - (keep es).length) =
      ofDigits (ds ++ es) * 10 ^ (x - es.length) := by
  obtain ⟨k, hk⟩ := hkeep es
  have hlen : (es.length : Int) = (keep es).length + k := by
    have := congrArg List.length hk
    rw [List.length_append, List.length_replicate] at this
    omega
  have hdigits : ofDigits (ds ++ es) = 10 ^ k * ofDigits (ds ++ keep es) := by
    rw [← ofDigits_append_zeros, List.append_assoc, ← hk]
  have hpow : (10 : ℚ) ^ (x - (keep es).length) = 10 ^ (x - es.length) * 10 ^ k := by
    rw [← zpow_natCast, ← zpow_add₀ (by norm_num), hlen]
    congr 1
    omega
  rw [hdigits, hpow]
  push_cast
  ring

/-- Digits with a point after the first `i`, and not all of the zeros at the end. -/
theorem denotes_digits {keep : List Char → List Char} {i : Nat} (hkeep : KeepsValue keep)
    (hds : ∀ c ∈ ds, c.isDigit = true) (hne : ds.take i ≠ []) (hexponent : IsExponent exponent x) :
    Denotes (pointed (ds.take i) (keep (ds.drop i)) ++ exponent)
      (ofDigits ds * 10 ^ (x - (ds.drop i).length)) := by
  have hdenotes : Denotes _ (ofDigits (ds.take i ++ keep (ds.drop i)) *
      10 ^ (x - (keep (ds.drop i)).length)) :=
    denotes_pointed hne (fun c hc => hds c (List.mem_of_mem_take hc))
      (isDigit_of_mem_keep hkeep fun c hc => hds c (List.mem_of_mem_drop hc)) hexponent
  rwa [value_keep hkeep, List.take_append_drop] at hdenotes

theorem denotes_scientific {keep : List Char → List Char} (hkeep : KeepsValue keep) (d : Decimal) :
    Denotes (d.scientific keep) d.value := by
  have hne : (digits d.coefficient).take 1 ≠ [] := by simp [digits_ne_nil]
  have hdenotes := denotes_digits hkeep (fun c => isDigit_of_mem_digits) hne
    (.some (d.exponent + ((digits d.coefficient).length - 1 : Nat)))
  rw [ofDigits_digits, List.length_drop, Int.add_sub_cancel] at hdenotes
  exact hdenotes

theorem denotes_positional {keep : List Char → List Char} (hkeep : KeepsValue keep) (d : Decimal) :
    Denotes (d.positional keep) d.value := by
  unfold positional value
  rcases Int.lt_or_le d.exponent 0 with hx | hx
  · obtain ⟨places, hplaces⟩ : ∃ k : Nat, (-d.exponent).toNat = k := ⟨_, rfl⟩
    have hlen := le_length_padded (places + 1) d.coefficient
    have hne : (padded (places + 1) d.coefficient).take
        ((padded (places + 1) d.coefficient).length - places) ≠ [] := by
      rw [Ne, List.take_eq_nil_iff, ← List.length_eq_zero_iff]
      omega
    have hdenotes := denotes_digits hkeep (fun c => isDigit_of_mem_padded) hne .none
    have hexponent : (0 : Int) - ((padded (places + 1) d.coefficient).length -
      ((padded (places + 1) d.coefficient).length - places) : Nat) = d.exponent := by omega
    rw [ofDigits_padded, List.append_nil, List.length_drop, hexponent] at hdenotes
    rw [if_neg (by omega), hplaces]
    exact hdenotes
  · obtain ⟨k, hk⟩ := Int.eq_ofNat_of_zero_le hx
    have hdigits : ∀ c ∈ digits d.coefficient ++ List.replicate k '0', c.isDigit = true :=
      fun c => isDigit_of_mem_append_zeros
    have hdenotes := denotes_pointed (by simp [digits_ne_nil]) hdigits (List.forall_mem_nil _) .none
    rw [List.append_nil, List.append_nil, ofDigits_append_zeros, ofDigits_digits] at hdenotes
    rw [if_pos hx, hk, Int.toNat_natCast, zpow_natCast, mul_comm]
    simpa [pointed] using hdenotes

theorem denotes_nat (n : Nat) : Denotes (digits n) n := by
  have hdenotes := denotes_positional keepsValue_id ⟨n, 0⟩
  simpa [positional, value] using hdenotes

/-! ### The characters of a positional layout -/

theorem isDigit_or_of_mem_pointed {c : Char} (hwhole : ∀ c ∈ whole, c.isDigit = true)
    (hfraction : ∀ c ∈ fraction, c.isDigit = true) (hc : c ∈ pointed whole fraction) :
    c.isDigit = true ∨ c = '.' := by
  unfold pointed at hc
  split at hc
  · exact .inl (hwhole c hc)
  · rcases List.mem_append.1 hc with hc | hc
    · exact .inl (hwhole c hc)
    · rcases List.mem_cons.1 hc with rfl | hc
      · exact .inr rfl
      · exact .inl (hfraction c hc)

theorem isDigit_or_of_mem_positional {keep : List Char → List Char} (hkeep : KeepsValue keep)
    {c : Char} (hc : c ∈ d.positional keep) : c.isDigit = true ∨ c = '.' := by
  unfold positional at hc
  split at hc
  · exact .inl (isDigit_of_mem_append_zeros hc)
  · refine isDigit_or_of_mem_pointed (fun c hc => ?_) (isDigit_of_mem_keep hkeep fun c hc => ?_) hc
    · exact isDigit_of_mem_padded (List.mem_of_mem_take hc)
    · exact isDigit_of_mem_padded (List.mem_of_mem_drop hc)

end Calculator.Decimal
