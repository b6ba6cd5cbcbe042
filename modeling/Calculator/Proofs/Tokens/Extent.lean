import Calculator.Token.Lexeme
import Mathlib.Data.List.TakeWhile

/-!
# How far a lexeme reaches

A lexeme is found from the left, and the first character behind it is the only one that decides that
it ends there.

* `length_take`: the front of a text has the front of its lexeme, so a lexeme cut off is a lexeme;
* `length_of_take_eq`: what stands behind that one character does not matter;
* `isPart_of_mem`: a lexeme of more than one character has letters, digits, points and signs in it and
  nothing else. So a blank or a parenthesis ends whatever stands in front of it
  (`length_append_of_not_isPart`).
-/

namespace Calculator.Lexeme

variable {b c : Char} {w cs ds : List Char} {k n : Nat}

/-! ### Texts that are cut off -/

theorem digitsLength_take (cs : List Char) (k : Nat) :
    digitsLength (cs.take k) = min k (digitsLength cs) := by
  unfold digitsLength
  rw [← List.take_takeWhile, List.length_take]

theorem fractionLength_of_ne (h : c ≠ '.') (cs : List Char) : fractionLength (c :: cs) = 0 := by
  unfold fractionLength
  split
  · next heq => exact absurd (List.cons.inj heq).1 h
  · rfl

theorem fractionLength_take (cs : List Char) (k : Nat) :
    fractionLength (cs.take k) = min k (fractionLength cs) := by
  cases k with
  | zero => simp [fractionLength]
  | succ k =>
    cases cs with
    | nil => simp [fractionLength]
    | cons c cs =>
      by_cases hc : c = '.'
      · subst hc
        have hdigits := digitsLength_take cs k
        show digitsLength (cs.take k) + 1 = min (k + 1) (digitsLength cs + 1)
        omega
      · rw [List.take_succ_cons, fractionLength_of_ne hc, fractionLength_of_ne hc]
        omega

/-- The length of an exponent behind its mark: a sign, which may be missing, and digits. -/
def signedLength : List Char → Nat
  | '-' :: ds => digitsLength ds + 1
  | '+' :: ds => digitsLength ds + 1
  | ds => digitsLength ds

theorem exponentLength_cons (mark : Char) (cs : List Char) : exponentLength (mark :: cs) =
    if Decimal.isExponentMark mark then signedLength cs + 1 else 0 := by
  unfold exponentLength signedLength
  by_cases hmark : Decimal.isExponentMark mark = true
  · simp only [hmark, if_true]
    split <;> simp_all
  · simp [hmark]

theorem signedLength_cons (c : Char) (cs : List Char) : signedLength (c :: cs) =
    if c = '-' ∨ c = '+' then digitsLength cs + 1 else digitsLength (c :: cs) := by
  unfold signedLength
  split
  · next heq => simp_all
  · next heq => simp_all
  · next hminus hplus =>
    have hsign : ¬ (c = '-' ∨ c = '+') := by
      rintro (rfl | rfl)
      · exact hminus _ rfl
      · exact hplus _ rfl
    rw [if_neg hsign]

theorem signedLength_take (cs : List Char) (k : Nat) :
    signedLength (cs.take k) = min k (signedLength cs) := by
  cases k with
  | zero => simp [signedLength, digitsLength]
  | succ k =>
    cases cs with
    | nil => simp [signedLength, digitsLength]
    | cons c cs =>
      have hdigits := digitsLength_take cs k
      have hall := digitsLength_take (c :: cs) (k + 1)
      rw [List.take_succ_cons] at hall ⊢
      rw [signedLength_cons, signedLength_cons]
      split <;> omega

theorem exponentLength_take (cs : List Char) (k : Nat) :
    exponentLength (cs.take k) = min k (exponentLength cs) := by
  cases k with
  | zero => simp [exponentLength]
  | succ k =>
    cases cs with
    | nil => simp [exponentLength]
    | cons mark cs =>
      have hsigned := signedLength_take cs k
      rw [List.take_succ_cons, exponentLength_cons, exponentLength_cons]
      split <;> omega

theorem numberLength_take (cs : List Char) (k : Nat) :
    numberLength (cs.take k) = min k (numberLength cs) := by
  have hwhole := digitsLength_take cs k
  have hfraction (i : Nat) : fractionLength ((cs.take k).drop i) =
      min (k - i) (fractionLength (cs.drop i)) := by
    rw [List.drop_take, fractionLength_take]
  have hexponent (i : Nat) : exponentLength ((cs.take k).drop i) =
      min (k - i) (exponentLength (cs.drop i)) := by
    rw [List.drop_take, exponentLength_take]
  simp only [numberLength, hwhole, hfraction, hexponent]
  -- Either the cut is behind a part, which then stays as it is, or nothing follows that part.
  by_cases hk : k ≤ digitsLength cs
  · have hmin : min k (digitsLength cs) = k := by omega
    simp only [hmin, Nat.sub_self, Nat.zero_min, Nat.add_zero]
    split <;> split <;> omega
  · have hmin : min k (digitsLength cs) = digitsLength cs := by omega
    simp only [hmin]
    by_cases hm : k ≤ digitsLength cs + fractionLength (cs.drop (digitsLength cs))
    · have hcut : digitsLength cs + min (k - digitsLength cs)
          (fractionLength (cs.drop (digitsLength cs))) = k := by omega
      simp only [hcut, Nat.sub_self, Nat.zero_min, Nat.add_zero]
      split <;> split <;> omega
    · have hkeep : min (k - digitsLength cs) (fractionLength (cs.drop (digitsLength cs))) =
          fractionLength (cs.drop (digitsLength cs)) := by omega
      simp only [hkeep]
      split <;> omega

theorem wordLength_take (cs : List Char) (k : Nat) :
    wordLength (cs.take k) = min k (wordLength cs) := by
  cases k with
  | zero => simp [wordLength]
  | succ k =>
    cases cs with
    | nil => simp [wordLength]
    | cons c cs =>
      rw [List.take_succ_cons, wordLength, wordLength, ← List.take_takeWhile, List.length_take]
      split <;> omega

/-- **The front of a text has the front of its lexeme.** -/
theorem length_take (cs : List Char) (hk : 0 < k) : length (cs.take k) = min k (length cs) := by
  have hnumber := numberLength_take cs k
  have hword := wordLength_take cs k
  have hnumbers : 0 < numberLength (cs.take k) ↔ 0 < numberLength cs := by omega
  have hwords : 0 < wordLength (cs.take k) ↔ 0 < wordLength cs := by omega
  simp only [length, hnumbers, hwords]
  split
  · exact hnumber
  · split
    · exact hword
    · omega

/-- **One character behind a lexeme decides where it ends**: what stands behind that one may differ. -/
theorem length_of_take_eq (h : cs.take (length cs + 1) = ds.take (length cs + 1)) :
    length ds = length cs := by
  have hpos : 0 < length cs + 1 := Nat.succ_pos _
  have hcs := length_take cs hpos
  have hds := length_take ds hpos
  rw [h] at hcs
  omega

/-! ### The characters of a lexeme -/

/-- The characters that a lexeme of more than one character can have. -/
def isPart (c : Char) : Bool := isWordChar c || c == '.' || c == '+' || c == '-'

theorem isPart_of_isDigit (h : c.isDigit = true) : isPart c = true := by
  simp [isPart, isWordChar, h]

theorem isPart_of_mem_digits (h : c ∈ cs.take (digitsLength cs)) : isPart c = true := by
  have hrun : cs.take (digitsLength cs) = cs.takeWhile Char.isDigit :=
    (List.prefix_iff_eq_take.1 (List.takeWhile_prefix _)).symm
  rw [hrun] at h
  exact isPart_of_isDigit (List.mem_takeWhile_imp h)

theorem isPart_of_mem_fraction (h : c ∈ cs.take (fractionLength cs)) : isPart c = true := by
  unfold fractionLength at h
  split at h
  · rw [List.take_succ_cons] at h
    rcases List.mem_cons.1 h with rfl | h
    · decide
    · exact isPart_of_mem_digits h
  · simp at h

theorem isPart_of_mem_signed (h : c ∈ cs.take (signedLength cs)) : isPart c = true := by
  unfold signedLength at h
  split at h
  · rw [List.take_succ_cons] at h
    rcases List.mem_cons.1 h with rfl | h
    · decide
    · exact isPart_of_mem_digits h
  · rw [List.take_succ_cons] at h
    rcases List.mem_cons.1 h with rfl | h
    · decide
    · exact isPart_of_mem_digits h
  · exact isPart_of_mem_digits h

theorem isPart_of_isExponentMark (h : Decimal.isExponentMark c = true) : isPart c = true := by
  simp only [Decimal.isExponentMark, Bool.or_eq_true, beq_iff_eq] at h
  rcases h with rfl | rfl <;> decide

theorem isPart_of_mem_exponent (h : c ∈ cs.take (exponentLength cs)) : isPart c = true := by
  cases cs with
  | nil => simp at h
  | cons mark cs =>
    rw [exponentLength_cons] at h
    split at h
    · next hmark =>
      rw [List.take_succ_cons] at h
      rcases List.mem_cons.1 h with rfl | h
      · exact isPart_of_isExponentMark hmark
      · exact isPart_of_mem_signed h
    · simp at h

theorem isPart_of_mem_number (h : c ∈ cs.take (numberLength cs)) : isPart c = true := by
  simp only [numberLength] at h
  split at h
  · simp at h
  · rw [List.take_add, List.take_add] at h
    rcases List.mem_append.1 h with h | h
    · rcases List.mem_append.1 h with h | h
      · exact isPart_of_mem_digits h
      · exact isPart_of_mem_fraction h
    · exact isPart_of_mem_exponent h

theorem isPart_of_isWordChar (h : isWordChar c = true) : isPart c = true := by
  simp [isPart, h]

theorem isPart_of_mem_word (h : c ∈ cs.take (wordLength cs)) : isPart c = true := by
  unfold wordLength at h
  split at h
  · next first cs =>
    split at h
    · next hletter =>
      have hrun : cs.take (cs.takeWhile isWordChar).length = cs.takeWhile isWordChar :=
        (List.prefix_iff_eq_take.1 (List.takeWhile_prefix _)).symm
      rw [List.take_succ_cons, hrun] at h
      rcases List.mem_cons.1 h with rfl | h
      · exact isPart_of_isWordChar (by simp [isWordChar, hletter])
      · exact isPart_of_isWordChar (List.mem_takeWhile_imp h)
    · simp at h
  · simp at h

theorem isPart_of_mem (h : c ∈ cs.take (length cs)) (hlen : 1 < length cs) : isPart c = true := by
  unfold length at h hlen
  split at h
  · exact isPart_of_mem_number h
  · next hnumber =>
    rw [if_neg hnumber] at hlen
    split at h
    · exact isPart_of_mem_word h
    · next hword =>
      rw [if_neg hword] at hlen
      exact absurd hlen (Nat.lt_irrefl 1)

/-! ### Characters that end a lexeme -/

/-- **A character that is no part of a longer lexeme ends whatever stands in front of it.** -/
theorem length_append_of_not_isPart (hb : isPart b = false) (hw : w ≠ []) (cs : List Char) :
    length (w ++ b :: cs) = length w := by
  have hpos := List.length_pos_iff.2 hw
  have htake := length_take (w ++ b :: cs) hpos
  rw [List.take_left] at htake
  by_cases hlen : length (w ++ b :: cs) ≤ w.length
  · omega
  · -- Then the lexeme would have the character in it.
    have hmem : b ∈ (w ++ b :: cs).take (length (w ++ b :: cs)) := by
      obtain ⟨m, hm⟩ : ∃ m, length (w ++ b :: cs) = w.length + (m + 1) :=
        ⟨length (w ++ b :: cs) - w.length - 1, by omega⟩
      rw [hm, List.take_length_add_append, List.take_succ_cons]
      simp
    rw [isPart_of_mem hmem (by omega)] at hb
    cases hb

theorem isBlank_iff : isBlank c = true ↔ c ∈ [' ', '\t', '\r', '\n', '\x0c'] := by
  simp [isBlank, or_assoc]

theorem isBlank_cases (h : isBlank c = true) :
    c = ' ' ∨ c = '\t' ∨ c = '\r' ∨ c = '\n' ∨ c = '\x0c' := by
  simpa using isBlank_iff.1 h

theorem isPart_of_isBlank (hb : isBlank b = true) : isPart b = false := by
  rcases isBlank_cases hb with rfl | rfl | rfl | rfl | rfl <;> decide

end Calculator.Lexeme
