import Calculator.Proofs.Tokens.Lossless
import Mathlib.Computability.Language

/-!
# Lexical classes

The classes of lexemes as languages, written the way they are described: a number is digits with an
optional point and more digits, or a point and optional digits, then optionally an exponent, and so
on. `Class.language` gives the language of each class.

* `mem_numbers_iff`, `mem_words_iff`: a text is in the class exactly if the scanner takes all of it;
* `length_le_of_mem`: no prefix of a text that is in a class is longer than its first lexeme;
* `class_ofLexeme`: the first lexeme is in the class of its kind, and if its kind has no class, then
  no prefix of the text is in any;
* `tokenize_longest`: every token is the longest prefix of the rest of the text that is in a class.
-/

namespace Calculator

open scoped Computability

namespace Lexeme

variable {p : Char → Bool} {l : Language Char} {c : Char} {w ds f e cs : List Char}

/-! ### The languages -/

/-- The texts that are a single character of some kind. -/
def one (p : Char → Bool) : Language Char := {w | ∃ c, p c = true ∧ w = [c]}

/-- What may be missing. -/
def optional (l : Language Char) : Language Char := 1 + l

def digits : Language Char := (one Char.isDigit)∗

/-- A point, and the digits after it. -/
def fractions : Language Char := one (· == '.') * digits

/-- An exponent mark with an optional sign and optional digits. -/
def exponents : Language Char :=
  one Decimal.isExponentMark * optional (one fun c => c == '+' || c == '-') * digits

/-- **Numbers.** -/
def numbers : Language Char :=
  one Char.isDigit * digits * optional fractions * optional exponents +
    fractions * optional exponents

/-- **Words.** -/
def words : Language Char := one isLetter * (one isWordChar)∗

/-- **The classes of lexemes.** -/
inductive Class
  | number
  | word
  | operator
  | parenthesis
  | comma
deriving DecidableEq, Repr

/-- The texts of a class. -/
def Class.language : Class → Language Char
  | number => numbers
  | word => words
  | operator => one fun c => (Operator.ofSymbol? c).isSome
  | parenthesis => one fun c => c == '(' || c == ')'
  | comma => one (· == ',')

/-! ### Membership -/

theorem mem_one : w ∈ one p ↔ ∃ c, p c = true ∧ w = [c] := Iff.rfl

theorem mem_optional : w ∈ optional l ↔ w = [] ∨ w ∈ l := by
  rw [optional, Language.mem_add, Language.mem_one]

theorem mem_run : w ∈ (one p)∗ ↔ ∀ c ∈ w, p c = true := by
  rw [Language.mem_kstar]
  constructor
  · rintro ⟨L, rfl, hL⟩ c hc
    obtain ⟨v, hv, hcv⟩ := List.mem_flatten.1 hc
    obtain ⟨d, hd, rfl⟩ := hL v hv
    rw [List.mem_singleton.1 hcv]
    exact hd
  · intro h
    refine ⟨w.map fun c => [c], by simp [← List.flatMap_def], fun v hv => ?_⟩
    obtain ⟨c, hc, rfl⟩ := List.mem_map.1 hv
    exact ⟨c, h c hc, rfl⟩

theorem mem_fractions : w ∈ fractions ↔ ∃ ds ∈ digits, w = '.' :: ds := by
  rw [fractions, Language.mem_mul]
  constructor
  · rintro ⟨_, ⟨c, hc, rfl⟩, ds, hds, rfl⟩
    rw [beq_iff_eq.1 hc]
    exact ⟨ds, hds, rfl⟩
  · rintro ⟨ds, hds, rfl⟩
    exact ⟨['.'], ⟨'.', rfl, rfl⟩, ds, hds, rfl⟩

theorem mem_exponents : w ∈ exponents ↔ ∃ mark sign ds, Decimal.isExponentMark mark = true ∧
    (sign = [] ∨ sign = ['+'] ∨ sign = ['-']) ∧ ds ∈ digits ∧ w = mark :: (sign ++ ds) := by
  rw [exponents, Language.mem_mul]
  constructor
  · rintro ⟨_, ⟨_, ⟨mark, hmark, rfl⟩, sign, hsign, rfl⟩, ds, hds, rfl⟩
    refine ⟨mark, sign, ds, hmark, ?_, hds, by simp⟩
    rcases mem_optional.1 hsign with rfl | ⟨c, hc, rfl⟩
    · exact Or.inl rfl
    · simpa using hc
  · rintro ⟨mark, sign, ds, hmark, hsign, hds, rfl⟩
    refine ⟨mark :: sign, ⟨[mark], ⟨mark, hmark, rfl⟩, sign, mem_optional.2 ?_, rfl⟩, ds, hds,
      by simp⟩
    rcases hsign with rfl | rfl | rfl
    · exact Or.inl rfl
    · exact Or.inr ⟨'+', rfl, rfl⟩
    · exact Or.inr ⟨'-', rfl, rfl⟩

theorem mem_numbers : w ∈ numbers ↔ ∃ ds f e, ds ∈ digits ∧ f ∈ optional fractions ∧
    e ∈ optional exponents ∧ (ds ≠ [] ∨ f ≠ []) ∧ w = ds ++ (f ++ e) := by
  rw [numbers, Language.mem_add, Language.mem_mul, Language.mem_mul]
  constructor
  · rintro (⟨_, ⟨_, ⟨_, ⟨c, hc, rfl⟩, ds, hds, rfl⟩, f, hf, rfl⟩, e, he, rfl⟩ | ⟨f, hf, e, he, rfl⟩)
    · refine ⟨c :: ds, f, e, mem_run.2 ?_, hf, he, Or.inl (by simp), by simp⟩
      exact List.forall_mem_cons.2 ⟨hc, mem_run.1 hds⟩
    · obtain ⟨ds, -, rfl⟩ := mem_fractions.1 hf
      exact ⟨[], '.' :: ds, e, mem_run.2 (by simp), mem_optional.2 (Or.inr hf), he, by simp, rfl⟩
  · rintro ⟨ds, f, e, hds, hf, he, hne, rfl⟩
    rcases ds with _ | ⟨c, ds⟩
    · have hf := (mem_optional.1 hf).resolve_left (hne.resolve_left (by simp))
      exact Or.inr ⟨f, hf, e, he, rfl⟩
    · obtain ⟨hc, hds⟩ := List.forall_mem_cons.1 (mem_run.1 hds)
      refine Or.inl ⟨c :: ds ++ f, ⟨c :: ds, ⟨[c], ⟨c, hc, rfl⟩, ds, mem_run.2 hds, rfl⟩, f, hf,
        rfl⟩, e, he, by simp⟩

/-! ### The lengths of the parts of a number -/

theorem digitsLength_append (hds : ∀ c ∈ ds, c.isDigit = true)
    (he : ∀ c ∈ e.head?, c.isDigit = false) : digitsLength (ds ++ e) = ds.length := by
  have hnone : e.takeWhile Char.isDigit = [] := by
    rcases e with _ | ⟨c, e⟩
    · rfl
    · exact List.takeWhile_cons_of_neg (by simp [he c rfl])
  rw [digitsLength, List.takeWhile_append_of_pos hds, hnone, List.append_nil]

theorem digitsLength_of_mem (h : ds ∈ digits) : digitsLength ds = ds.length := by
  have hlen := digitsLength_append (e := []) (mem_run.1 h) (by simp)
  rwa [List.append_nil] at hlen

theorem not_isDigit_of_isExponentMark (h : Decimal.isExponentMark c = true) :
    c.isDigit = false ∧ c ≠ '.' := by
  simp only [Decimal.isExponentMark, Bool.or_eq_true, beq_iff_eq] at h
  rcases h with rfl | rfl <;> decide

/-- An exponent goes on neither with the digits nor with a point. -/
theorem head_of_mem_exponents (h : e ∈ optional exponents) :
    ∀ c ∈ e.head?, c.isDigit = false ∧ c ≠ '.' := by
  rcases mem_optional.1 h with rfl | h
  · simp
  · obtain ⟨mark, sign, ds, hmark, -, -, rfl⟩ := mem_exponents.1 h
    intro c hc
    obtain rfl : mark = c := by simpa using hc
    exact not_isDigit_of_isExponentMark hmark

theorem exponentLength_of_mem (h : e ∈ optional exponents) : exponentLength e = e.length := by
  rcases mem_optional.1 h with rfl | h
  · rfl
  · obtain ⟨mark, sign, ds, hmark, hsign, hds, rfl⟩ := mem_exponents.1 h
    have hlen := digitsLength_of_mem hds
    rw [exponentLength_cons, if_pos hmark]
    rcases hsign with rfl | rfl | rfl
    · -- Without a sign, the first digit is none either.
      rcases ds with _ | ⟨c, ds⟩
      · rfl
      · have hc : ¬ (c = '-' ∨ c = '+') := by
          have := mem_run.1 hds c (by simp)
          rintro (rfl | rfl) <;> revert this <;> decide
        rw [List.nil_append, signedLength_cons, if_neg hc, hlen]
        simp
    · simp [signedLength, hlen]
    · simp [signedLength, hlen]

theorem fractionLength_of_mem (hf : f ∈ optional fractions) (he : e ∈ optional exponents) :
    fractionLength (f ++ e) = f.length := by
  have hhead := head_of_mem_exponents he
  rcases mem_optional.1 hf with rfl | hf
  · rcases e with _ | ⟨c, e⟩
    · rfl
    · exact fractionLength_of_ne (hhead c rfl).2 e
  · obtain ⟨ds, hds, rfl⟩ := mem_fractions.1 hf
    have hlen := digitsLength_append (mem_run.1 hds) fun c hc => (hhead c hc).1
    simp [fractionLength, hlen]

theorem numberLength_of_mem (h : w ∈ numbers) : numberLength w = w.length := by
  obtain ⟨ds, f, e, hds, hf, he, hne, rfl⟩ := mem_numbers.1 h
  have hstart : ∀ c ∈ (f ++ e).head?, c.isDigit = false := by
    rcases mem_optional.1 hf with rfl | hf
    · exact fun c hc => (head_of_mem_exponents he c hc).1
    · obtain ⟨fs, -, rfl⟩ := mem_fractions.1 hf
      intro c hc
      obtain rfl : '.' = c := by simpa using hc
      decide
  have hwhole := digitsLength_append (mem_run.1 hds) hstart
  have hmantissa : ds.length + f.length ≠ 0 := by
    simp only [← List.length_pos_iff] at hne
    omega
  have hdrop : (ds ++ (f ++ e)).drop (ds.length + f.length) = e := by
    rw [← List.append_assoc, ← List.length_append, List.drop_left]
  simp only [numberLength, hwhole, List.drop_left, fractionLength_of_mem hf he, hmantissa, if_false,
    hdrop, exponentLength_of_mem he, List.length_append]
  omega

/-! ### The parts of what is taken -/

theorem take_digitsLength (cs : List Char) :
    cs.take (digitsLength cs) = cs.takeWhile Char.isDigit :=
  (List.prefix_iff_eq_take.1 (List.takeWhile_prefix _)).symm

theorem take_digits_mem (cs : List Char) : cs.take (digitsLength cs) ∈ digits := by
  rw [take_digitsLength]
  exact mem_run.2 fun c hc => List.mem_takeWhile_imp hc

theorem take_fraction_mem (cs : List Char) :
    cs.take (fractionLength cs) ∈ optional fractions := by
  rw [mem_optional]
  unfold fractionLength
  split
  · next cs => exact Or.inr (mem_fractions.2 ⟨_, take_digits_mem cs, rfl⟩)
  · exact Or.inl List.take_zero

theorem take_exponent_mem (cs : List Char) :
    cs.take (exponentLength cs) ∈ optional exponents := by
  rw [mem_optional]
  rcases cs with _ | ⟨mark, cs⟩
  · simp
  · rw [exponentLength_cons]
    split_ifs with hmark
    · refine Or.inr (mem_exponents.2 ?_)
      rw [List.take_succ_cons]
      unfold signedLength
      split
      · next cs => exact ⟨mark, ['-'], _, hmark, by simp, take_digits_mem cs, rfl⟩
      · next cs => exact ⟨mark, ['+'], _, hmark, by simp, take_digits_mem cs, rfl⟩
      · exact ⟨mark, [], _, hmark, by simp, take_digits_mem cs, rfl⟩
    · exact Or.inl List.take_zero

theorem take_number_mem (h : 0 < numberLength cs) : cs.take (numberLength cs) ∈ numbers := by
  have hds := take_digits_mem cs
  have hf := take_fraction_mem (cs.drop (digitsLength cs))
  have he := take_exponent_mem
    (cs.drop (digitsLength cs + fractionLength (cs.drop (digitsLength cs))))
  have hlen := digitsLength_le cs
  have hlen' := fractionLength_le (cs.drop (digitsLength cs))
  simp only [numberLength] at h ⊢
  split_ifs at h ⊢ with hm
  · exact absurd h (Nat.lt_irrefl 0)
  · rw [List.take_add, List.take_add, List.append_assoc]
    refine mem_numbers.2 ⟨_, _, _, hds, hf, he, ?_, rfl⟩
    simp only [← List.length_pos_iff, List.length_take]
    omega

/-- **Numbers are what the scanner takes as a whole.** -/
theorem mem_numbers_iff : w ∈ numbers ↔ w ≠ [] ∧ numberLength w = w.length := by
  constructor
  · intro h
    refine ⟨?_, numberLength_of_mem h⟩
    obtain ⟨ds, f, e, -, -, -, hne, rfl⟩ := mem_numbers.1 h
    rcases hne with hne | hne <;> simp [hne]
  · rintro ⟨hne, hlen⟩
    have hmem := take_number_mem (by rw [hlen]; exact List.length_pos_iff.2 hne)
    rwa [hlen, List.take_length] at hmem

theorem mem_words_iff : w ∈ words ↔ w ≠ [] ∧ wordLength w = w.length := by
  rw [words, Language.mem_mul]
  constructor
  · rintro ⟨_, ⟨c, hc, rfl⟩, ds, hds, rfl⟩
    have hall : ds.takeWhile isWordChar = ds := List.takeWhile_eq_self_iff.2 (mem_run.1 hds)
    simp [wordLength, hc, hall]
  · rintro ⟨hne, hlen⟩
    rcases w with _ | ⟨c, cs⟩
    · exact absurd rfl hne
    · simp only [wordLength] at hlen
      split_ifs at hlen with hc
      · have hall : cs.takeWhile isWordChar = cs :=
          (List.takeWhile_prefix _).eq_of_length (by simpa using hlen)
        exact ⟨[c], ⟨c, hc, rfl⟩, cs, mem_run.2 (List.takeWhile_eq_self_iff.1 hall), rfl⟩

/-! ### Prefixes in a class -/

theorem prefix_mem_numbers_iff (h : w <+: cs) :
    w ∈ numbers ↔ w ≠ [] ∧ w.length ≤ numberLength cs := by
  have htake := numberLength_take cs w.length
  rw [← List.prefix_iff_eq_take.1 h] at htake
  rw [mem_numbers_iff]
  refine and_congr_right fun _ => ?_
  omega

theorem prefix_mem_words_iff (h : w <+: cs) :
    w ∈ words ↔ w ≠ [] ∧ w.length ≤ wordLength cs := by
  have htake := wordLength_take cs w.length
  rw [← List.prefix_iff_eq_take.1 h] at htake
  rw [mem_words_iff]
  refine and_congr_right fun _ => ?_
  omega

theorem isDigit_of_isAlpha {c : Char} (h : c.isAlpha = true) : c.isDigit = false := by
  have h : (decide (c.val ≥ 'A'.val ∧ c.val ≤ 'Z'.val) ||
    (decide (c.val ≥ 'a'.val) && decide (c.val ≤ 'z'.val))) = true := h
  show (decide (c.val ≥ '0'.val) && decide (c.val ≤ '9'.val)) = false
  grind

/-- A text starts with a number or with a word, but not with both. -/
theorem wordLength_of_number (h : 0 < numberLength cs) : wordLength cs = 0 := by
  rcases cs with _ | ⟨c, cs⟩
  · rfl
  · have hone := numberLength_take (c :: cs) 1
    rw [wordLength, if_neg]
    intro hc
    have hdigit : c.isDigit = false := by
      simp only [isLetter, Bool.or_eq_true, beq_iff_eq] at hc
      rcases hc with (((hc | rfl) | rfl) | rfl) | rfl
      · exact isDigit_of_isAlpha hc
      all_goals decide
    have hpoint : c ≠ '.' := by
      rintro rfl
      exact absurd hc (by decide)
    have hnone : numberLength (c :: cs) = 0 := by
      have hwhole : digitsLength (c :: cs) = 0 := by simp [digitsLength, hdigit]
      simp [numberLength, hwhole, fractionLength_of_ne hpoint]
    omega

/-- **No prefix in a class is longer than the first lexeme.** -/
theorem length_le_of_mem (k : Class) (hw : w ∈ k.language) (h : w <+: cs) :
    w.length ≤ length cs := by
  have hpos := length_pos cs
  have hone {p : Char → Bool} (hw : w ∈ one p) : w.length ≤ length cs := by
    obtain ⟨c, -, rfl⟩ := hw
    exact hpos
  cases k with
  | number =>
    obtain ⟨hne, hle⟩ := (prefix_mem_numbers_iff h).1 hw
    have := List.length_pos_iff.2 hne
    rw [length, if_pos (by omega)]
    exact hle
  | word =>
    obtain ⟨hne, hle⟩ := (prefix_mem_words_iff h).1 hw
    have := List.length_pos_iff.2 hne
    have hnumber : ¬ 0 < numberLength cs := fun h => by have := wordLength_of_number h; omega
    rw [length, if_neg hnumber, if_pos (by omega)]
    exact hle
  | operator => exact hone hw
  | parenthesis => exact hone hw
  | comma => exact hone hw

end Lexeme

open Lexeme (Leads)

variable {c : Char} {w cs : List Char}

/-! ### Kinds and classes -/

/-- The class of the lexemes of a kind. The end of a text has none, nor has a character that starts
no token. -/
def TokenKind.class? : TokenKind → Option Lexeme.Class
  | .number _ => some .number
  | .function _ | .constant _ | .variable => some .word
  | .operator _ => some .operator
  | .leftParen | .rightParen => some .parenthesis
  | .comma => some .comma
  | .finish | .unknown => none

namespace Lexeme

theorem class_ofWord (name : String) : (TokenKind.ofWord name).class? = some .word := by
  rcases TokenKind.ofWord_cases name with ⟨f, h⟩ | ⟨c, h⟩ | h <;> rw [h] <;> rfl

theorem class_ofChar (c : Char) :
    (∀ k, (TokenKind.ofChar c).class? = some k → [c] ∈ k.language) ∧
    ((TokenKind.ofChar c).class? = none → TokenKind.ofChar c = .unknown ∧
      ∀ k ∈ [Class.operator, .parenthesis, .comma], [c] ∉ k.language) := by
  have hone {p : Char → Bool} : [c] ∈ one p ↔ p c = true := by simp [mem_one]
  unfold TokenKind.ofChar
  split
  · exact ⟨fun k hk => by cases hk; exact hone.2 rfl, fun h => nomatch h⟩
  · exact ⟨fun k hk => by cases hk; exact hone.2 rfl, fun h => nomatch h⟩
  · exact ⟨fun k hk => by cases hk; exact hone.2 rfl, fun h => nomatch h⟩
  · next hopening hclosing hcomma =>
    cases hop : Operator.ofSymbol? c with
    | some op => exact ⟨fun k hk => by cases hk; exact hone.2 (by simp [hop]), fun h => nomatch h⟩
    | none =>
      refine ⟨fun k hk => (nomatch hk), fun _ => ⟨rfl, ?_⟩⟩
      have hnot : (c ≠ '(' ∧ c ≠ ')') ∧ c ≠ ',' := ⟨⟨hopening, hclosing⟩, hcomma⟩
      simpa [Class.language, hone, hop] using hnot

/-- In front of a text that starts with no number and no word, only its first character can be in a
class, and then in one of the other three. -/
theorem eq_singleton_of_mem {v : List Char} (hnumber : numberLength (c :: cs) = 0)
    (hword : wordLength (c :: cs) = 0) {k : Class} (hv : v ∈ k.language) (h : v <+: c :: cs) :
    v = [c] ∧ k ∈ [Class.operator, .parenthesis, .comma] := by
  have hone {p : Char → Bool} (hv : v ∈ one p) : v = [c] := by
    obtain ⟨d, -, rfl⟩ := hv
    simpa using h
  cases k with
  | number =>
    obtain ⟨hne, hle⟩ := (prefix_mem_numbers_iff h).1 hv
    have := List.length_pos_iff.2 hne
    omega
  | word =>
    obtain ⟨hne, hle⟩ := (prefix_mem_words_iff h).1 hv
    have := List.length_pos_iff.2 hne
    omega
  | operator => exact ⟨hone hv, by simp⟩
  | parenthesis => exact ⟨hone hv, by simp⟩
  | comma => exact ⟨hone hv, by simp⟩

/-- **The first lexeme is in the class of its kind.** If there is no such class, it is one
character, and nothing in front of the text is in any class. -/
theorem class_ofLexeme (h : Leads w cs) :
    (∀ k, (TokenKind.ofLexeme w).class? = some k → w ∈ k.language) ∧
    ((TokenKind.ofLexeme w).class? = none → TokenKind.ofLexeme w = .unknown ∧ w.length = 1 ∧
      ∀ k : Class, ∀ v ∈ k.language, ¬ v <+: w ++ cs) := by
  have halone := h.alone
  have hpos := List.length_pos_iff.2 h.ne_nil
  unfold TokenKind.ofLexeme
  split_ifs with hnumber hword
  · -- A number.
    refine ⟨fun k hk => ?_, fun hnone => by cases hnone⟩
    obtain rfl : Class.number = k := by simpa [TokenKind.class?] using hk
    rw [length, if_pos hnumber] at halone
    exact mem_numbers_iff.2 ⟨h.ne_nil, halone⟩
  · -- A word.
    rw [class_ofWord]
    refine ⟨fun k hk => ?_, fun hnone => by cases hnone⟩
    obtain rfl : Class.word = k := by simpa using hk
    rw [length, if_neg hnumber, if_pos hword] at halone
    exact mem_words_iff.2 ⟨h.ne_nil, halone⟩
  · -- A single character.
    rw [length, if_neg hnumber, if_neg hword] at halone
    obtain ⟨c, rfl⟩ := List.length_eq_one_iff.1 halone.symm
    obtain ⟨hsome, hnone⟩ := class_ofChar c
    refine ⟨hsome, fun hc => ⟨(hnone hc).1, rfl, fun k v hv hprefix => ?_⟩⟩
    have hnumbers := numberLength_take (c :: cs) 1
    have hwords := wordLength_take (c :: cs) 1
    rw [List.take_succ_cons, List.take_zero] at hnumbers hwords
    have hprefix : v <+: c :: cs := hprefix
    obtain ⟨rfl, hk⟩ := eq_singleton_of_mem (by omega) (by omega) hv hprefix
    exact (hnone hc).2 k hk hv

end Lexeme

/-! ### Tokens -/

theorem tokenize_leads (h : Leads w cs) : tokenize (String.ofList w) =
    [⟨.ofLexeme w, String.ofList w, 0⟩, .finish (String.ofList w).utf8ByteSize] := by
  unfold tokenize tokens
  rw [String.toList_ofList, scan_lexeme h]
  rfl

/-- **Tokens are as long as they can be.** A token is the longest part in front of what is left of
the text that is in a lexical class; a character that no such part starts with is a token of
unknown kind. Its kind depends on its own text only: this text has the token, and no other. -/
theorem tokenize_longest (source : String) : ∀ t ∈ tokenize source, t.kind ≠ .finish →
    (∃ pre rest, source.toList = pre ++ rest ∧ (String.ofList pre).utf8ByteSize = t.offset ∧
      t.text.toList <+: rest ∧
      (∀ k, t.kind.class? = some k → t.text.toList ∈ k.language ∧
        ∀ k' : Lexeme.Class, ∀ w ∈ k'.language, w <+: rest → w.length ≤ t.text.toList.length) ∧
      (t.kind.class? = none → t.kind = .unknown ∧ t.text.toList.length = 1 ∧
        ∀ k' : Lexeme.Class, ∀ w ∈ k'.language, ¬ w <+: rest)) ∧
    tokenize t.text = [⟨t.kind, t.text, 0⟩, ⟨.finish, "", t.text.utf8ByteSize⟩] := by
  intro t ht hk
  rcases List.mem_append.1 ht with ht | ht
  · obtain ⟨pre, w, cs, hsource, hw, rfl⟩ := exists_leads_of_mem_tokens ht
    obtain ⟨hsome, hnone⟩ := Lexeme.class_ofLexeme hw
    refine ⟨⟨pre, w ++ cs, hsource, rfl, ?_, fun k hk => ?_, ?_⟩, tokenize_leads hw⟩
    · rw [String.toList_ofList]
      exact List.prefix_append w cs
    · rw [String.toList_ofList]
      refine ⟨hsome k hk, fun k' v hv hprefix => ?_⟩
      rw [← hw.length]
      exact Lexeme.length_le_of_mem k' hv hprefix
    · rw [String.toList_ofList]
      exact hnone
  · rw [List.mem_singleton.1 ht] at hk
    exact absurd rfl hk

/-- A number goes on with an exponent mark and a sign, even if no digit follows. -/
theorem tokenize_longest_dangling :
    let t : Token := ⟨.number 2.0, "2.e+", 1⟩
    t ∈ tokenize "(2.e+x)" ∧
    (∀ w ∈ Lexeme.numbers, w <+: "2.e+x)".toList → w.length ≤ 4) ∧
    tokenize "2.e+" = [⟨.number 2.0, "2.e+", 0⟩, ⟨.finish, "", 4⟩] := by
  intro t
  have ht : t ∈ tokenize "(2.e+x)" := by decide +kernel
  obtain ⟨⟨pre, rest, hsource, hpre, -, hclass, -⟩, halone⟩ :=
    tokenize_longest "(2.e+x)" t ht (by decide +kernel)
  refine ⟨ht, fun w hw hprefix => ?_, halone⟩
  obtain ⟨-, hlongest⟩ := hclass .number rfl
  -- The text in front of the token is one byte long.
  have hrest : rest = "2.e+x)".toList := by
    rcases pre with _ | ⟨c, pre⟩
    · exact absurd hpre (by decide)
    · have hone : c.utf8Size + bytes pre = 1 := (bytes_cons c pre).symm.trans hpre
      have hpos := c.utf8Size_pos
      have hnil : pre = [] := by
        by_contra hne
        have := bytes_pos hne
        omega
      rw [hnil] at hsource
      exact (List.cons.inj hsource).2.symm
  exact (hlongest .number w hw (hrest ▸ hprefix)).trans (by decide +kernel)

end Calculator
