import Calculator.Proofs.Grammar.Whole
import Calculator.Proofs.Numerals.Parts

/-!
# Which numbers are numerals

The class of numbers is wider than the numerals: there can be no digit on either side of the point,
and none after the exponent mark. A number is a numeral if its mantissa, the part in front of the
mark, has a digit (`readPrefix?_eq_none_iff`). In the place of a primary the test is whether there
is a digit anywhere (`primary_number`), so a number whose only digits are those of its exponent is
accepted, and counts as zero.
-/

namespace Calculator

variable {w ds es f e : List Char}

open Lexeme

namespace Decimal

/-- **A number is a numeral if its mantissa has a digit.** -/
theorem readPrefix?_eq_none_iff (h : w ∈ numbers) :
    readPrefix? w = none ↔ (mantissa w).any Char.isDigit = false := by
  obtain ⟨ds, f, es, e, hds, hf, he, rfl⟩ := exists_parts h
  obtain ⟨hes, hany⟩ := any_isDigit_of_isFraction hf
  rw [mantissa_append hds hf he, List.any_append, Bool.or_eq_false_iff, hany,
    ← isEmpty_iff_of_mem_digits hds, ← isEmpty_iff_of_mem_digits hes, ← Bool.and_eq_true,
    readPrefix?_append hds hf he]
  split <;> simp [*]

end Decimal

/-! ### Numbers in the place of a primary -/

namespace Grammar

open Rule (outcome)

variable {env : Environment} {source : String} {token : Token} {value : Float} {ts : List Token}
  {n : Nat}

theorem mem_numbers_of_kind (h : token ∈ tokens source) (hk : token.kind = .number value) :
    token.text.toList ∈ numbers := by
  obtain ⟨pre, w, post, -, hw, rfl⟩ := exists_leads_of_mem_tokens h
  have hk : TokenKind.ofLexeme w = .number value := hk
  rw [String.toList_ofList]
  exact (class_ofLexeme hw).1 .number (by rw [hk]; rfl)

theorem evaluate_ne_ok (h : token ∈ tokens source) (hk : token.kind = .number value)
    (hdigit : token.text.toList.any Char.isDigit = false) (v : Float) :
    evaluate env source ≠ .ok v := by
  intro hv
  obtain ⟨t, ht, -⟩ := evaluate_eq_ok_iff.1 hv
  have hleaf : IsLeaf token := t.isLeaf (ht ▸ h)
  unfold IsLeaf at hleaf
  rw [hk] at hleaf
  rw [hdigit] at hleaf
  cases hleaf

theorem outcome_literal (hk : token.kind = .number value) :
    outcome (phrase env .primary) ⟨token :: ts, n⟩ =
      if token.text.toList.any Char.isDigit = false then
        .error ⟨.malformedNumber token.text, token.offset⟩
      else if value.isFinite then .ok (value, ⟨ts, n⟩)
      else .error ⟨.numberOutOfRange token.text, token.offset⟩ := by
  have hliteral : phrase env .primary ⟨token :: ts, n⟩ =
      Rule.literal token value ⟨token :: ts, n⟩ := by
    rw [primary_cons, hk]
  rw [Rule.outcome_congr hliteral]
  unfold Rule.literal
  cases token.text.toList.any Char.isDigit with
  | false => rfl
  | true =>
    cases value.isFinite with
    | false => rfl
    | true => rfl

/-- **Which numbers are read in the place of a primary**: those with a digit, if they are finite.
One without a digit also leaves the whole text without a value. One whose mantissa has a digit is
read as a numeral, any other counts as zero. -/
theorem primary_number (env : Environment) (ts : List Token) (n : Nat)
    (h : token ∈ tokens source) (hk : token.kind = .number value) :
    (token.text.toList.any Char.isDigit = false →
      outcome (phrase env .primary) ⟨token :: ts, n⟩ =
        .error ⟨.malformedNumber token.text, token.offset⟩ ∧
      ∀ v, evaluate env source ≠ .ok v) ∧
    (token.text.toList.any Char.isDigit = true →
      outcome (phrase env .primary) ⟨token :: ts, n⟩ =
        if value.isFinite then .ok (value, ⟨ts, n⟩)
        else .error ⟨.numberOutOfRange token.text, token.offset⟩) ∧
    ((mantissa token.text.toList).any Char.isDigit = true →
      ∃ d, Decimal.readPrefix? token.text.toList = some d ∧ value = d.toFloat) ∧
    ((mantissa token.text.toList).any Char.isDigit = false →
      Decimal.readPrefix? token.text.toList = none ∧ value = 0.0) := by
  have hvalue : value = numberValue token.text.toList :=
    TokenKind.ofLexeme_eq_number ((kind_of_mem_tokens h).symm.trans hk)
  have hnone := Decimal.readPrefix?_eq_none_iff (mem_numbers_of_kind h hk)
  rw [outcome_literal hk, hvalue, numberValue_eq (mem_numbers_of_kind h hk)]
  refine ⟨fun hdigit => ⟨if_pos hdigit, evaluate_ne_ok h hk hdigit⟩,
    fun hdigit => if_neg (by simp [hdigit]), fun hmantissa => ?_, fun hmantissa => ?_⟩
  · obtain ⟨d, hd⟩ : ∃ d, Decimal.readPrefix? token.text.toList = some d :=
      Option.ne_none_iff_exists'.1 fun hread => by simp [hnone.1 hread] at hmantissa
    rw [hd]
    exact ⟨d, rfl, rfl⟩
  · rw [hnone.2 hmantissa]
    exact ⟨rfl, rfl⟩

/-- The digits of an exponent are enough for a number to be read, though it is no numeral. -/
theorem primary_number_exponent :
    let token : Token := ⟨.number 0.0, ".e5", 2⟩
    token ∈ tokens "1+.e5" ∧ (mantissa token.text.toList).any Char.isDigit = false ∧
    Decimal.readPrefix? token.text.toList = none ∧
    outcome (phrase {} .primary) ⟨[token], 5⟩ = .ok (0.0, ⟨[], 5⟩) := by
  intro token
  have ht : token ∈ tokens "1+.e5" := by decide +kernel
  have hmantissa : (mantissa token.text.toList).any Char.isDigit = false := by decide
  obtain ⟨-, hdigit, -, hnone⟩ := primary_number {} [] 5 ht rfl
  exact ⟨ht, hmantissa, (hnone hmantissa).1, hdigit (by decide)⟩

/-- A text that is no numeral has a value. -/
theorem evaluate_exponent_alone :
    tokens ".e5" = [⟨.number 0.0, ".e5", 0⟩] ∧ Decimal.readPrefix? ".e5".toList = none ∧
    (mantissa ".e5".toList).any Char.isDigit = false ∧ evaluate {} ".e5" = .ok 0.0 := by
  refine ⟨?_, ?_, ?_, ?_⟩ <;> decide +kernel

end Grammar

end Calculator
