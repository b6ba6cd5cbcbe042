import Calculator.Proofs.Decimals.Digits
import Calculator.Proofs.Decimals.Shortest
import Calculator.Proofs.Display.Limits
import Calculator.Proofs.Grammar.Whole
import Calculator.Proofs.Numerals.Parts

/-!
# What is displayed can be typed in again

The text of a result is an expression, a number that can have a sign, and its value is the result.
Seventeen significant digits are enough for every double; whole numbers that are displayed in full
need no precision at all.

* `tokens_number`, `tokens_minus`: a numeral is one token, with a sign it is two;
* `Identifies t m e`: the text `t` is a numeral that is near to `m · 2 ^ e`;
* `evaluate_signed`: such a text, with the sign of a double, has the double as its value;
* `exists_display`: what is displayed is such a text;
* `evaluate_display`: so every result can be typed in again.
-/

namespace Calculator

open Float.Model.UnpackedFloat (Sign)
open Double (parts ofParts signText display display? toDecimal)
open Decimal (Denotes digits)

variable {env : Environment} {t : List Char} {v : Float} {s : Sign} {m n p places : Nat} {e : Int}
  {hm : 0 < m}

/-! ### Tokens -/

namespace Lexeme

theorem leads_number (h : t ∈ numbers) : Leads t [] := by
  obtain ⟨hne, hlen⟩ := mem_numbers_iff.1 h
  have hpos := List.length_pos_iff.2 hne
  refine ⟨fun c hc => ?_, ?_⟩
  · have hmem : c ∈ t.take (numberLength t) := by
      rw [hlen, List.take_length]
      exact List.mem_of_mem_head? hc
    have hpart := isPart_of_mem_number hmem
    by_contra hblank
    rw [isPart_of_isBlank (Bool.eq_true_of_not_eq_false hblank)] at hpart
    cases hpart
  · rw [List.append_nil, Lexeme.length, if_pos (by omega), hlen]

theorem ofLexeme_number (h : t ∈ numbers) : TokenKind.ofLexeme t = .number (numberValue t) := by
  obtain ⟨hne, hlen⟩ := mem_numbers_iff.1 h
  have hpos := List.length_pos_iff.2 hne
  exact if_pos (by omega)

theorem leads_minus (cs : List Char) : Leads ['-'] cs := by
  refine ⟨fun c hc => ?_, rfl⟩
  obtain rfl : '-' = c := by simpa using hc
  rfl

end Lexeme

/-- The token of a numeral that starts at a byte. -/
def numberToken (t : List Char) (offset : Nat) : Token :=
  ⟨.number (Lexeme.numberValue t), String.ofList t, offset⟩

/-- The token of a sign in front of everything. -/
def minusToken : Token := ⟨.operator .sub, "-", 0⟩

theorem tokens_number (h : t ∈ Lexeme.numbers) :
    tokens (String.ofList t) = [numberToken t 0] := by
  rw [tokens, String.toList_ofList, scan_lexeme (Lexeme.leads_number h), Lexeme.ofLexeme_number h]
  rfl

theorem tokens_minus (h : t ∈ Lexeme.numbers) :
    tokens (String.ofList ('-' :: t)) = [minusToken, numberToken t 1] := by
  have hminus := scan_leads (Lexeme.leads_minus t) 0
  rw [scan_lexeme (Lexeme.leads_number h), Lexeme.ofLexeme_number h] at hminus
  rw [tokens, String.toList_ofList]
  exact hminus

/-! ### Values -/

/-- The tree of a numeral. -/
def numberTree (t : List Char) (offset : Nat) (h : t.any Char.isDigit = true) :
    Grammar.Tree (.phrase .primary) :=
  .number (numberToken t offset) (Lexeme.numberValue t) rfl
    (by rw [numberToken, String.toList_ofList]; exact h)

/-- A primary expression as a whole one. -/
def wholeTree (t : Grammar.Tree (.phrase .primary)) : Grammar.Tree (.phrase Grammar.expression) :=
  .single (.single (.single t))

theorem evaluate_number (ht : t ∈ Lexeme.numbers) (hdigit : t.any Char.isDigit = true)
    (hfinite : (Lexeme.numberValue t).isFinite = true) :
    evaluate env (String.ofList t) = .ok (Lexeme.numberValue t) := by
  rw [Grammar.evaluate_tokens (wholeTree (numberTree t 0 hdigit)) (tokens_number ht)]
  exact if_pos hfinite

theorem evaluate_minus (ht : t ∈ Lexeme.numbers) (hdigit : t.any Char.isDigit = true)
    (hfinite : (Lexeme.numberValue t).isFinite = true) :
    evaluate env (String.ofList ('-' :: t)) = .ok (-Lexeme.numberValue t) := by
  have hnumber : (numberTree t 1 hdigit).eval env = .ok (Lexeme.numberValue t) := if_pos hfinite
  rw [Grammar.evaluate_tokens
    (wholeTree (.negative ⟨minusToken, rfl⟩ (numberTree t 1 hdigit))) (tokens_minus ht)]
  show (do return -(← (numberTree t 1 hdigit).eval env)) = _
  rw [hnumber]
  rfl

/-- **A numeral that identifies the double `m · 2 ^ e`**: what it denotes is off by one part in
`2 · 10 ^ 16` at most. -/
def Identifies (t : List Char) (m : Nat) (e : Int) : Prop :=
  ∃ q : ℚ, Denotes t q ∧ |q - m * 2 ^ e| ≤ m * 2 ^ e / (2 * 10 ^ 16)

theorem numberValue_of_identifies (hc : Double.Canonical m e) (h : Identifies t m e) :
    Lexeme.numberValue t = ofParts (.finite .positive m e hc.pos) := by
  obtain ⟨_, ⟨ht, -, d, hread, rfl⟩, hnear⟩ := h
  rw [Lexeme.numberValue_eq ht, hread]
  exact (Double.inInterval_of_near hc hnear).toFloat_eq hc

/-- **A numeral that identifies a double, with its sign, has it as its value.** -/
theorem evaluate_signed (hv : parts v = .finite s m e hm) (h : Identifies t m e) :
    evaluate env (String.ofList (signText s ++ t)) = .ok v := by
  have hc := Double.canonical_of_parts hv
  have hvalue := numberValue_of_identifies hc h
  have hparts := Double.parts_ofParts_finite hc .positive
  have hfinite : (Lexeme.numberValue t).isFinite = true := by
    rw [hvalue, Double.isFinite_eq, hparts]
    rfl
  obtain ⟨_, ⟨ht, hdigit, -⟩, -⟩ := h
  rw [← Double.ofParts_parts v, hv]
  cases s with
  | positive => exact (evaluate_number ht hdigit hfinite).trans (congrArg _ hvalue)
  | negative =>
    refine (evaluate_minus ht hdigit hfinite).trans (congrArg _ ?_)
    show ofParts (parts (Lexeme.numberValue t)).neg = _
    rw [hvalue, hparts]
    rfl

/-! ### What is displayed -/

theorem identifies_digits (h : (m : ℚ) * 2 ^ e = n) : Identifies (digits n) m e := by
  refine ⟨n, Decimal.denotes_nat n, ?_⟩
  rw [h, sub_self, abs_zero]
  positivity

/-- **Seventeen significant digits are near enough.** -/
theorem value_toDecimal (hm : 0 < m) (hplaces : 16 ≤ places) :
    |(toDecimal m e places).value - m * 2 ^ e| ≤ m * 2 ^ e / (2 * 10 ^ 16) := by
  have hnum : 0 < m * twoTo e := Nat.mul_pos hm (twoTo_pos e)
  have hnear := Decimal.abs_value_ofRatio_sub_le hnum (twoTo_pos (-e)) places
  rw [mul_twoTo_div] at hnear
  refine hnear.trans ?_
  gcongr
  norm_num

/-- **A double is displayed as its sign and a numeral that identifies it**, with seventeen
significant digits or as a whole number. -/
theorem exists_display (hv : parts v = .finite s m e hm)
    (hp : 17 ≤ p ∨ ∃ k : Int, Double.exact v = k ∧ k.natAbs < 10 ^ 15) :
    ∃ t, display v p = String.ofList (signText s ++ t) ∧ Identifies t m e := by
  rcases hp with hp | ⟨k, hk, hlt⟩
  · rcases display_cases hv p with ⟨n, hn, htext⟩ | htext | htext
    · exact ⟨_, htext, identifies_digits hn⟩
    · exact ⟨_, htext, _, Decimal.denotes_scientific Decimal.keepsValue_id _,
        value_toDecimal hm (by omega)⟩
    · exact ⟨_, htext, _, denotes_displayGeneral .., value_toDecimal hm (by omega)⟩
  · refine ⟨_, display_whole hv hk hlt, identifies_digits ?_⟩
    rw [← Double.abs_exact hv, hk, Nat.cast_natAbs, Int.cast_abs]

/-! ### Typing results in again -/

theorem evaluate_zero : evaluate env "0" = .ok 0.0 := rfl

/-- **Display and input agree.** The text of a finite double is an expression with that value, with
a precision of seventeen or more, and with any precision if it is a whole number below `10 ^ 15`.
There is a text up to the precision `65532`, and for those whole numbers always. -/
theorem evaluate_display (env : Environment) (v : Float) (p : Nat) (hv : v.isFinite = true)
    (hp : 17 ≤ p ∨ ∃ k : Int, Double.exact v = k ∧ k.natAbs < 10 ^ 15) :
    (∀ text, display? v p = some text →
      ∃ w, evaluate env text = .ok w ∧ (w == v) = true) ∧
    ((p ≤ 65532 ∨ ∃ k : Int, Double.exact v = k ∧ k.natAbs < 10 ^ 15) →
      (display? v p).isSome = true) := by
  cases h : parts v with
  | notANumber | infinity s =>
    rw [Double.isFinite_eq, h] at hv
    cases hv
  | zero s =>
    rw [display?_zero h, display_zero h]
    refine ⟨?_, fun _ => rfl⟩
    rintro _ ⟨⟩
    refine ⟨0.0, evaluate_zero, ?_⟩
    show (parts 0.0).beq (parts v) = true
    rw [h]
    cases s <;> rfl
  | finite s m e hm =>
    refine ⟨fun text htext => ?_, ?_⟩
    · obtain ⟨t, hdisplay, ht⟩ := exists_display h hp
      refine ⟨v, ?_, (Double.beq_iff h).2 rfl⟩
      rw [eq_display htext, hdisplay, evaluate_signed h ht]
    · rintro (hle | ⟨k, hk, hlt⟩)
      · rw [display?_of_le v hle]
        rfl
      · rw [display?_whole h hk hlt]
        rfl

theorem evaluate_display_tenth :
    (0.1 : Float).isFinite = true ∧ Double.exact (-3.0) = (-3 : Int) ∧
      display? 0.1 17 = some "0.10000000000000001" ∧
      (∃ w, evaluate {} "0.10000000000000001" = .ok w ∧ (w == 0.1) = true) ∧
      (display? (-3.0) 70000).isSome = true ∧
      ∃ w, evaluate {} "-3" = .ok w ∧ (w == -3.0) = true := by
  have hparts : parts (-3.0) = .finite .negative (3 * 2 ^ 51) (-51) (by decide) := rfl
  have hexact : Double.exact (-3.0) = (-3 : Int) := by
    rw [Double.exact_of_parts hparts]
    norm_num [Sign.apply]
  have htext : display? 0.1 17 = some "0.10000000000000001" := by rfl
  have hwhole : ∃ k : Int, Double.exact (-3.0) = k ∧ k.natAbs < 10 ^ 15 := ⟨-3, hexact, by decide⟩
  exact ⟨rfl, hexact, htext, (evaluate_display {} 0.1 17 rfl (Or.inl (Nat.le_refl _))).1 _ htext,
    (evaluate_display {} (-3.0) 70000 rfl (Or.inr hwhole)).2 (Or.inr hwhole),
    (evaluate_display {} (-3.0) 0 rfl (Or.inr hwhole)).1 "-3" (by rfl)⟩

end Calculator
