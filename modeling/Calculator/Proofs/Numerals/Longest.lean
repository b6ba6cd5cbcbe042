import Calculator.Proofs.Doubles.Nearest
import Calculator.Proofs.Numerals

/-!
# The value of a number

A number that is no numeral still starts with one, unless its mantissa has no digit: what is left
over is an exponent without digits. So the longest numeral in front is the whole number or its
mantissa, and the value of the number is the double nearest to what it denotes.

* `IsNumeral p q`: the text `p` is a complete numeral and denotes `q`;
* `LongestNumeral w p q`: `p` is the longest numeral that the text `w` starts with;
* `exists_longest`: what is read from a number is its longest numeral, if it starts with any;
* `number_value`: so this is the value of its token, rounded to the nearest double.
-/

namespace Calculator

open Lexeme

variable {w p p' ds es f e sign : List Char} {q q' : ℚ} {x u : Int} {d : Decimal}

namespace Decimal

/-! ### Complete numerals -/

/-- **A complete exponent**, which has a digit; without one it is zero. -/
inductive IsPower : List Char → Int → Prop
  | none : IsPower [] 0
  | some {mark : Char} {sign ds : List Char} {u : Int} (hmark : isExponentMark mark = true)
      (hsign : IsSign sign u) (hds : ds ∈ Lexeme.digits) (hne : ds ≠ []) :
      IsPower (mark :: (sign ++ ds)) (u * ofDigits ds)

/-- **A complete numeral and the number that it denotes**: digits with an optional point, one digit
at least, and an optional complete exponent. -/
inductive IsNumeral : List Char → ℚ → Prop
  | intro {ds f es e : List Char} {x : Int} (hds : ds ∈ Lexeme.digits) (hf : IsFraction f es)
      (hdigit : ds ≠ [] ∨ es ≠ []) (he : IsPower e x) :
      IsNumeral (ds ++ (f ++ e)) ((ofDigits ds + ofDigits es / 10 ^ es.length) * 10 ^ x)

/-- **The longest numeral that a text starts with.** -/
structure LongestNumeral (w p : List Char) (q : ℚ) : Prop where
  front : p <+: w
  numeral : IsNumeral p q
  longest : ∀ p' q', p' <+: w → IsNumeral p' q' → p'.length ≤ p.length

/-! ### Exponents -/

theorem IsSign.cases (h : IsSign sign u) : sign = [] ∨ sign = ['+'] ∨ sign = ['-'] := by
  cases h <;> simp

theorem IsPower.mem (h : IsPower e x) : e ∈ optional exponents := by
  rcases h with _ | ⟨hmark, hsign, hds, -⟩
  · exact mem_optional.2 (.inl rfl)
  · exact mem_optional.2 (.inr (mem_exponents.2 ⟨_, _, _, hmark, hsign.cases, hds, rfl⟩))

theorem IsPower.read (h : IsPower e x) : readExponent e = x := by
  rcases h with _ | ⟨hmark, hsign, hds, -⟩
  · rfl
  · exact readExponent_signed hmark hsign hds

/-- **An exponent is complete, or it has no digit** and is left aside. -/
theorem isPower_or_dangling (he : e ∈ optional exponents) :
    IsPower e (readExponent e) ∨ (∀ c ∈ e, c.isDigit = false) ∧ readExponent e = 0 := by
  rcases mem_optional.1 he with rfl | he
  · exact .inl .none
  · obtain ⟨mark, sign, ds, hmark, hsign, hds, rfl⟩ := mem_exponents.1 he
    obtain ⟨u, hsign⟩ := exists_isSign hsign
    rw [readExponent_signed hmark hsign hds]
    by_cases hne : ds = []
    · subst hne
      refine .inr ⟨?_, mul_zero u⟩
      rw [List.append_nil, List.forall_mem_cons]
      exact ⟨(not_isDigit_of_isExponentMark hmark).1, by cases hsign <;> simp⟩
    · exact .inl (.some hmark hsign hds hne)

/-! ### Numerals and mantissas -/

theorem mantissa_front (h : p <+: w) : mantissa p <+: mantissa w := by
  obtain ⟨z, rfl⟩ := h
  unfold mantissa
  rw [List.takeWhile_append]
  split
  · exact (List.takeWhile_prefix _).trans (List.prefix_append _ _)
  · exact List.prefix_rfl

theorem any_isDigit_of_ne_nil (h : ds ∈ Lexeme.digits) (hne : ds ≠ []) :
    ds.any Char.isDigit = true :=
  Bool.of_not_eq_false fun hnone =>
    hne (List.isEmpty_iff.1 ((isEmpty_iff_of_mem_digits h).2 hnone))

theorem IsNumeral.digit (h : IsNumeral p q) : (mantissa p).any Char.isDigit = true := by
  obtain ⟨hds, hf, hdigit, he⟩ := h
  obtain ⟨hes, hany⟩ := any_isDigit_of_isFraction hf
  rw [mantissa_append hds hf he.mem, List.any_append, hany, Bool.or_eq_true]
  exact hdigit.imp (any_isDigit_of_ne_nil hds) (any_isDigit_of_ne_nil hes)

theorem IsNumeral.mantissa_or_digit (h : IsNumeral p q) :
    mantissa p = p ∨ ∃ c ∈ p.getLast?, c.isDigit = true := by
  obtain ⟨hds, hf, -, he⟩ := h
  rw [mantissa_append hds hf he.mem]
  rcases he with _ | ⟨hmark, hsign, hes, hne⟩
  · left
    rw [List.append_nil]
  · right
    refine ⟨_, ?_, mem_run.1 hes _ (List.getLast_mem hne)⟩
    rw [← List.append_assoc, ← List.cons_append, ← List.append_assoc, List.getLast?_append,
      List.getLast?_eq_getLast_of_ne_nil hne]
    rfl

/-! ### The longest numeral -/

theorem value_digits (ds es : List Char) (x : Int) :
    value ⟨ofDigits (ds ++ es), x - es.length⟩ =
      (ofDigits ds + ofDigits es / 10 ^ es.length) * 10 ^ x := by
  unfold value
  dsimp only
  rw [ofDigits_append, zpow_sub₀ (by norm_num), zpow_natCast]
  push_cast
  field_simp

theorem IsNumeral.read (h : IsNumeral p q) : ∃ d, readPrefix? p = some d ∧ d.value = q := by
  obtain ⟨hds, hf, hdigit, he⟩ := h
  refine ⟨_, ?_, value_digits _ _ _⟩
  rw [readPrefix?_append hds hf he.mem, he.read, if_neg]
  rw [Bool.and_eq_true, List.isEmpty_iff, List.isEmpty_iff]
  tauto

theorem LongestNumeral.unique (h : LongestNumeral w p q) (h' : LongestNumeral w p' q') :
    p = p' ∧ q = q' := by
  have hlen := (h.longest _ _ h'.front h'.numeral).antisymm (h'.longest _ _ h.front h.numeral)
  obtain rfl : p' = p :=
    (List.prefix_of_prefix_length_le h'.front h.front hlen.le).eq_of_length hlen
  obtain ⟨d, hd, rfl⟩ := h.numeral.read
  obtain ⟨d', hd', rfl⟩ := h'.numeral.read
  rw [Option.some.inj (hd.symm.trans hd')]
  exact ⟨rfl, rfl⟩

theorem length_le_of_dangling (hds : ds ∈ Lexeme.digits) (hf : IsFraction f es)
    (he : e ∈ optional exponents) (hnone : ∀ c ∈ e, c.isDigit = false)
    (hfront : p <+: ds ++ (f ++ e)) (hp : IsNumeral p q) : p.length ≤ (ds ++ f).length := by
  rcases hp.mantissa_or_digit with hself | ⟨c, hc, hdigit⟩
  · have hmantissa := mantissa_front hfront
    rw [hself, mantissa_append hds hf he] at hmantissa
    exact hmantissa.length_le
  · -- A longer one would end inside the exponent, with a digit.
    by_contra hlt
    rw [← List.append_assoc] at hfront
    obtain ⟨z, rfl⟩ := List.prefix_of_prefix_length_le (List.prefix_append (ds ++ f) e) hfront
      (le_of_not_ge hlt)
    have hz : z <+: e := (List.prefix_append_right_inj _).1 hfront
    have hne : z ≠ [] := by
      rintro rfl
      exact hlt (by rw [List.append_nil])
    rw [List.getLast?_append, List.getLast?_eq_getLast_of_ne_nil hne] at hc
    obtain rfl : z.getLast hne = c := by simpa using hc
    rw [hnone _ (hz.subset (List.getLast_mem hne))] at hdigit
    cases hdigit

/-- **What is read from a number is its longest numeral**, and that is the whole number or its
mantissa. -/
theorem exists_longest (h : w ∈ numbers) (hd : readPrefix? w = some d) :
    ∃ p, LongestNumeral w p d.value ∧ (p = w ∨ p = mantissa w) := by
  obtain ⟨ds, f, es, e, hds, hf, he, rfl⟩ := exists_parts h
  rw [readPrefix?_append hds hf he] at hd
  split at hd
  · cases hd
  · next hdigit =>
    rw [Bool.and_eq_true, List.isEmpty_iff, List.isEmpty_iff, not_and_or] at hdigit
    obtain rfl := Option.some.inj hd
    rw [value_digits]
    rcases isPower_or_dangling he with hpower | ⟨hnone, hzero⟩
    · exact ⟨_, ⟨List.prefix_rfl, .intro hds hf hdigit hpower, fun p' q' hfront _ =>
        hfront.length_le⟩, .inl rfl⟩
    · refine ⟨ds ++ f, ⟨?_, ?_, fun p' q' => length_le_of_dangling hds hf he hnone⟩,
        .inr (mantissa_append hds hf he).symm⟩
      · rw [← List.append_assoc]
        exact List.prefix_append _ _
      · rw [hzero]
        have hnumeral := IsNumeral.intro hds hf hdigit .none
        rwa [List.append_nil] at hnumeral

/-- A number from which nothing is read does not start with a numeral. -/
theorem not_isNumeral (h : w ∈ numbers) (hread : readPrefix? w = none) (hfront : p <+: w) (q : ℚ) :
    ¬ IsNumeral p q := by
  intro hp
  have hnone := (readPrefix?_eq_none_iff h).1 hread
  obtain ⟨c, hc, hdigit⟩ := List.any_eq_true.1 hp.digit
  rw [List.any_eq_false] at hnone
  exact hnone c ((mantissa_front hfront).subset hc) hdigit

theorem value_nonneg (d : Decimal) : 0 ≤ d.value := by
  unfold value
  positivity

end Decimal

open Decimal

/-! ### Number tokens -/

section

variable {source : String} {token : Token} {value : Float}

/-- **The value of a number**: the longest complete numeral that its text starts with, rounded to the
nearest double; zero if it starts with none. That numeral is the whole text or the mantissa. -/
theorem number_value (h : token ∈ tokens source) (hk : token.kind = .number value) :
    (∀ p q, LongestNumeral token.text.toList p q →
      Double.CorrectlyRounded value q ∧
        (p = token.text.toList ∨ p = mantissa token.text.toList)) ∧
    ((∀ p q, p <+: token.text.toList → ¬ IsNumeral p q) → value = 0.0) := by
  have hnumber := Grammar.mem_numbers_of_kind h hk
  have hvalue : value = numberValue token.text.toList :=
    TokenKind.ofLexeme_eq_number ((kind_of_mem_tokens h).symm.trans hk)
  rw [numberValue_eq hnumber] at hvalue
  cases hread : readPrefix? token.text.toList with
  | none =>
    rw [hread] at hvalue
    exact ⟨fun p q hp => absurd hp.numeral (not_isNumeral hnumber hread hp.front q),
      fun _ => hvalue⟩
  | some d =>
    rw [hread] at hvalue
    obtain ⟨p, hp, hshape⟩ := exists_longest hnumber hread
    refine ⟨fun p' q' hp' => ?_, fun hnone => absurd hp.numeral (hnone _ _ hp.front)⟩
    obtain ⟨rfl, rfl⟩ := hp.unique hp'
    rw [hvalue]
    exact ⟨(Double.rounds_toFloat d).correctlyRounded d.value_nonneg, hshape⟩

/-- An exponent without digits is left aside, and a tenth is rounded. -/
theorem number_value_tenth :
    let token : Token := ⟨.number 0.1, "0.1e+", 2⟩
    token ∈ tokens "1*0.1e+" ∧ LongestNumeral token.text.toList "0.1".toList (1 / 10) ∧
      Double.CorrectlyRounded 0.1 (1 / 10) := by
  intro token
  have ht : token ∈ tokens "1*0.1e+" := by decide +kernel
  have hds : ['0'] ∈ Lexeme.digits := mem_run.2 (List.forall_mem_singleton.2 rfl)
  have hf : IsFraction ['.', '1'] ['1'] := .some (mem_run.2 (List.forall_mem_singleton.2 rfl))
  have he : ['e', '+'] ∈ optional exponents := mem_optional.2 (.inr (mem_exponents.2
    ⟨'e', ['+'], [], rfl, .inr (.inl rfl), mem_run.2 (List.forall_mem_nil _), rfl⟩))
  have hnumeral := IsNumeral.intro hds hf (.inl (by decide)) .none
  have htenth : ((ofDigits ['0'] : ℚ) + ofDigits ['1'] / 10 ^ ['1'].length) * 10 ^ (0 : Int) =
      1 / 10 := by
    rw [show ofDigits ['0'] = 0 from rfl, show ofDigits ['1'] = 1 from rfl]
    norm_num
  rw [htenth] at hnumeral
  have htext : token.text.toList = ['0'] ++ (['.', '1'] ++ ['e', '+']) := by decide
  have hlongest : LongestNumeral token.text.toList "0.1".toList (1 / 10) := by
    rw [htext, show "0.1".toList = ['0'] ++ (['.', '1'] ++ []) by decide]
    exact ⟨by decide, hnumeral, fun p q => length_le_of_dangling hds hf he (by simp)⟩
  exact ⟨ht, hlongest, ((number_value ht rfl).1 _ _ hlongest).1⟩

end

end Calculator
