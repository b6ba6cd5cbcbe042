import Calculator.Proofs.Doubles.Exactness
import Calculator.Proofs.Grammar.Substitution

/-!
# Two ways to write a power

The operator `^` takes a power as it comes and rejects what is not finite; the function `pow` looks
at its arguments first. For finite arguments they are the same, but for the name that the mistake
gets if a negative power of zero is taken.

* `evaluate_operation`, `evaluate_binary`: two texts that are joined by an operator, or are the
  arguments of a function, give what is computed from their values;
* `PowerLaws a b`: what is relied on about the power of two doubles, which is not computed here;
* `power_operator_function`: the two ways compared.
-/

namespace Calculator

open Grammar Lexeme Double

variable {env : Environment} {A B source : String} {a b : Float}

/-! ### Joined texts -/

theorem evaluate_operation (op : Operator) (hA : evaluate env A = .ok a)
    (hB : evaluate env B = .ok b)
    (h : source.toList =
      '(' :: (A.toList ++ ')' :: op.symbol :: '(' :: (B.toList ++ [')']))) :
    (evaluate env source).mapError Rejection.flaw = op.apply a b := by
  have hsymbol : Leads [op.symbol] ('(' :: (B.toList ++ [')'])) :=
    op.isWord_symbol.leads fun c hc => by
      obtain rfl : '(' = c := by simpa using hc
      decide
  have hwords : (tokens source).map (·.text.toList) =
      (['('] :: (lexemes A.toList ++ [[')']])) ++
        [op.symbol] :: (['('] :: (lexemes B.toList ++ [[')']])) := by
    have hbehind := lexemes_leads hsymbol
    rw [List.singleton_append] at hbehind
    rw [map_text_tokens, h, lexemes_enclosed, hbehind, lexemes_enclosed]
    have hend : lexemes [] = [] := rfl
    simp [hend]
  have hspells : Spells (tokens source) _ := ⟨hwords, fun _ => kind_of_mem_tokens⟩
  obtain ⟨us, vs, hts, hus, hvs⟩ := hspells.append
  obtain ⟨token, vs, rfl, -, hkind, hvs⟩ := hvs.cons
  rw [op.ofLexeme_symbol] at hkind
  obtain ⟨l, rfl, hl⟩ := exists_group hA hus
  obtain ⟨r, rfl, hr⟩ := exists_group hB hvs
  obtain ⟨left, hleft, hevall⟩ := exists_lift l (.chain op.level) (Phrase.rank_le _)
  obtain ⟨right, hright, hevalr⟩ := exists_lift r (operand op.level) (Phrase.rank_le _)
  obtain ⟨t, ht, heval⟩ :=
    exists_lift (.binary left op rfl ⟨token, hkind⟩ right) expression (Nat.zero_le _)
  have htokens : tokens source = t.tokens := by
    rw [hts, ht, Tree.tokens, hleft, hright]
  rw [evaluate_tokens t htokens, heval,
    Tree.eval_binary ((hevall env).trans hl) ((hevalr env).trans hr)]
  cases op.apply a b <;> rfl

theorem evaluate_binary (f : BinaryFunction) (hA : evaluate env A = .ok a)
    (hB : evaluate env B = .ok b)
    (h : source.toList =
      f.name.toList ++ '(' :: (A.toList ++ ',' :: (B.toList ++ [')']))) :
    (evaluate env source).mapError Rejection.flaw = (f.apply a b env.angleUnit).narrow := by
  have hname : Leads f.name.toList ('(' :: (A.toList ++ ',' :: (B.toList ++ [')']))) :=
    (Function.isWord_name (.binary f)).1.leads fun c hc => by
      obtain rfl : '(' = c := by simpa using hc
      decide
  have hwords : (tokens source).map (·.text.toList) = f.name.toList ::
      ['('] :: (lexemes A.toList ++ [','] :: (lexemes B.toList ++ [[')']])) := by
    rw [map_text_tokens, h, lexemes_leads hname, lexemes_single (by decide) (by decide),
      lexemes_append (by decide), lexemes_single (by decide) (by decide),
      lexemes_append (by decide), lexemes_single (by decide) (by decide)]
    rfl
  have hspells : Spells (tokens source) _ := ⟨hwords, fun _ => kind_of_mem_tokens⟩
  obtain ⟨name, ts, hts, -, hkind, hspells⟩ := hspells.cons
  obtain ⟨opening, us, rfl, -, hopening, hus⟩ := hspells.cons
  obtain ⟨us, vs, rfl, hfirst, hvs⟩ := hus.append
  obtain ⟨comma, vs, rfl, -, hcomma, hvs⟩ := hvs.cons
  obtain ⟨vs, ws, rfl, hsecond, hws⟩ := hvs.append
  obtain ⟨closing, rfl, -, hclosing⟩ := hws.singleton
  have hkind : name.kind = .function (.binary f) :=
    hkind.trans (Function.ofLexeme_name (.binary f))
  have hopening : opening.kind = .leftParen := hopening
  have hcomma : comma.kind = .comma := hcomma
  have hclosing : closing.kind = .rightParen := hclosing
  obtain ⟨x, rfl, hx⟩ := exists_expression hA hfirst
  obtain ⟨y, rfl, hy⟩ := exists_expression hB hsecond
  have hitem : (Tree.item x).eval env = .ok [a] := by
    rw [Tree.eval, hx]
    rfl
  have hitems : (Tree.someItems (.more (.item x) ⟨comma, hcomma⟩ y) ⟨closing, hclosing⟩).eval env =
      .ok [a, b] := by
    rw [Tree.eval, Tree.eval_more hitem, hy]
    rfl
  obtain ⟨t, ht, heval⟩ := exists_lift (.call (.binary f) ⟨name, hkind⟩ ⟨opening, hopening⟩
    (.someItems (.more (.item x) ⟨comma, hcomma⟩ y) ⟨closing, hclosing⟩)) expression (Nat.zero_le _)
  have htokens : tokens source = t.tokens := by
    rw [hts, ht]
    simp [Tree.tokens]
  rw [evaluate_tokens t htokens, heval, Tree.eval_call hitems]
  show (((f.apply a b env.angleUnit).narrow.mapError _).mapError _ : Except Flaw Float) = _
  cases (f.apply a b env.angleUnit).narrow <;> rfl

/-! ### Powers -/

/-- **What is relied on about the power of two doubles**: a power of a negative number with an
exponent that is no integer is no number, and a negative power of zero is infinite. -/
structure PowerLaws (a b : Float) : Prop where
  nan : a.isFinite = true → a < 0.0 → ∀ q, HasValue b q → (∀ n : Int, q ≠ n) →
    (a.pow b).isNaN = true
  infinite : (a == 0.0) = true → b < 0.0 → (a.pow b).isInf = true

theorem apply_pow_of_not_isFinite (h : (a.pow b).isFinite = false) :
    Operator.apply .pow a b = .error .domainError := if_neg (by simp [h])

theorem PowerLaws.apply_of_zero (h : PowerLaws a b) (ha : (a == 0.0) = true) (hb : b < 0.0) :
    Operator.apply .pow a b = .error .domainError :=
  apply_pow_of_not_isFinite (isFinite_of_isInf (h.infinite ha hb))

theorem PowerLaws.apply_of_neg (h : PowerLaws a b) (ha : a.isFinite = true) (hb : b.isFinite = true)
    (hneg : a < 0.0) (hintegral : Double.isIntegral b = false) :
    Operator.apply .pow a b = .error .domainError := by
  refine apply_pow_of_not_isFinite (isFinite_of_isNaN ?_)
  refine h.nan ha hneg (exact b) ⟨hb, rfl⟩ fun n hn => ?_
  have hvalue : HasValue b n := ⟨hb, hn⟩
  rw [hvalue.isIntegral] at hintegral
  cases hintegral

/-- **The function does what the operator does**, except for the negative powers of zero. -/
theorem PowerLaws.narrow_power (h : PowerLaws a b) (ha : a.isFinite = true)
    (hb : b.isFinite = true) : (Arithmetic.power a b).narrow =
      if (a == 0.0) = true ∧ b < 0.0 then .error .divisionByZero else Operator.apply .pow a b := by
  unfold Arithmetic.power
  by_cases hzero : (a == 0.0) = true ∧ b < 0.0
  · rw [if_pos (by simp [hzero]), if_pos hzero]
    rfl
  · rw [if_neg (by simpa using hzero), if_neg hzero]
    by_cases hreal : a < 0.0 ∧ Double.isIntegral b = false
    · rw [if_pos (by simpa using hreal), h.apply_of_neg ha hb hreal.1 hreal.2]
      rfl
    · rw [if_neg (by simpa using hreal)]
      unfold checked Operator.apply
      split <;> rfl

theorem flaw_of_apply_pow {flaw : Flaw} (h : Operator.apply .pow a b = .error flaw) :
    flaw = .domainError := by
  rcases Operator.flaw_of_apply h with hflaw | ⟨-, hop, -⟩
  · exact hflaw
  · simp at hop

theorem operator_text (A B : String) : ("(" ++ A ++ ")^(" ++ B ++ ")").toList =
    '(' :: (A.toList ++ ')' :: Operator.pow.symbol :: '(' :: (B.toList ++ [')'])) := by
  simp [Operator.symbol]

theorem function_text (A B : String) : ("pow(" ++ A ++ "," ++ B ++ ")").toList =
    BinaryFunction.power.name.toList ++ '(' :: (A.toList ++ ',' :: (B.toList ++ [')'])) := by
  simp [BinaryFunction.name]

/-- **The operator `^` agrees with the function `pow`**: on texts with finite values both have the
same value, or none. The operator is only ever rejected for a domain error, and so is the function,
except for the negative powers of zero, which it counts as divisions. -/
theorem power_operator_function (env : Environment) (A B : String) (a b : Float)
    (hA : evaluate env A = .ok a) (hB : evaluate env B = .ok b) (ha : a.isFinite = true)
    (hb : b.isFinite = true) (hpow : PowerLaws a b) :
    (∀ v, evaluate env ("(" ++ A ++ ")^(" ++ B ++ ")") = .ok v ↔
      evaluate env ("pow(" ++ A ++ "," ++ B ++ ")") = .ok v) ∧
    (∀ r, evaluate env ("(" ++ A ++ ")^(" ++ B ++ ")") = .error r → r.flaw = .domainError) ∧
    (∀ r, evaluate env ("pow(" ++ A ++ "," ++ B ++ ")") = .error r →
      r.flaw = if (a == 0.0) = true ∧ b < 0.0 then .divisionByZero else .domainError) ∧
    ((a == 0.0) = true ∧ b < 0.0 →
      (∃ r, evaluate env ("(" ++ A ++ ")^(" ++ B ++ ")") = .error r) ∧
      ∃ r, evaluate env ("pow(" ++ A ++ "," ++ B ++ ")") = .error r) := by
  have hoperator := evaluate_operation .pow hA hB (operator_text A B)
  have hfunction := (evaluate_binary .power hA hB (function_text A B)).trans
    (hpow.narrow_power ha hb)
  refine ⟨fun v => ?_, fun r hr => ?_, fun r hr => ?_, fun hzero => ⟨?_, ?_⟩⟩
  · have hvalue (source : String) : evaluate env source = .ok v ↔
        (evaluate env source).mapError Rejection.flaw = .ok v := mapError_eq_ok.symm
    rw [hvalue, hvalue, hoperator, hfunction]
    split
    · next hzero =>
      rw [hpow.apply_of_zero hzero.1 hzero.2]
      simp
    · rfl
  · rw [hr] at hoperator
    exact flaw_of_apply_pow hoperator.symm
  · rw [hr] at hfunction
    split at hfunction
    · next hzero =>
      rw [if_pos hzero]
      exact Except.error.inj hfunction
    · next hzero =>
      rw [if_neg hzero]
      exact flaw_of_apply_pow hfunction.symm
  · rw [hpow.apply_of_zero hzero.1 hzero.2] at hoperator
    obtain ⟨r, hr, -⟩ := mapError_eq_error.1 hoperator
    exact ⟨r, hr⟩
  · rw [if_pos hzero] at hfunction
    obtain ⟨r, hr, -⟩ := mapError_eq_error.1 hfunction
    exact ⟨r, hr⟩

/-- A negative number has the powers with integral exponents. -/
theorem power_operator_function_cube :
    PowerLaws (-8.0) 3.0 ∧ ∀ v, evaluate {} ("(" ++ "0-8" ++ ")^(" ++ "3" ++ ")") = .ok v ↔
      evaluate {} ("pow(" ++ "0-8" ++ "," ++ "3" ++ ")") = .ok v := by
  have hthree : exact 3.0 = (3 : Int) := by
    have hparts : parts 3.0 = .finite .positive (3 * 2 ^ 51) (-51) (by decide) := rfl
    rw [exact_of_parts hparts]
    norm_num [Float.Model.UnpackedFloat.Sign.apply]
  have hlaws : PowerLaws (-8.0) 3.0 := by
    refine ⟨fun _ _ q hq hne => ?_, fun hzero => ?_⟩
    · exact absurd (hq.value.symm.trans hthree) (hne 3)
    · exact absurd hzero (by decide)
  exact ⟨hlaws, (power_operator_function {} "0-8" "3" (-8.0) 3.0 (by decide +kernel)
    (by decide +kernel) (by decide) (by decide) hlaws).1⟩

end Calculator
