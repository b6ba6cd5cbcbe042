import Calculator.Proofs.Decimals.Reading

/-!
# The parts of a number

A number is digits, a fraction and an exponent, each of which may be missing, and its mantissa is all
but the exponent. What is read from its front is read from the whole number or, if the exponent has no
digit, from the mantissa.

* `exists_parts`, `mantissa_append`: the parts of a number;
* `readPrefix?_append`, `read?_append`: what is read from the parts;
* `readExponent?_cases`: the exponent is read as a whole, or it has no digit and counts as zero;
* `numberValue_eq`: so the value of a number is that of the longest numeral in front of it.
-/

namespace Calculator

variable {w ds es f e sign : List Char} {u : Int}

/-! ### Mantissas -/

namespace Lexeme

/-- The text of a fraction, which may be missing, and its digits. -/
inductive IsFraction : List Char → List Char → Prop
  | none : IsFraction [] []
  | some {es : List Char} (h : es ∈ digits) : IsFraction ('.' :: es) es

theorem exists_parts (h : w ∈ numbers) : ∃ ds f es e, ds ∈ digits ∧ IsFraction f es ∧
    e ∈ optional exponents ∧ w = ds ++ (f ++ e) := by
  obtain ⟨ds, f, e, hds, hf, he, -, rfl⟩ := mem_numbers.1 h
  rcases mem_optional.1 hf with rfl | hf
  · exact ⟨ds, [], [], e, hds, .none, he, rfl⟩
  · obtain ⟨es, hes, rfl⟩ := mem_fractions.1 hf
    exact ⟨ds, _, es, e, hds, .some hes, he, rfl⟩

theorem not_isExponentMark_of_isDigit {c : Char} (h : c.isDigit = true) :
    Decimal.isExponentMark c = false := by
  rw [Bool.eq_false_iff]
  intro hmark
  rw [(not_isDigit_of_isExponentMark hmark).1] at h
  cases h

theorem mantissa_exponent (he : e ∈ optional exponents) : mantissa e = [] := by
  rcases mem_optional.1 he with rfl | he
  · rfl
  · obtain ⟨mark, sign, ds, hmark, -, -, rfl⟩ := mem_exponents.1 he
    exact List.takeWhile_cons_of_neg (by simp [hmark])

theorem mantissa_append_digits (hds : ds ∈ digits) (e : List Char) :
    mantissa (ds ++ e) = ds ++ mantissa e :=
  List.takeWhile_append_of_pos fun c hc => by
    simp [not_isExponentMark_of_isDigit (mem_run.1 hds c hc)]

theorem mantissa_append_fraction (hf : IsFraction f es) (e : List Char) :
    mantissa (f ++ e) = f ++ mantissa e := by
  rcases hf with _ | hes
  · rfl
  · show mantissa ('.' :: (es ++ e)) = '.' :: (es ++ mantissa e)
    rw [← mantissa_append_digits hes]
    exact List.takeWhile_cons_of_pos (by decide)

theorem mantissa_append (hds : ds ∈ digits) (hf : IsFraction f es)
    (he : e ∈ optional exponents) : mantissa (ds ++ (f ++ e)) = ds ++ f := by
  rw [mantissa_append_digits hds, mantissa_append_fraction hf, mantissa_exponent he,
    List.append_nil]

theorem head_of_isFraction (hf : IsFraction f es) (he : e ∈ optional exponents) :
    ∀ c ∈ (f ++ e).head?, c.isDigit = false := by
  rcases hf with _ | -
  · exact fun c hc => (head_of_mem_exponents he c hc).1
  · intro c hc
    obtain rfl : '.' = c := by simpa using hc
    rfl

end Lexeme

open Lexeme

namespace Decimal

theorem readFraction_of_ne {c : Char} (hc : c ≠ '.') (e : List Char) :
    readFraction (c :: e) = ([], c :: e) := by
  unfold readFraction
  split
  · next h => exact absurd (List.cons.inj h).1 hc
  · rfl

theorem readFraction_append (hf : IsFraction f es) (he : e ∈ optional exponents) :
    readFraction (f ++ e) = (es, e) := by
  have hhead := head_of_mem_exponents he
  rcases hf with _ | hes
  · rcases e with _ | ⟨c, e⟩
    · rfl
    · exact readFraction_of_ne (hhead c rfl).2 e
  · exact span_append (mem_run.1 hes) fun c hc => (hhead c hc).1

theorem isEmpty_iff_of_mem_digits (h : ds ∈ Lexeme.digits) :
    ds.isEmpty = true ↔ ds.any Char.isDigit = false := by
  rcases ds with _ | ⟨c, ds⟩
  · exact iff_of_true rfl rfl
  · have hc := mem_run.1 h c (List.mem_cons_self ..)
    exact iff_of_false Bool.false_ne_true (by simp [hc])

theorem any_isDigit_of_isFraction (hf : IsFraction f es) :
    es ∈ Lexeme.digits ∧ f.any Char.isDigit = es.any Char.isDigit := by
  rcases hf with _ | hes
  · exact ⟨mem_run.2 (List.forall_mem_nil _), rfl⟩
  · exact ⟨hes, rfl⟩

/-- **The parts of a number are read off**, if there is a digit in front of the exponent. -/
theorem readPrefix?_append (hds : ds ∈ Lexeme.digits) (hf : IsFraction f es)
    (he : e ∈ optional exponents) : readPrefix? (ds ++ (f ++ e)) =
      if ds.isEmpty && es.isEmpty then none
      else some ⟨ofDigits (ds ++ es), readExponent e - es.length⟩ := by
  unfold readPrefix?
  simp only [span_append (mem_run.1 hds) (head_of_isFraction hf he), readFraction_append hf he]

/-! ### Exponents -/

/-- The sign of an exponent, which may be missing. -/
inductive IsSign : List Char → Int → Prop
  | none : IsSign [] 1
  | plus : IsSign ['+'] 1
  | minus : IsSign ['-'] (-1)

theorem exists_isSign (h : sign = [] ∨ sign = ['+'] ∨ sign = ['-']) : ∃ u, IsSign sign u := by
  rcases h with rfl | rfl | rfl
  · exact ⟨_, .none⟩
  · exact ⟨_, .plus⟩
  · exact ⟨_, .minus⟩

theorem takeWhile_digits (h : ds ∈ Lexeme.digits) : ds.takeWhile Char.isDigit = ds :=
  List.takeWhile_eq_self_iff.2 (mem_run.1 h)

theorem readExponent_signed {mark : Char} (hmark : isExponentMark mark = true)
    (hsign : IsSign sign u) (hds : ds ∈ Lexeme.digits) :
    readExponent (mark :: (sign ++ ds)) = u * ofDigits ds := by
  unfold readExponent
  dsimp only
  rw [if_pos hmark]
  cases hsign with
  | none =>
    rw [List.nil_append, one_mul]
    split
    · exact absurd (mem_run.1 hds _ (List.mem_cons_self ..)) (by decide)
    · exact absurd (mem_run.1 hds _ (List.mem_cons_self ..)) (by decide)
    · rw [takeWhile_digits hds]
  | plus =>
    show ((ofDigits (ds.takeWhile Char.isDigit) : Nat) : Int) = _
    rw [takeWhile_digits hds, one_mul]
  | minus =>
    show -((ofDigits (ds.takeWhile Char.isDigit) : Nat) : Int) = _
    rw [takeWhile_digits hds, neg_one_mul]

theorem readDigits?_eq (h : ds ∈ Lexeme.digits) :
    readDigits? ds = if ds.isEmpty then none else some (ofDigits ds) := by
  have hall : ds.all Char.isDigit = true := List.all_eq_true.2 (mem_run.1 h)
  unfold readDigits?
  rw [hall, Bool.and_true]
  cases ds.isEmpty <;> rfl

theorem readExponent?_signed {mark : Char} (hmark : isExponentMark mark = true)
    (hsign : IsSign sign u) (hds : ds ∈ Lexeme.digits) :
    readExponent? (mark :: (sign ++ ds)) = (readDigits? ds).map fun n => u * n := by
  unfold readExponent?
  dsimp only
  rw [if_pos hmark]
  cases hsign with
  | none =>
    simp only [List.nil_append, one_mul]
    split
    · exact absurd (mem_run.1 hds _ (List.mem_cons_self ..)) (by decide)
    · exact absurd (mem_run.1 hds _ (List.mem_cons_self ..)) (by decide)
    · rfl
  | plus => simp only [List.cons_append, List.nil_append, one_mul]
  | minus => simp only [List.cons_append, List.nil_append, neg_one_mul]

/-- **An exponent is read as a whole, or it has no digit** and counts as zero. -/
theorem readExponent?_cases (he : e ∈ optional exponents) :
    readExponent? e = some (readExponent e) ∨ readExponent? e = none ∧ readExponent e = 0 := by
  rcases mem_optional.1 he with rfl | he
  · exact .inl rfl
  · obtain ⟨mark, sign, ds, hmark, hsign, hds, rfl⟩ := mem_exponents.1 he
    obtain ⟨u, hsign⟩ := exists_isSign hsign
    rw [readExponent?_signed hmark hsign hds, readExponent_signed hmark hsign hds,
      readDigits?_eq hds]
    cases ds with
    | nil => exact .inr ⟨rfl, mul_zero u⟩
    | cons c ds => exact .inl rfl

/-! ### Whole numbers and mantissas -/

theorem read?_append (hds : ds ∈ Lexeme.digits) (hf : IsFraction f es)
    (he : e ∈ optional exponents) : read? (ds ++ (f ++ e)) =
      if ds.isEmpty && es.isEmpty then none
      else (readExponent? e).map fun x => ⟨ofDigits (ds ++ es), x - es.length⟩ := by
  unfold read?
  simp only [span_append (mem_run.1 hds) (head_of_isFraction hf he), readFraction_append hf he]

/-- **The longest numeral in front of a number** is the number or its mantissa. -/
theorem read?_or_mantissa (h : w ∈ numbers) :
    (read? w).or (read? (mantissa w)) = readPrefix? w := by
  obtain ⟨ds, f, es, e, hds, hf, he, rfl⟩ := exists_parts h
  have hnone := read?_append hds hf (mem_optional.2 (.inl rfl) : [] ∈ optional exponents)
  rw [List.append_nil] at hnone
  rw [mantissa_append hds hf he, hnone, read?_append hds hf he, readPrefix?_append hds hf he]
  split
  · rfl
  · rcases readExponent?_cases he with hread | ⟨hread, hzero⟩
    · rw [hread]
      rfl
    · rw [hread, hzero]
      rfl

end Decimal

/-- **The value of a number is that of the longest numeral in front of it**, zero if there is none. -/
theorem Lexeme.numberValue_eq (h : w ∈ numbers) :
    numberValue w = (Decimal.readPrefix? w).elim 0.0 Decimal.toFloat := by
  unfold numberValue
  rw [Decimal.read?_or_mantissa h]
  cases Decimal.readPrefix? w <;> rfl

end Calculator
