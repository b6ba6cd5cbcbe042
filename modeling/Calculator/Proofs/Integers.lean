import Calculator.Proofs.Decimals.Reading
import Calculator.Proofs.Decimals.Shortest
import Calculator.Proofs.Grammar.Whole
import Calculator.Proofs.Numerals.Parts

/-!
# Integer expressions

An expression that is built from integers with signs, parentheses and the five operations on
integers can be evaluated over the integers. As long as no integer on the way is larger than
`2 ^ 53`, evaluating it over the doubles gives the same.

* `Tree.integer t`: the integer that `t` stands for, or the first `Obstacle` to there being one;
* `Operator.apply_of_integer`: one operation gives the double of its integer result;
* `evaluate_integer`: so does a whole expression, and a zero divisor is reported where it is first
  met.
-/

namespace Calculator

open Double (HasValue Representable representable_int)
open Grammar

variable {env : Environment} {x y : Float} {a b n : Int} {i offset : Nat} {op : Operator}
  {source : String} {cs : List Char}

/-! ### Evaluating over the integers -/

/-- **Why an expression has no integer value.** -/
inductive Obstacle
  /-- The operator at the offset divides by zero. -/
  | zeroDivisor (offset : Nat)
  /-- A quotient is no integer. -/
  | fraction
  /-- An integer is larger than `2 ^ 53`. -/
  | outside
  /-- There is something else than integers, signs, parentheses and operations on integers. -/
  | foreign
deriving DecidableEq, Repr

/-- An integer of at most `2 ^ 53`. -/
def bounded (n : Int) : Except Obstacle Int :=
  if n.natAbs ≤ 2 ^ 53 then .ok n else .error .outside

theorem bounded_eq_ok_iff : bounded a = .ok n ↔ a.natAbs ≤ 2 ^ 53 ∧ a = n := by
  unfold bounded
  by_cases h : a.natAbs ≤ 2 ^ 53
  · rw [if_pos h, Except.ok.injEq]
    exact (and_iff_right h).symm
  · rw [if_neg h]
    exact iff_of_false (fun h' => nomatch h') fun h' => h h'.1

theorem bounded_ne_zeroDivisor : bounded a ≠ .error (.zeroDivisor i) := by
  unfold bounded
  split <;> simp

/-- **An operation on integers.** Division has to be exact, and the remainder of a division toward
zero has the sign of the dividend. -/
def Operator.integer (op : Operator) (offset : Nat) (a b : Int) : Except Obstacle Int :=
  match op with
  | add => bounded (a + b)
  | sub => bounded (a - b)
  | mul => bounded (a * b)
  | div =>
    if b = 0 then .error (.zeroDivisor offset)
    else if b ∣ a then bounded (a / b) else .error .fraction
  | mod => if b = 0 then .error (.zeroDivisor offset) else bounded (a.tmod b)
  | pow => .error .foreign

/-- **The integer that a tree stands for**, operands evaluated from left to right, or the first
obstacle to there being one. -/
def Grammar.Tree.integer : {k : Category} → Tree k → Except Obstacle Int
  | _, .number token .. =>
    if token.text.toList.all Char.isDigit then bounded (Decimal.ofDigits token.text.toList)
    else .error .foreign
  | _, .positive _ t | _, .group _ t _ | _, .single t => t.integer
  | _, .negative _ t => do return -(← t.integer)
  | _, .binary left op _ token right => do
    op.integer token.val.offset (← left.integer) (← right.integer)
  | _, .constant .. | _, .register .. | _, .call .. | _, .item .. | _, .more .. | _, .noItems _
  | _, .someItems .. => .error .foreign

/-! ### One operation -/

theorem exists_checked (h : HasValue x a) (hn : bounded a = .ok n) :
    ∃ z, (checked x).narrow = .ok z ∧ HasValue z n := by
  obtain ⟨-, rfl⟩ := bounded_eq_ok_iff.1 hn
  exact ⟨x, congrArg Outcome.narrow h.checked_eq, h⟩

theorem representable_of_bounded (hn : bounded a = .ok n) : Representable a :=
  representable_int (bounded_eq_ok_iff.1 hn).1

/-! Division by an integer, zero or not. -/

theorem divide_of_ne (hy : HasValue y b) (hb : b ≠ 0) :
    Arithmetic.divide x y = checked (x / y) :=
  if_neg (mt hy.beq_zero_iff.1 (by exact_mod_cast hb))

theorem modulo_of_ne (hy : HasValue y b) (hb : b ≠ 0) :
    Arithmetic.modulo x y = checked (Double.remainder x y) :=
  if_neg (mt hy.beq_zero_iff.1 (by exact_mod_cast hb))

theorem divide_of_eq (hy : HasValue y b) (hb : b = 0) :
    Arithmetic.divide x y = .error .divisionByZero :=
  if_pos (hy.beq_zero_iff.2 (by exact_mod_cast hb))

theorem modulo_of_eq (hy : HasValue y b) (hb : b = 0) :
    Arithmetic.modulo x y = .error .divisionByZero :=
  if_pos (hy.beq_zero_iff.2 (by exact_mod_cast hb))

/-- **An operation gives the double of its integer result.** -/
theorem Operator.apply_of_integer (hx : HasValue x a) (hy : HasValue y b)
    (h : op.integer offset a b = .ok n) : ∃ z, op.apply x y = .ok z ∧ HasValue z n := by
  cases op with
  | add =>
    have hq := representable_of_bounded h
    refine exists_checked (x := x + y) ?_ h
    rw [Int.cast_add] at hq ⊢
    exact hx.add hy hq
  | sub =>
    have hq := representable_of_bounded h
    refine exists_checked (x := x - y) ?_ h
    rw [Int.cast_sub] at hq ⊢
    exact hx.sub hy hq
  | mul =>
    have hq := representable_of_bounded h
    refine exists_checked (x := x * y) ?_ h
    rw [Int.cast_mul] at hq ⊢
    exact hx.mul hy hq
  | div =>
    by_cases hb : b = 0
    · cases (if_pos hb).symm.trans h
    · have h := (if_neg hb).symm.trans h
      by_cases hdvd : b ∣ a
      · have h := (if_pos hdvd).symm.trans h
        have hq := representable_of_bounded h
        have hb' : (b : ℚ) ≠ 0 := by exact_mod_cast hb
        rw [Int.cast_div hdvd hb'] at hq
        have hvalue : HasValue (x / y) (a / b : Int) := by
          rw [Int.cast_div hdvd hb']
          exact hx.div hy hb' hq
        obtain ⟨z, hz, hn⟩ := exists_checked hvalue h
        exact ⟨z, (congrArg Outcome.narrow (divide_of_ne hy hb)).trans hz, hn⟩
      · cases (if_neg hdvd).symm.trans h
  | mod =>
    by_cases hb : b = 0
    · cases (if_pos hb).symm.trans h
    · have h := (if_neg hb).symm.trans h
      have hvalue := hx.remainder hy hb (representable_of_bounded h)
      obtain ⟨z, hz, hn⟩ := exists_checked hvalue h
      exact ⟨z, (congrArg Outcome.narrow (modulo_of_ne hy hb)).trans hz, hn⟩
  | pow => cases h

theorem Operator.apply_of_zeroDivisor (hy : HasValue y b)
    (h : op.integer offset a b = .error (.zeroDivisor i)) :
    op.apply x y = .error .divisionByZero ∧ offset = i := by
  cases op with
  | add | sub | mul => exact absurd h bounded_ne_zeroDivisor
  | div =>
    by_cases hb : b = 0
    · obtain rfl : offset = i := by simpa [integer, hb] using h
      exact ⟨congrArg Outcome.narrow (divide_of_eq hy hb), rfl⟩
    · have h := (if_neg hb).symm.trans h
      by_cases hdvd : b ∣ a
      · exact absurd ((if_pos hdvd).symm.trans h) bounded_ne_zeroDivisor
      · cases (if_neg hdvd).symm.trans h
  | mod =>
    by_cases hb : b = 0
    · obtain rfl : offset = i := by simpa [integer, hb] using h
      exact ⟨congrArg Outcome.narrow (modulo_of_eq hy hb), rfl⟩
    · exact absurd ((if_neg hb).symm.trans h) bounded_ne_zeroDivisor
  | pow => cases h

/-! ### Literals -/

theorem hasValue_digits (hne : cs ≠ []) (hcs : cs.all Char.isDigit = true)
    (hn : bounded (Decimal.ofDigits cs) = .ok n) : HasValue (Lexeme.numberValue cs) n := by
  have hdigits : ∀ c ∈ cs, c.isDigit = true := List.all_eq_true.1 hcs
  obtain ⟨hnumber, -, d, hread, hd⟩ :=
    Decimal.denotes_pointed hne hdigits (List.forall_mem_nil _) Decimal.IsExponent.none
  obtain ⟨-, rfl⟩ := bounded_eq_ok_iff.1 hn
  have hvalue : d.value = ((Decimal.ofDigits cs : Int) : ℚ) := by
    rw [hd, List.append_nil]
    norm_num
  have htext : Decimal.pointed cs [] ++ [] = cs := List.append_nil cs
  have hq := representable_of_bounded hn
  rw [htext] at hnumber hread
  rw [Lexeme.numberValue_eq hnumber, hread]
  rw [← hvalue] at hq ⊢
  exact Double.hasValue_toFloat hq

/-! ### Trees -/

namespace Grammar.Tree

variable {k : Category}

/-- **The value of a tree agrees with its integer**, if it has one, and it is rejected for the zero
divisor that keeps it from having one. -/
structure Agrees (env : Environment) (t : Tree k) : Prop where
  value : ∀ n, t.integer = .ok n → ∃ v, t.eval env = .ok v ∧ k.All (HasValue · n) v
  zeroDivisor : ∀ i, t.integer = .error (.zeroDivisor i) →
    t.eval env = .error ⟨.operation .divisionByZero, i⟩

theorem agrees_of_foreign {t : Tree k} (h : t.integer = .error .foreign) : t.Agrees env :=
  ⟨fun _ hn => (nomatch h.symm.trans hn), fun _ hi => (nomatch h.symm.trans hi)⟩

theorem agrees_number {token : Token} {value : Float} {kind : token.kind = .number value}
    {digit : token.text.toList.any Char.isDigit = true}
    (hleaf : token.kind = .ofLexeme token.text.toList) :
    (number token value kind digit).Agrees env := by
  by_cases hcs : token.text.toList.all Char.isDigit = true
  · have hinteger : (number token value kind digit).integer =
        bounded (Decimal.ofDigits token.text.toList) := if_pos hcs
    have hvalue := TokenKind.ofLexeme_eq_number (hleaf.symm.trans kind)
    have hne : token.text.toList ≠ [] := by
      intro hnil
      rw [hnil] at digit
      cases digit
    refine ⟨fun n hn => ?_, fun i hi => absurd (hinteger.symm.trans hi) bounded_ne_zeroDivisor⟩
    have hdigits := hasValue_digits hne hcs (hinteger.symm.trans hn)
    rw [← hvalue] at hdigits
    exact ⟨value, if_pos hdigits.finite, hdigits⟩
  · exact agrees_of_foreign (if_neg hcs)

theorem Agrees.negative {sign : Terminal (.operator .sub)} {t : Tree (.phrase .primary)}
    (h : t.Agrees env) : (negative sign t).Agrees env := by
  refine ⟨fun n hn => ?_, fun i hi => ?_⟩
  · obtain ⟨a, ha, hn⟩ := bind_eq_ok.1 hn
    obtain ⟨x, hx, hvalue⟩ := h.value a ha
    obtain rfl : -a = n := Except.ok.inj hn
    refine ⟨-x, by rw [eval, hx]; rfl, ?_⟩
    have hneg := HasValue.neg hvalue
    rwa [← Int.cast_neg] at hneg
  · rcases bind_eq_error.1 hi with hi | ⟨a, -, hi⟩
    · rw [eval, h.zeroDivisor i hi]
      rfl
    · cases hi

theorem Agrees.binary {level : Level} {left : Tree (.phrase (.chain level))}
    {binds : op.level = level} {token : Terminal (.operator op)}
    {right : Tree (.phrase (operand level))} (hl : left.Agrees env) (hr : right.Agrees env) :
    (binary left op binds token right).Agrees env := by
  refine ⟨fun n hn => ?_, fun i hi => ?_⟩
  · obtain ⟨a, ha, hn⟩ := bind_eq_ok.1 hn
    obtain ⟨b, hb, hn⟩ := bind_eq_ok.1 hn
    obtain ⟨x, hx, hxa⟩ := hl.value a ha
    obtain ⟨y, hy, hyb⟩ := hr.value b hb
    obtain ⟨z, hz, hzn⟩ := Operator.apply_of_integer hxa hyb hn
    refine ⟨z, ?_, hzn⟩
    rw [eval_binary hx hy, hz]
    rfl
  · rcases bind_eq_error.1 hi with hi | ⟨a, ha, hi⟩
    · rw [eval, hl.zeroDivisor i hi]
      rfl
    · obtain ⟨x, hx, hxa⟩ := hl.value a ha
      rcases bind_eq_error.1 hi with hi | ⟨b, hb, hi⟩
      · rw [eval, hx]
        show ((right.eval env) >>= _) = _
        rw [hr.zeroDivisor i hi]
        rfl
      · obtain ⟨y, hy, hyb⟩ := hr.value b hb
        obtain ⟨happly, rfl⟩ := Operator.apply_of_zeroDivisor hyb hi
        rw [eval_binary hx hy, happly]
        rfl

/-- **Every tree of lexemes agrees with its integer.** -/
theorem agrees (t : Tree k) (h : ∀ token ∈ t.tokens, token.kind = .ofLexeme token.text.toList) :
    t.Agrees env := by
  induction t with
  | number token value kind digit => exact agrees_number (h token (List.mem_singleton_self _))
  | constant | register | call | item | more | noItems | someItems => exact agrees_of_foreign rfl
  | positive sign t ih =>
    obtain ⟨hvalue, hzero⟩ := ih fun token ht => h token (List.mem_cons_of_mem _ ht)
    exact ⟨hvalue, hzero⟩
  | negative sign t ih => exact (ih fun token ht => h token (List.mem_cons_of_mem _ ht)).negative
  | group opening t closing ih =>
    obtain ⟨hvalue, hzero⟩ :=
      ih fun token ht => h token (List.mem_cons_of_mem _ (List.mem_append_left _ ht))
    exact ⟨hvalue, hzero⟩
  | single t ih =>
    obtain ⟨hvalue, hzero⟩ := ih h
    exact ⟨hvalue, hzero⟩
  | binary left op binds token right ihl ihr =>
    exact (ihl fun token ht => h token (List.mem_append_left _ ht)).binary
      (ihr fun token ht => h token (List.mem_append_right _ (List.mem_cons_of_mem _ ht)))

end Grammar.Tree

/-! ### Texts -/

/-- **Integer expressions are exact.** A text that is the sentence of a tree with an integer is
evaluated to a double that equals the integer; if the first obstacle is a zero divisor, the text is
rejected for it, at the operator. This does not depend on the registers or on the unit of angles. -/
theorem evaluate_integer (env : Environment) (source : String) (t : Tree (.phrase expression))
    (h : tokens source = t.tokens) :
    (∀ n, t.integer = .ok n → ∃ x, evaluate env source = .ok x ∧ HasValue x n) ∧
    (∀ i, t.integer = .error (.zeroDivisor i) →
      evaluate env source = .error ⟨.operation .divisionByZero, i⟩) := by
  have hagrees : t.Agrees env := t.agrees fun token ht => kind_of_mem_tokens (h ▸ ht)
  rw [evaluate_tokens t h]
  exact ⟨hagrees.value, hagrees.zeroDivisor⟩

/-- A remainder has the sign of the dividend; of two zero divisors the first one is reported. -/
theorem evaluate_integer_remainder :
    (∃ x, evaluate {} "-7%4" = .ok x ∧ HasValue x (-3 : Int)) ∧
    evaluate {} "1%0+2/0" = .error ⟨.operation .divisionByZero, 1⟩ := by
  let literal (text : String) (value : Float) (offset : Nat)
      (digit : text.toList.any Char.isDigit = true) : Tree (.phrase .primary) :=
    .number ⟨.number value, text, offset⟩ value rfl digit
  let remainder : Tree (.phrase expression) :=
    .single (.binary (.single (.single (.negative ⟨⟨.operator .sub, "-", 0⟩, rfl⟩
      (literal "7" 7.0 1 (by decide))))) .mod rfl ⟨⟨.operator .mod, "%", 2⟩, rfl⟩
      (.single (literal "4" 4.0 3 (by decide))))
  let division : Tree (.phrase expression) :=
    .binary (.single (.binary (.single (.single (literal "1" 1.0 0 (by decide)))) .mod rfl
      ⟨⟨.operator .mod, "%", 1⟩, rfl⟩ (.single (literal "0" 0.0 2 (by decide))))) .add rfl
      ⟨⟨.operator .add, "+", 3⟩, rfl⟩
      (.binary (.single (.single (literal "2" 2.0 4 (by decide)))) .div rfl
        ⟨⟨.operator .div, "/", 5⟩, rfl⟩ (.single (literal "0" 0.0 6 (by decide))))
  have hremainder : tokens "-7%4" = remainder.tokens := by decide +kernel
  have hdivision : tokens "1%0+2/0" = division.tokens := by decide +kernel
  exact ⟨(evaluate_integer {} "-7%4" remainder hremainder).1 (-3) (by decide +kernel),
    (evaluate_integer {} "1%0+2/0" division hdivision).2 1 (by decide +kernel)⟩

end Calculator
