import Calculator.Proofs.Grammar.Whole

/-!
# The causes of rejections

A rejection is found at a token of the text, or at its end, and the flaw it names is there.
`Flaw.HoldsAt` says what that means, flaw by flaw. The rules have found a reason (`Explains`), and
every reason holds in the text (`Explains.holdsAt`).
-/

namespace Calculator

open Grammar

/-- **What a flaw says about the token `here`** of a text, between the tokens `before` and
`following`. -/
def Flaw.HoldsAt (env : Environment) (before : List Token) (here : Token) (following : List Token) :
    Flaw → Prop
  | .invalidCharacter => here.kind = .unknown
  | .invalidSyntax => True
  | .mismatchedParentheses => here.kind ≠ .rightParen ∧ ∀ op, here.kind ≠ .operator op
  | .invalidFunction =>
    here.kind = .variable ∧ Function.ofName? here.text = none ∧ Constant.ofName? here.text = none ∧
      Register.ofName? here.text = none ∧ ∃ opening ∈ following.head?, opening.kind = .leftParen
  -- The right operand of `/` and `%` is a factor, as long as it can be.
  | .divisionByZero =>
    (∃ op, here.kind = .operator op ∧ (op = .div ∨ op = .mod) ∧
      ∃ (right : Tree (.phrase factor)) (rest : List Token) (value : Float),
        following = right.tokens ++ rest ∧ Below factor.rank rest ∧
          right.eval env = .ok value ∧ (value == 0.0) = true) ∨
    ∃ f, here.kind = .function f ∧ f.name ∈ ["pow", "nthrt", "mod", "csch", "coth"]
  | .tooFewArguments =>
    ∃ f, here.kind = .function f ∧ ∃ (opening : Token) (args : Tree .arguments) (rest : List Token),
      opening.kind = .leftParen ∧ following = opening :: (args.tokens ++ rest) ∧
        args.count < f.arity
  -- The token after the tenth comma is not read, so it can be anything.
  | .tooManyArguments =>
    (∃ f, here.kind = .function f ∧ ∃ (opening : Token) (args : Tree .arguments) (rest : List Token),
      opening.kind = .leftParen ∧ following = opening :: (args.tokens ++ rest) ∧
        f.arity < args.count) ∨
    ∃ (pre : List Token) (f : Function) (name opening comma : Token) (items : Tree .items),
      name.kind = .function f ∧ opening.kind = .leftParen ∧ comma.kind = .comma ∧
        before = pre ++ name :: opening :: (items.tokens ++ [comma]) ∧ items.count = 10
  | .domainError =>
    (∃ op, here.kind = .operator op) ∨ (∃ f, here.kind = .function f) ∨
      ∃ value, here.kind = .number value ∧ value.isInf = true

namespace Grammar

variable {env : Environment} {source : String} {before after : List Token} {r : Rejection}

/-! ### Tokens and the end -/

theorem exists_following (h : tokens source = before ++ after) :
    ∃ following, tokenize source = before ++ front after source.utf8ByteSize :: following ∧
      ∀ here us, after = here :: us → following = us ++ [.finish source.utf8ByteSize] := by
  unfold tokenize
  rw [h]
  cases after with
  | nil =>
    refine ⟨[], ?_, fun here us hus => by cases hus⟩
    rw [List.append_nil]
    rfl
  | cons here us =>
    refine ⟨us ++ [.finish source.utf8ByteSize], ?_, fun here' us' hus => ?_⟩
    · rw [List.append_assoc]
      rfl
    · cases hus
      rfl

theorem isValid_front (h : tokens source = before ++ after) :
    (⟨(front after source.utf8ByteSize).offset⟩ : String.Pos.Raw).IsValid source := by
  cases after with
  | nil => exact String.Pos.Raw.isValid_rawEndPos
  | cons here us =>
    have hmem : here ∈ tokens source := by
      rw [h]
      exact List.mem_append_right _ List.mem_cons_self
    exact isValid_offset hmem

theorem Below.append_finish {k n : Nat} {us : List Token} (h : Below k us) :
    Below k (us ++ [.finish n]) := by
  cases us with
  | nil => exact below_cons.2 fun op hop => by cases hop
  | cons token us => exact below_cons.2 (below_cons.1 h)

/-! ### From reasons to flaws -/

theorem name_of_mem_dividing {f : Function} (h : f ∈ Function.dividing) :
    f.name ∈ ["pow", "nthrt", "mod", "csch", "coth"] := by
  simp only [Function.dividing, List.mem_cons, List.not_mem_nil, or_false] at h
  rcases h with rfl | rfl | rfl | rfl | rfl <;> decide

/-- **The reasons that the rules give hold in the text.** -/
theorem Explains.holdsAt {following : List Token} {here : Token} {flaw : Flaw} {n : Nat}
    (h : Explains env before after here flaw) (hsource : here ∈ tokens source ∨ here.kind = .finish)
    (hfollowing : ∀ here us, after = here :: us → following = us ++ [.finish n]) :
    flaw.HoldsAt env before here following := by
  cases h with
  | invalidCharacter unknown => exact unknown
  | invalidSyntax => exact trivial
  | mismatchedParentheses closing operator => exact ⟨closing, operator⟩
  | @invalidFunction name register opening rest hafter ho =>
    rcases hsource with hmem | hfinish
    · obtain ⟨hf, hc⟩ := ofName?_of_variable hmem name
      rw [hfollowing _ _ hafter]
      exact ⟨name, hf, hc, register, opening, by simp, ho⟩
    · rw [hfinish] at name
      cases name
  | @zeroDivisor op kind divides right rest hafter below value eval zero =>
    rw [hfollowing _ _ hafter, List.append_assoc]
    exact Or.inl ⟨op, kind, divides, right, _, value, rfl, below.append_finish, eval, zero⟩
  | dividing kind divides => exact Or.inr ⟨_, kind, name_of_mem_dividing divides⟩
  | @tooFew f kind opening ho args rest hafter few =>
    rw [hfollowing _ _ hafter, List.cons_append, List.append_assoc]
    exact ⟨f, kind, opening, args, _, ho, rfl, few⟩
  | @tooMany f kind opening ho args rest hafter many =>
    rw [hfollowing _ _ hafter, List.cons_append, List.append_assoc]
    exact Or.inl ⟨f, kind, opening, args, _, ho, rfl, many⟩
  | @limit pre f name opening comma hf ho hc items hbefore count =>
    exact Or.inr ⟨pre, f, name, opening, comma, items, hf, ho, hc, hbefore, count⟩
  | operation kind => exact Or.inl ⟨_, kind⟩
  | call kind => exact Or.inr (Or.inl ⟨_, kind⟩)
  | @infinite value kind hfin =>
    rcases hsource with hmem | hfinish
    · exact Or.inr (Or.inr ⟨value, kind, Double.isInf_of_not_isFinite hfin (isNaN_of_number hmem kind)⟩)
    · rw [hfinish] at kind
      cases kind

/-- **Every rejection names its cause**: it is found at a token of the text, or at its end, and the
flaw holds there. No function fails for a reason that an expression could not name. -/
theorem evaluate_error_holds (h : evaluate env source = .error r) :
    (∃ before here following, tokenize source = before ++ here :: following ∧
      r.position = here.offset ∧ r.position ≤ source.utf8ByteSize ∧
      (⟨r.position⟩ : String.Pos.Raw).IsValid source ∧
      r.flaw.HoldsAt env before here following) ∧
    (∀ (f : UnaryFunction) x unit fault, f.apply x unit = .error fault →
      fault.toFlaw ≠ .invalidFunction) ∧
    ∀ (f : BinaryFunction) x y unit fault, f.apply x y unit = .error fault →
      fault.toFlaw ≠ .invalidFunction := by
  refine ⟨?_, fun f x unit fault hf => ?_, fun f x y unit fault hf => ?_⟩
  · obtain ⟨d, -, before, after, hts, hfound⟩ := exists_of_evaluate_eq_error h
    obtain ⟨following, htokens, hfollowing⟩ := exists_following hts
    have hvalid := isValid_front hts
    rw [← hfound.position] at hvalid
    have hsource : front after source.utf8ByteSize ∈ tokens source ∨
        (front after source.utf8ByteSize).kind = .finish := by
      rw [hts]
      cases after with
      | nil => exact Or.inr rfl
      | cons here us => exact Or.inl (List.mem_append_right _ List.mem_cons_self)
    exact ⟨before, _, following, htokens, hfound.position, hvalid.le_utf8ByteSize, hvalid,
      hfound.cause.holdsAt hsource hfollowing⟩
  · have hg := f.guarded x unit
    rw [hf] at hg
    cases hg <;> simp [Fault.toFlaw]
  · have hg := f.guarded x y unit
    rw [hf] at hg
    cases hg <;> simp [Fault.toFlaw]

/-- A division by zero is found at the operator. -/
theorem evaluate_error_holds_div : evaluate {} "4 + 1 / (2 - 2)" = .error ⟨.operation .divisionByZero, 6⟩ ∧
    ∃ before here following, tokenize "4 + 1 / (2 - 2)" = before ++ here :: following ∧
      6 = here.offset ∧ Flaw.HoldsAt {} before here following .divisionByZero := by
  have h : evaluate {} "4 + 1 / (2 - 2)" = .error ⟨.operation .divisionByZero, 6⟩ := rfl
  obtain ⟨⟨before, here, following, htokens, hposition, -, -, hflaw⟩, -⟩ := evaluate_error_holds h
  exact ⟨h, before, here, following, htokens, hposition, hflaw⟩

end Grammar

end Calculator
