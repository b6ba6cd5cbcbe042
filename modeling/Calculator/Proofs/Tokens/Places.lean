import Calculator.Proofs.Doubles.Finite
import Calculator.Token.Stream

/-!
# The places of tokens

Where the tokens of a text stand in it, and what their kinds say about their texts.

* `exists_of_mem_tokens`: every token is read at the front of some rest of the text, and its offset
  is the number of bytes before that rest;
* `pairwise_tokens`: the offsets increase strictly;
* `kind_ne_finish`, `isNaN_of_number`, `text_of_function`, `ofName?_of_variable`: no token is the end
  of the text, a number is never NaN, a function is written as its name, and a variable is the name
  of no function or constant.
-/

namespace Calculator

variable {cs : List Char} {source : String} {token : Token}

/-- The number of bytes of some characters. -/
def bytes (cs : List Char) : Nat := (String.ofList cs).utf8ByteSize

theorem bytes_cons (c : Char) (cs : List Char) : bytes (c :: cs) = c.utf8Size + bytes cs := by
  unfold bytes
  rw [String.ofList_cons, String.utf8ByteSize_append, String.utf8ByteSize_singleton]

theorem bytes_append (cs ds : List Char) : bytes (cs ++ ds) = bytes cs + bytes ds := by
  unfold bytes
  rw [String.ofList_append, String.utf8ByteSize_append]

theorem bytes_toList (source : String) : bytes source.toList = source.utf8ByteSize := by
  unfold bytes
  rw [String.ofList_toList]

theorem bytes_pos (h : cs ≠ []) : 0 < bytes cs := by
  cases cs with
  | nil => exact absurd rfl h
  | cons c cs =>
    have := c.utf8Size_pos
    rw [bytes_cons]
    omega

/-! ### Scanning -/

theorem exists_of_mem_scan {offset skip : Nat} (h : token ∈ Token.scan cs offset skip) :
    ∃ pre rest, cs = pre ++ rest ∧ rest ≠ [] ∧ token = Token.ofFront rest (offset + bytes pre) := by
  induction cs generalizing offset skip with
  | nil => cases h
  | cons c cs ih =>
    -- A token of the rest has one more character in front of it.
    have hrest {skip : Nat} (h : token ∈ Token.scan cs (offset + c.utf8Size) skip) :
        ∃ pre rest, c :: cs = pre ++ rest ∧ rest ≠ [] ∧
          token = Token.ofFront rest (offset + bytes pre) := by
      obtain ⟨pre, rest, rfl, hne, rfl⟩ := ih h
      refine ⟨c :: pre, rest, rfl, hne, ?_⟩
      rw [bytes_cons, Nat.add_assoc]
    cases skip with
    | succ skip => exact hrest h
    | zero =>
      rw [Token.scan] at h
      split at h
      · exact hrest h
      · rcases List.mem_cons.1 h with rfl | h
        · exact ⟨[], c :: cs, rfl, by simp, rfl⟩
        · exact hrest h

theorem le_offset_of_mem_scan {offset skip : Nat} (h : token ∈ Token.scan cs offset skip) :
    offset ≤ token.offset := by
  obtain ⟨pre, rest, -, -, rfl⟩ := exists_of_mem_scan h
  exact Nat.le_add_right _ _

theorem pairwise_scan (cs : List Char) (offset skip : Nat) :
    (Token.scan cs offset skip).Pairwise fun t u => t.offset < u.offset := by
  induction cs generalizing offset skip with
  | nil => exact List.Pairwise.nil
  | cons c cs ih =>
    cases skip with
    | succ skip => exact ih _ _
    | zero =>
      rw [Token.scan]
      split
      · exact ih _ _
      · refine List.pairwise_cons.2 ⟨fun u hu => ?_, ih _ _⟩
        have hle := le_offset_of_mem_scan hu
        have hpos := c.utf8Size_pos
        show offset < u.offset
        omega

/-! ### The tokens of a text -/

theorem exists_of_mem_tokens (h : token ∈ tokens source) :
    ∃ pre rest, source.toList = pre ++ rest ∧ rest ≠ [] ∧
      token = Token.ofFront rest (bytes pre) := by
  obtain ⟨pre, rest, hcs, hne, rfl⟩ := exists_of_mem_scan h
  refine ⟨pre, rest, hcs, hne, ?_⟩
  rw [Nat.zero_add]

theorem pairwise_tokens (source : String) :
    (tokens source).Pairwise fun t u => t.offset < u.offset := pairwise_scan _ _ _

theorem offset_lt (h : token ∈ tokens source) : token.offset < source.utf8ByteSize := by
  obtain ⟨pre, rest, hcs, hne, rfl⟩ := exists_of_mem_tokens h
  have := bytes_pos hne
  rw [← bytes_toList, hcs, bytes_append]
  show bytes pre < _
  omega

theorem pairwise_tokenize (source : String) :
    (tokenize source).Pairwise fun t u => t.offset < u.offset := by
  refine List.pairwise_append.2 ⟨pairwise_tokens source, List.pairwise_singleton _ _, ?_⟩
  intro t ht u hu
  rw [List.mem_singleton.1 hu]
  exact offset_lt ht

theorem tokens_of_tokenize {before following : List Token}
    (h : tokenize source = before ++ token :: following) :
    (token = .finish source.utf8ByteSize ∧ tokens source = before) ∨
      ∃ rest, tokens source = before ++ token :: rest := by
  unfold tokenize at h
  rcases List.eq_nil_or_concat following with rfl | ⟨rest, last, rfl⟩
  · obtain ⟨hbefore, htoken⟩ := List.append_inj' h rfl
    exact Or.inl ⟨(List.singleton_inj.1 htoken).symm, hbefore⟩
  · have hlast : tokens source ++ [.finish source.utf8ByteSize] =
        (before ++ token :: rest) ++ [last] := by
      rw [h, List.append_assoc]
      simp
    exact Or.inr ⟨rest, (List.append_inj' hlast rfl).1⟩

theorem isValid_offset (h : token ∈ tokens source) :
    (⟨token.offset⟩ : String.Pos.Raw).IsValid source := by
  obtain ⟨pre, rest, hcs, -, rfl⟩ := exists_of_mem_tokens h
  refine String.Pos.Raw.isValid_iff_exists_append.2 ⟨.ofList pre, .ofList rest, ?_, rfl⟩
  rw [← String.ofList_append, ← hcs, String.ofList_toList]

/-! ### Kinds -/

theorem kind_of_mem_tokens (h : token ∈ tokens source) :
    token.kind = .ofLexeme token.text.toList := by
  obtain ⟨pre, rest, -, -, rfl⟩ := exists_of_mem_tokens h
  unfold Token.ofFront
  rw [String.toList_ofList]

theorem Function.name_of_ofName? {name : String} {f : Function}
    (h : Function.ofName? name = some f) : f.name = name := by
  unfold ofName? at h
  cases hu : UnaryFunction.ofName? name with
  | some g =>
    rw [hu] at h
    obtain rfl : unary g = f := by simpa using h
    have hname := List.find?_some hu
    exact beq_iff_eq.1 hname
  | none =>
    rw [hu] at h
    obtain ⟨g, hg, rfl⟩ := Option.map_eq_some_iff.1 h
    have hname := List.find?_some hg
    exact beq_iff_eq.1 hname

namespace TokenKind

theorem ofWord_cases (name : String) : (∃ f, ofWord name = .function f) ∨
    (∃ c, ofWord name = .constant c) ∨ ofWord name = .variable := by
  unfold ofWord
  split
  · exact Or.inl ⟨_, rfl⟩
  · exact Or.inr (Or.inl ⟨_, rfl⟩)
  · exact Or.inr (Or.inr rfl)

theorem ofWord_eq_variable {name : String} (h : ofWord name = .variable) :
    Function.ofName? name = none ∧ Constant.ofName? name = none := by
  unfold ofWord at h
  split at h
  · cases h
  · cases h
  · next hf hc => exact ⟨hf, hc⟩

theorem ofChar_cases (c : Char) : ofChar c = .leftParen ∨ ofChar c = .rightParen ∨
    ofChar c = .comma ∨ (∃ op, ofChar c = .operator op) ∨ ofChar c = .unknown := by
  unfold ofChar
  split
  · simp
  · simp
  · simp
  · split <;> simp

theorem ofLexeme_cases (cs : List Char) : ofLexeme cs = .number (Lexeme.numberValue cs) ∨
    ofLexeme cs = ofWord (String.ofList cs) ∨ (∃ c, ofLexeme cs = ofChar c) ∨
    ofLexeme cs = .unknown := by
  unfold ofLexeme
  split
  · exact Or.inl rfl
  · split
    · exact Or.inr (Or.inl rfl)
    · split
      · exact Or.inr (Or.inr (Or.inl ⟨_, rfl⟩))
      · exact Or.inr (Or.inr (Or.inr rfl))

theorem ofLexeme_ne_finish (cs : List Char) : ofLexeme cs ≠ .finish := by
  rcases ofLexeme_cases cs with h | h | ⟨c, h⟩ | h
  · simp [h]
  · rcases ofWord_cases (String.ofList cs) with ⟨f, hw⟩ | ⟨c, hw⟩ | hw <;> simp [h, hw]
  · rcases ofChar_cases c with hc | hc | hc | ⟨op, hc⟩ | hc <;> simp [h, hc]
  · simp [h]

theorem ofLexeme_eq_number {value : Float} (hk : ofLexeme cs = .number value) :
    value = Lexeme.numberValue cs := by
  rcases ofLexeme_cases cs with h | h | ⟨c, h⟩ | h
  · exact TokenKind.number.inj (hk.symm.trans h)
  · rcases ofWord_cases (String.ofList cs) with ⟨f, hw⟩ | ⟨c, hw⟩ | hw <;> simp [h, hw] at hk
  · rcases ofChar_cases c with hc | hc | hc | ⟨op, hc⟩ | hc <;> simp [h, hc] at hk
  · simp [h] at hk

theorem ofWord_eq_function {name : String} {f : Function} (h : ofWord name = .function f) :
    f.name = name := by
  unfold ofWord at h
  split at h
  · next g hg =>
    obtain rfl : g = f := by simpa using h
    exact Function.name_of_ofName? hg
  · cases h
  · cases h

theorem ofLexeme_eq_ofWord (h : (∃ f, ofLexeme cs = .function f) ∨ ofLexeme cs = .variable) :
    ofLexeme cs = ofWord (String.ofList cs) := by
  rcases ofLexeme_cases cs with hk | hk | ⟨c, hk⟩ | hk
  · simp [hk] at h
  · exact hk
  · rcases ofChar_cases c with hc | hc | hc | ⟨op, hc⟩ | hc <;> simp [hk, hc] at h
  · simp [hk] at h

end TokenKind

theorem kind_ne_finish (h : token ∈ tokens source) : token.kind ≠ .finish := by
  rw [kind_of_mem_tokens h]
  exact TokenKind.ofLexeme_ne_finish _

theorem isNaN_of_number (h : token ∈ tokens source) {value : Float}
    (hk : token.kind = .number value) : value.isNaN = false := by
  rw [kind_of_mem_tokens h] at hk
  rw [TokenKind.ofLexeme_eq_number hk]
  exact Double.isNaN_numberValue _

theorem text_of_function (h : token ∈ tokens source) {f : Function}
    (hk : token.kind = .function f) : token.text = f.name := by
  rw [kind_of_mem_tokens h] at hk
  have hword := TokenKind.ofLexeme_eq_ofWord (Or.inl ⟨f, hk⟩)
  rw [TokenKind.ofWord_eq_function (hword.symm.trans hk), String.ofList_toList]

/-- **A variable is the name of no function and of no constant.** -/
theorem ofName?_of_variable (h : token ∈ tokens source) (hk : token.kind = .variable) :
    Function.ofName? token.text = none ∧ Constant.ofName? token.text = none := by
  rw [kind_of_mem_tokens h] at hk
  have hword := TokenKind.ofLexeme_eq_ofWord (Or.inr hk)
  have hnone := TokenKind.ofWord_eq_variable (hword.symm.trans hk)
  rwa [String.ofList_toList] at hnone

end Calculator
