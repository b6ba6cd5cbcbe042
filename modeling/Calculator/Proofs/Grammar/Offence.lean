import Calculator.Proofs.Grammar.Causes
import Calculator.Proofs.Grammar.Stepwise

/-!
# The first offending token

A rejection for the form of an expression is found as early as possible: some sentence starts with
the tokens before the place, and none goes on with the token there.

The second half is where reading and trees meet. If a sentence went on with that token, reading the
sentence would come to the same rejection, because a rule that stops in front of a token does not
depend on what follows it (`Stepwise.error_of_stuck`). But reading a sentence is evaluating its tree
(`outcome_complete_tokens`), which is never rejected for its form.
-/

namespace Calculator

open Grammar

variable {env : Environment} {source : String} {before after rest : List Token} {token : Token}
  {r : Rejection} {d : Cursor} {n : Nat}

/-! ### Places and offsets -/

theorem filter_tokenize {here : Token} {following : List Token}
    (h : tokenize source = before ++ here :: following) :
    (tokenize source).filter (fun t => t.offset < here.offset) = before := by
  have hpair := pairwise_tokenize source
  rw [h] at hpair ⊢
  obtain ⟨-, hhere, hbefore⟩ := List.pairwise_append.1 hpair
  have hlt : ∀ t ∈ before, t.offset < here.offset := fun t ht =>
    hbefore t ht here List.mem_cons_self
  have hge : ∀ t ∈ here :: following, ¬ t.offset < here.offset := by
    intro t ht
    rcases List.mem_cons.1 ht with rfl | ht
    · exact Nat.lt_irrefl _
    · have := (List.pairwise_cons.1 hhere).1 t ht
      omega
  rw [List.filter_append, List.filter_eq_self.2 (by simpa using hlt),
    List.filter_eq_nil_iff.2 (by simpa using hge), List.append_nil]

namespace Grammar

/-! ### No sentence goes on -/

theorem eval_of_outcome {t : Tree (.phrase expression)}
    (h : Rule.outcome (Rule.complete env) ⟨t.tokens, n⟩ = .error r) : t.eval env = .error r := by
  rw [outcome_complete_tokens] at h
  cases heval : t.eval env with
  | error e =>
    rw [heval] at h
    cases h
    rfl
  | ok value =>
    rw [heval] at h
    cases h

theorem ne_tokens_of_syntactic (h : evaluate env source = .error r) (hs : r.flaw.IsSyntactic)
    (t : Tree (.phrase expression)) : t.tokens ≠ tokens source := by
  intro ht
  rw [evaluate_tokens t ht.symm] at h
  exact t.not_isSyntactic_of_eval h hs

/-- **If the rule stops in front of a token, then no sentence goes on with it.** -/
theorem not_viable_of_stuck (h : Rule.complete env ⟨before ++ token :: rest, n⟩ = .error r d)
    (hs : r.flaw.IsSyntactic) (hd : d.ahead = token :: rest) :
    ¬ Viable (.phrase expression) (before ++ [token]) := by
  rintro ⟨t, rest', ht⟩
  rw [List.append_assoc, List.singleton_append] at ht
  obtain ⟨d', hstuck⟩ := (Rule.Stepwise.complete env).error_of_stuck h hd rest' n
  have herror : Rule.outcome (Rule.complete env) ⟨t.tokens, n⟩ = .error r := by
    unfold Rule.outcome
    rw [← ht, hstuck]
  exact t.not_isSyntactic_of_eval (eval_of_outcome herror) hs

theorem not_viable_of_not_isLeaf (h : ¬ IsLeaf token) :
    ¬ Viable (.phrase expression) (before ++ [token]) := by
  rintro ⟨t, ht⟩
  exact h (t.isLeaf (ht.subset (List.mem_append_right _ (List.mem_singleton_self _))))

/-- **A rejection for the form is found at the first offending token.** What starts before it is the
beginning of a sentence; with it, or as a whole if the text ends there, it is none. -/
theorem evaluate_error_first (h : evaluate env source = .error r)
    (hs : r.flaw = .invalidSyntax ∨ r.flaw = .mismatchedParentheses ∨
      r.flaw = .invalidCharacter) :
    ∃ before here following, tokenize source = before ++ here :: following ∧
      here.offset = r.position ∧
      (tokenize source).filter (fun t => t.offset < r.position) = before ∧
      Viable (.phrase expression) before ∧
      (here.kind = .finish → ∀ t : Tree (.phrase expression), t.tokens ≠ before) ∧
      (here.kind ≠ .finish → ¬ Viable (.phrase expression) (before ++ [here])) := by
  obtain ⟨d, hrule, before, after, hts, hfound⟩ := exists_of_evaluate_eq_error h
  obtain ⟨following, htokens, -⟩ := exists_following hts
  have hfilter := filter_tokenize htokens
  rw [← hfound.position] at hfilter
  refine ⟨before, _, following, htokens, hfound.position.symm, hfilter, hfound.viable hs, ?_, ?_⟩
  · intro hfinish t ht
    cases after with
    | nil =>
      rw [List.append_nil] at hts
      exact ne_tokens_of_syntactic h hs t (ht.trans hts.symm)
    | cons here us =>
      have hmem : here ∈ tokens source := by
        rw [hts]
        exact List.mem_append_right _ List.mem_cons_self
      exact kind_ne_finish hmem hfinish
  · intro hfinish
    cases after with
    | nil => exact absurd rfl hfinish
    | cons here us =>
      rcases hfound.stuck hs with hd | hleaf
      · rw [Cursor.ofString, hts] at hrule
        exact not_viable_of_stuck hrule hs hd
      · exact not_viable_of_not_isLeaf hleaf

/-- An operand is missing behind the operator. -/
theorem evaluate_error_first_mul : evaluate {} "2 * (3 + * 4)" = .error ⟨.unexpectedToken "*", 9⟩ ∧
    ∃ before here following, tokenize "2 * (3 + * 4)" = before ++ here :: following ∧
      here.offset = 9 ∧ Viable (.phrase expression) before ∧
      (here.kind ≠ .finish → ¬ Viable (.phrase expression) (before ++ [here])) := by
  have h : evaluate {} "2 * (3 + * 4)" = .error ⟨.unexpectedToken "*", 9⟩ := rfl
  obtain ⟨before, here, following, htokens, hoffset, -, hviable, -, hnext⟩ :=
    evaluate_error_first h (Or.inl rfl)
  exact ⟨h, before, here, following, htokens, hoffset, hviable, hnext⟩

end Grammar

end Calculator
