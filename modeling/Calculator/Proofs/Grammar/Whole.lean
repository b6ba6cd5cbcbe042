import Calculator.Proofs.Grammar.Analysis
import Calculator.Proofs.Tokens.Places

/-!
# Whole texts

A text is evaluated by reading a phrase that has to end with it. So its value is that of the tree
whose sentence its tokens are, if there is one (`evaluate_tokens`, `evaluate_eq_ok_iff`), and else
there is a place of rejection among the tokens (`exists_of_evaluate_eq_error`).
-/

namespace Calculator.Grammar

open Rule (outcome outcome_bind outcome_peek_bind bind_of_ok bind_of_error)

variable {env : Environment} {source : String} {ts : List Token} {n : Nat} {token : Token}
  {value : Float} {r : Rejection}

/-! ### Sentences -/

theorem evaluate_eq (source : String) :
    evaluate env source = (outcome (Rule.complete env) (.ofString source)).map (·.1) := by
  unfold evaluate outcome
  cases h : Rule.complete env (.ofString source) with
  | ok value d =>
    have h : (Rule.complete env).run (.ofString source) = .ok value d := h
    rw [h]
    rfl
  | error e d =>
    have h : (Rule.complete env).run (.ofString source) = .error e d := h
    rw [h]
    rfl

theorem outcome_complete {c : Cursor} (h : c.current.kind ≠ .finish) :
    outcome (Rule.complete env) c =
      (outcome (phrase env expression) c).bind fun p =>
        if p.2.current.kind = .finish then .ok p
        else .error ⟨.afterExpression p.2.current.text, p.2.current.offset⟩ := by
  unfold Rule.complete
  rw [outcome_peek_bind, if_neg h, outcome_bind]
  congr
  funext p
  rw [outcome_peek_bind]
  by_cases hf : p.2.current.kind = .finish
  · rw [if_pos hf, if_pos hf]
    rfl
  · rw [if_neg hf, if_neg hf]
    rfl

theorem IsLeaf.kind_ne_finish (h : IsLeaf token) : token.kind ≠ .finish := by
  intro hk
  unfold IsLeaf at h
  rw [hk] at h
  exact h

theorem outcome_complete_tokens (t : Tree (.phrase expression)) (n : Nat) :
    outcome (Rule.complete env) ⟨t.tokens, n⟩ =
      (t.eval env).bind fun value => .ok (value, ⟨[], n⟩) := by
  obtain ⟨ts, hts⟩ := t.tokens_eq_cons
  have hfirst : IsLeaf t.first := t.isLeaf (by rw [hts]; exact List.mem_cons_self)
  have hread := (evaluates env n t).whole (Below.nil _)
  rw [List.append_nil] at hread
  rw [outcome_complete (by rw [hts]; exact hfirst.kind_ne_finish), hread]
  cases t.eval env <;> rfl

/-- **A text whose tokens are the sentence of a tree has the value of the tree**, or is rejected as
the tree is. -/
theorem evaluate_tokens (t : Tree (.phrase expression)) (h : tokens source = t.tokens) :
    evaluate env source = t.eval env := by
  rw [evaluate_eq, Cursor.ofString, h, outcome_complete_tokens]
  cases t.eval env <;> rfl

/-! ### Any tokens -/

/-- **What the result of the rule of whole expressions says about the tokens.** -/
def ReadsAll (env : Environment) (ts : List Token) (n : Nat) :
    EStateM.Result Rejection Cursor Float → Prop
  | .ok value _ => ∃ t : Tree (.phrase expression), t.tokens = ts ∧ t.eval env = .ok value
  | .error r d => Rejected env [] (.phrase expression) ts n r d

theorem reads_complete (h : ∀ token ∈ ts, token.kind ≠ .finish) :
    ReadsAll env ts n (Rule.complete env ⟨ts, n⟩) := by
  show ReadsAll env ts n ((if (front ts n).kind = .finish then Rule.reject .emptyExpression
    else phrase env expression >>= fun value => Rule.peek >>= fun next =>
      if next.kind = .finish then pure value else Rule.reject (.afterExpression next.text) :
    Rule Float) ⟨ts, n⟩)
  by_cases hempty : (front ts n).kind = .finish
  · rw [if_pos hempty]
    exact Rejected.behind [] (viable_nil _) rfl .invalidSyntax (Or.inl rfl)
  · have hread : Reads env [] (.phrase expression) ts n (phrase env expression ⟨ts, n⟩) :=
      reads expression [] ts n
    rw [if_neg hempty]
    cases hr : phrase env expression ⟨ts, n⟩ with
    | error r d =>
      rw [hr] at hread
      rw [bind_of_error hr]
      exact hread
    | ok value d =>
      rw [hr] at hread
      obtain ⟨t, rfl, rfl, heval, -⟩ := hread
      rw [bind_of_ok hr]
      obtain ⟨rest, n⟩ := d
      cases rest with
      | nil => exact ⟨t, (List.append_nil _).symm, heval⟩
      | cons next rest =>
        have hnext : next.kind ≠ .finish := h next (by simp)
        show ReadsAll env _ n ((if next.kind = .finish then pure value
          else Rule.reject (.afterExpression next.text) : Rule Float) ⟨next :: rest, n⟩)
        rw [if_neg hnext]
        exact Rejected.behind _ t.viable rfl .invalidSyntax (Or.inl rfl)

/-- **A text has a value exactly if its tokens are the sentence of a tree with that value.** -/
theorem evaluate_eq_ok_iff : evaluate env source = .ok value ↔
    ∃ t : Tree (.phrase expression), t.tokens = tokens source ∧ t.eval env = .ok value := by
  constructor
  · intro h
    have hread : ReadsAll env (tokens source) source.utf8ByteSize
        (Rule.complete env (.ofString source)) := reads_complete fun _ => kind_ne_finish
    unfold evaluate at h
    split at h
    · next hc =>
      cases h
      rw [show Rule.complete env (.ofString source) = _ from hc] at hread
      exact hread
    · cases h
  · rintro ⟨t, ht, heval⟩
    rw [evaluate_tokens t ht.symm, heval]

/-- **A text without a value has a place of rejection.** -/
theorem exists_of_evaluate_eq_error (h : evaluate env source = .error r) :
    ∃ d, Rule.complete env (.ofString source) = .error r d ∧
      Rejected env [] (.phrase expression) (tokens source) source.utf8ByteSize r d := by
  have hread : ReadsAll env (tokens source) source.utf8ByteSize
      (Rule.complete env (.ofString source)) := reads_complete fun _ => kind_ne_finish
  unfold evaluate at h
  split at h
  · cases h
  · next d hc =>
    cases h
    have hc : Rule.complete env (.ofString source) = .error r d := hc
    rw [hc] at hread
    exact ⟨d, hc, hread⟩

end Calculator.Grammar
