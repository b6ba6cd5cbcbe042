import Mathlib.Data.List.GetD
import Mathlib.Logic.Relation
import Mathlib.Order.Monotone.Basic
import Calculator.Proofs.Grammar.Analysis
import Calculator.Proofs.Grammar.Procedures
import Calculator.Proofs.Tokens.Lossless

/-!
# Driving the rules by hand

A cursor is moved by steps: one token on, or by a rule, which may as well reject. The rules can be
tried one after the other, also behind a rejection.

* `Step env`: one step, with the number of tokens that have been stepped over so far;
* `Step.after`: whatever has been done, the cursor is the one behind so many tokens of the text;
* `position_mono`: what has been looked at only grows;
* `Procedure.progress`: a rule that has a result has stepped over a token, and
  `Procedure.absorbed` lists the operators it does not stop at.
-/

namespace Calculator.Grammar

open Relation (ReflTransGen)

variable {env : Environment} {source : String} {α : Type} {c d : Cursor} {k m : Nat}

/-! ### Steps -/

namespace Procedure

/-- **What can be done at a cursor**: the rules of the grammar, a call only of the function whose
name is the current token. -/
inductive Entry : {α : Type} → Procedure α → Cursor → Prop
  | phrase (p : Phrase) (c : Cursor) : Entry (phrase p) c
  | closing (c : Cursor) : Entry closing c
  | arguments (c : Cursor) : Entry arguments c
  | call {f : Function} {c : Cursor} (h : c.current.kind = .function f) : Entry (call f) c

/-- The operators that a rule goes on with. -/
def absorbed : {α : Type} → Procedure α → List Operator
  | _, phrase (.chain .sum) => [.add, .sub, .mul, .div, .mod, .pow]
  | _, phrase (.chain .product) => [.mul, .div, .mod, .pow]
  | _, phrase (.chain .power) => [.pow]
  | _, _ => []

end Procedure

/-- **One step**, with the number of tokens stepped over before and after it. -/
inductive Step (env : Environment) : Nat × Cursor → Nat × Cursor → Prop
  | advance (k : Nat) (c : Cursor) : Step env (k, c) (k + 1, c.advance)
  | rule {α : Type} {p : Procedure α} {k m : Nat} {c : Cursor}
      {x : EStateM.Result Rejection Cursor α} (hp : p.Entry c) (h : Exec env (p.body env) c m x) :
      Step env (k, c) (k + m, Rule.stop x)

theorem iterate_advance (source : String) (k m : Nat) :
    Cursor.advance^[m] (.after source k) = .after source (k + m) := by
  induction m generalizing k with
  | zero => rfl
  | succ m ih => rw [Function.iterate_succ_apply, ← Nat.succ_add_eq_add_succ, ← ih]; rfl

/-- **A step leads from one place of a text to a later one.** -/
theorem Step.after {s : Nat × Cursor} (h : Step env (k, .after source k) s) :
    k ≤ s.1 ∧ s.2 = .after source s.1 := by
  cases h with
  | advance => exact ⟨Nat.le_succ k, rfl⟩
  | rule hp h =>
    refine ⟨Nat.le_add_right _ _, ?_⟩
    rw [h.stop_eq, iterate_advance]

/-- **Whatever has been done, the cursor is the one behind so many tokens.** -/
theorem after_of_steps {s : Nat × Cursor}
    (h : ReflTransGen (Step env) (0, .ofString source) s) : s.2 = .after source s.1 := by
  induction h with
  | refl => rfl
  | @tail s s' _ hstep ih =>
    obtain ⟨k, c⟩ := s
    obtain rfl : c = .after source k := ih
    exact hstep.after.2

/-! ### Positions -/

theorem current_after (source : String) (k : Nat) : (Cursor.after source k).current =
    (tokenize source).getD k (.finish source.utf8ByteSize) := by
  rw [Cursor.after_eq, getD_tokenize]
  rfl

theorem pull_after (source : String) (k : Nat) : ((Reader.ofString source).pull (k + 1)).getLast? =
    some ((Cursor.after source k).current, (Cursor.after source k).position) := by
  rw [Reader.pull_eq, Reader.cursor_ofString, Cursor.after_eq, List.range_succ, List.map_append,
    List.map_singleton, List.getLast?_concat]
  rfl

theorem position_le_succ (source : String) (k : Nat) :
    (Cursor.after source k).position ≤ (Cursor.after source (k + 1)).position := by
  unfold Cursor.position
  rcases Nat.lt_or_ge (k + 1) (tokenize source).length with hk | hk
  · have hpair := List.pairwise_iff_getElem.1 (pairwise_stop_le_offset source) k (k + 1)
      (by omega) hk (by omega)
    rw [current_after, current_after, List.getD_eq_getElem _ _ hk,
      List.getD_eq_getElem _ _ (by omega)]
    exact Nat.le_trans hpair (Nat.le_add_right _ _)
  · -- The end comes again and again.
    have hlen : (tokens source).length ≤ k := by
      rw [tokenize, List.length_append, List.length_singleton] at hk
      omega
    have hend (m : Nat) (hm : k ≤ m) : (Cursor.after source m).ahead = [] := by
      rw [Cursor.ahead_after, List.drop_eq_nil_of_le (Nat.le_trans hlen hm)]
    rw [Cursor.current_nil (hend k (Nat.le_refl k)), Cursor.current_nil (hend _ (Nat.le_succ k)),
      Cursor.after, Cursor.size_advance]

theorem position_mono (source : String) (h : k ≤ m) :
    (Cursor.after source k).position ≤ (Cursor.after source m).position :=
  monotone_nat_of_le_succ (position_le_succ source) h

/-! ### Progress -/

/-- **A rule with a result has stepped over a token**, and over all operators it goes on with. -/
def Progress (p : Procedure α) (c d : Cursor) : Prop :=
  d.ahead.length < c.ahead.length ∧ ∀ op ∈ p.absorbed, d.current.kind ≠ .operator op

theorem lt_of_derived {k : Category} {ts : List Token} {n : Nat} {value : k.Value}
    (h : Derived env k ts n value d) : d.ahead.length < ts.length := by
  obtain ⟨t, rfl, -, -, -⟩ := h
  obtain ⟨us, hus⟩ := t.tokens_eq_cons
  rw [hus, List.length_append, List.length_cons]
  omega

theorem kind_of_below {r : Nat} (h : Below r c.ahead) {op : Operator} (hop : r ≤ op.level.rank) :
    c.current.kind ≠ .operator op := by
  obtain ⟨ts, n⟩ := c
  cases ts with
  | nil => simp [Cursor.current, Token.finish]
  | cons token us =>
    intro hk
    have := below_cons.1 h op hk
    omega

theorem rank_le_of_absorbed (p : Phrase) :
    ∀ op ∈ (Procedure.phrase p).absorbed, p.rank ≤ op.level.rank := by
  cases p with
  | primary => exact List.forall_mem_nil _
  | chain level => cases level <;> decide

theorem progress_phrase {p : Phrase} {value : Float} (h : phrase env p c = .ok value d) :
    Progress (.phrase p) c d := by
  have hderived : Derived env (.phrase p) c.ahead c.size value d := phrase_eq_ok_iff.1 h
  refine ⟨lt_of_derived hderived, fun op hop => ?_⟩
  obtain ⟨-, -, -, -, hbelow⟩ := hderived
  exact kind_of_below hbelow (rank_le_of_absorbed p op hop)

theorem progress_closing (h : Rule.closing c = .ok () d) : Progress .closing c d := by
  unfold Rule.closing at h
  rw [Rule.peek_bind] at h
  by_cases hk : c.current.kind = .rightParen
  · rw [if_pos hk] at h
    obtain ⟨-, rfl⟩ := EStateM.Result.ok.inj h
    exact ⟨Procedure.advance_lt (by simp [hk]), List.forall_mem_nil _⟩
  · rw [if_neg hk] at h
    cases h

/-- Behind its first argument a call only goes forward. -/
theorem ahead_le_moreItems {values values' : List Float}
    (h : moreItems env values c = .ok values' d) : d.ahead.length ≤ c.ahead.length := by
  have hstep : Rule.Stepwise (moreItems env values) :=
    .bind .peek fun _ => .ite (.bind .skip fun _ => .argumentsFrom (.expression env) _ _)
      (.bind .closing fun _ => .pure _)
  have hle := (hstep.suffix c).1.length_le
  rwa [h] at hle

theorem progress_arguments {values : List Float} (h : Rule.arguments env c = .ok values d) :
    Progress .arguments c d := by
  rw [Rule.arguments_eq, Rule.argumentsOf, Rule.peek_bind] at h
  refine ⟨?_, List.forall_mem_nil _⟩
  by_cases hk : c.current.kind = .rightParen
  · rw [if_pos hk] at h
    obtain ⟨-, rfl⟩ := EStateM.Result.ok.inj h
    exact Procedure.advance_lt (by simp [hk])
  · have hroom : ([] : List Float).length < Rule.maxArguments := by decide
    rw [if_neg hk] at h
    have h : Rule.argumentsFrom (Rule.expression env)
      (Rule.maxArguments - ([] : List Float).length) [] c = .ok values d := h
    rw [argumentsFrom_of_lt hroom] at h
    cases hfirst : phrase env expression c with
    | error r e =>
      rw [Rule.bind_of_error hfirst] at h
      cases h
    | ok value e =>
      rw [Rule.bind_of_ok hfirst] at h
      have hlt := (progress_phrase hfirst).1
      have hle := ahead_le_moreItems h
      omega

theorem progress_call {f : Function} {value : Float} (hf : c.current.kind = .function f)
    (h : Rule.call env f c = .ok value d) : Progress (.call f) c d := by
  obtain ⟨ts, n⟩ := c
  cases ts with
  | nil => cases hf
  | cons token us =>
    have hf : token.kind = .function f := hf
    rw [Rule.call_eq] at h
    have hprimary : phrase env .primary ⟨token :: us, n⟩ = .ok value d := by
      rw [primary_cons]
      simp only [hf]
      exact h
    exact ⟨(progress_phrase hprimary).1, List.forall_mem_nil _⟩

/-- **A rule that has a result has stepped over a token**, and stops at none of its operators. -/
theorem progress {p : Procedure α} (hp : p.Entry c) {a : α} (h : p.rule env c = .ok a d) :
    Progress p c d := by
  cases hp with
  | phrase p => exact progress_phrase h
  | closing => exact progress_closing h
  | arguments => exact progress_arguments h
  | call hf => exact progress_call hf h

/-! ### All steps -/

/-- **Whatever is done with a cursor**, it stays in step with the text. After `k` tokens it is in
front of the token with index `k`, which is the end if there are no more, and its position is the
byte after this token and never falls. From there every rule comes to an end, in one way. If it has
a result, then it has stepped over a token, and does not stop at an operator it goes on with. -/
theorem driving_sound (h : ReflTransGen (Step env) (0, .ofString source) (k, c)) :
    c.current = (tokenize source).getD k ⟨.finish, "", source.utf8ByteSize⟩ ∧
    ((Reader.ofString source).pull (k + 1)).getLast? = some (c.current, c.position) ∧
    c.position = c.current.offset + c.current.text.utf8ByteSize ∧
    (∀ k' c', Step env (k, c) (k', c') → k ≤ k' ∧ c.position ≤ c'.position) ∧
    ∀ {α : Type} (p : Procedure α), p.Entry c → ∃ m,
      (∀ m' x, Exec env (p.body env) c m' x ↔ m' = m ∧ x = p.rule env c) ∧
      ∀ a d, p.rule env c = .ok a d → 1 ≤ m ∧ d.ahead.length < c.ahead.length ∧
        ∀ op ∈ p.absorbed, d.current.kind ≠ .operator op := by
  obtain rfl : c = .after source k := after_of_steps h
  refine ⟨current_after source k, pull_after source k, rfl, fun k' c' hstep => ?_,
    fun p hp => ?_⟩
  · obtain ⟨hle, hc'⟩ := hstep.after
    obtain rfl : c' = .after source k' := hc'
    exact ⟨hle, position_mono source hle⟩
  · obtain ⟨m, hm⟩ := p.terminates (.after source k)
    refine ⟨m, fun m' x => ⟨fun hx => hx.unique hm, ?_⟩, fun a d hd => ?_⟩
    · rintro ⟨rfl, rfl⟩
      exact hm
    · obtain ⟨hlt, hop⟩ := progress hp hd
      rw [hd] at hm
      have hstop : d = Cursor.advance^[m] (.after source k) := hm.stop_eq
      refine ⟨Nat.one_le_iff_ne_zero.2 ?_, hlt, hop⟩
      rintro rfl
      rw [hstop] at hlt
      exact absurd hlt (Nat.lt_irrefl _)

/-- A closing parenthesis is no primary. It can be stepped over all the same, and read on. -/
theorem driving_sound_closing : ∃ c, ReflTransGen (Step {}) (0, .ofString ") 2") (1, c) ∧
    c.current.text = "2" ∧ c.position = 3 ∧
    ∃ m, 1 ≤ m ∧ Exec {} ((Procedure.phrase expression).body {}) c m (.ok 2 c.advance) := by
  let start := Cursor.ofString ") 2"
  have hk : start.current.kind = .rightParen := by decide +kernel
  have hprimary : Step {} (0, start) (0, start) := by
    refine .rule (.phrase .primary start) (m := 0) (x := .error ⟨.unexpectedToken ")", 0⟩ start)
      (.peek ?_)
    unfold Procedure.primaryCode
    rw [hk]
    exact .rejectAt _ _ _
  have hclosing : Step {} (0, start) (1, start.advance) := by
    refine .rule (.closing start) (m := 1) (x := .ok () start.advance) (.peek ?_)
    rw [if_pos hk]
    exact .skip (.pure () _)
  have hsteps : ReflTransGen (Step {}) (0, start) (1, start.advance) :=
    (ReflTransGen.single hprimary).tail hclosing
  have hrule : Rule.expression {} start.advance = .ok 2 start.advance.advance :=
    Rule.eq_ok_of_outcome (by decide +kernel)
  obtain ⟨hcurrent, -, -, -, hrules⟩ := driving_sound hsteps
  obtain ⟨m, hm, hok⟩ := hrules (.phrase expression) (.phrase expression start.advance)
  refine ⟨start.advance, hsteps, ?_, by decide +kernel, m, (hok _ _ hrule).1, ?_⟩
  · rw [hcurrent]
    decide +kernel
  · exact (hm _ _).2 ⟨rfl, hrule.symm⟩

end Calculator.Grammar
