import Calculator.Proofs.Grammar.Tree
import Calculator.Proofs.Guards

/-!
# The values of trees

What the value of a tree, or its absence, says about the tree.

* `Tree.length_of_eval`, `Tree.admissible_of_eval`: a tree with a value is admissible, and its
  arguments are as many as their values;
* `Tree.all_of_eval`, `Tree.isFinite_of_eval`: what holds of the registers and of all finite numbers
  holds of every value; so if the registers are finite, then so is every value;
* `Tree.not_isSyntactic_of_eval`: the rejection of a tree is never one of its form.
-/

namespace Calculator

/-- The flaws of the form of an expression; the others are found by evaluating its parts. -/
def Flaw.IsSyntactic (flaw : Flaw) : Prop :=
  flaw = .invalidSyntax ∨ flaw = .mismatchedParentheses ∨ flaw = .invalidCharacter

namespace Grammar

/-! ### Results of binds -/

section Bind

variable {ε α β : Type} {x : Except ε α} {f : α → Except ε β}

theorem bind_eq_ok {b : β} : (x >>= f) = .ok b ↔ ∃ a, x = .ok a ∧ f a = .ok b := by
  cases x with
  | error e => simp [bind, Except.bind]
  | ok a => simp [bind, Except.bind]

theorem bind_eq_error {e : ε} :
    (x >>= f) = .error e ↔ x = .error e ∨ ∃ a, x = .ok a ∧ f a = .error e := by
  cases x with
  | error e => simp [bind, Except.bind]
  | ok a => simp [bind, Except.bind]

theorem mapError_eq_ok {ε' : Type} {g : ε → ε'} {a : α} : x.mapError g = .ok a ↔ x = .ok a := by
  constructor
  · intro h
    cases x with
    | error e => cases h
    | ok b =>
      cases h
      rfl
  · rintro rfl
    rfl

theorem mapError_eq_error {ε' : Type} {g : ε → ε'} {e' : ε'} :
    x.mapError g = .error e' ↔ ∃ e, x = .error e ∧ g e = e' := by
  cases x with
  | error e =>
    constructor
    · intro h
      exact ⟨e, rfl, Except.error.inj h⟩
    · rintro ⟨_, h, rfl⟩
      cases h
      rfl
  | ok a =>
    constructor
    · intro h
      cases h
    · rintro ⟨_, h, -⟩
      cases h

end Bind

/-! ### The shape of a value -/

/-- The number of values. -/
def Category.length : (k : Category) → k.Value → Nat
  | .phrase _, _ => 1
  | .items, values | .arguments, values => values.length

/-- All values have a property. -/
def Category.All (P : Float → Prop) : (k : Category) → k.Value → Prop
  | .phrase _, value => P value
  | .items, values | .arguments, values => ∀ value ∈ values, P value

namespace Tree

variable {env : Environment} {k : Category}

theorem length_of_eval (t : Tree k) {value : k.Value} (h : t.eval env = .ok value) :
    k.length value = t.count := by
  induction t with
  | number | constant | register | positive | negative | group | call | single | binary => rfl
  | item t ih =>
    obtain ⟨a, -, h⟩ := bind_eq_ok.1 h
    cases h
    rfl
  | more before comma t ihb iht =>
    obtain ⟨values, hvalues, h⟩ := bind_eq_ok.1 h
    split at h
    · obtain ⟨a, -, h⟩ := bind_eq_ok.1 h
      cases h
      have hlen : values.length = before.count := ihb hvalues
      show (values ++ [a]).length = before.count + 1
      rw [List.length_append, hlen]
      rfl
    · cases h
  | noItems closing =>
    cases h
    rfl
  | someItems items closing ih => exact ih h

theorem count_le_of_eval (t : Tree k) {value : k.Value} (h : t.eval env = .ok value) :
    t.count ≤ Rule.maxArguments := by
  induction t with
  | number | constant | register | positive | negative | group | call | single | binary | item |
    noItems => simp [count, Rule.maxArguments]
  | more before comma t ihb iht =>
    obtain ⟨values, hvalues, h⟩ := bind_eq_ok.1 h
    have hlen : values.length = before.count := before.length_of_eval hvalues
    split at h
    · next hlt =>
      show before.count + 1 ≤ Rule.maxArguments
      omega
    · cases h
  | someItems items closing ih => exact ih h

/-- **A tree with a value is admissible.** -/
theorem admissible_of_eval (t : Tree k) {value : k.Value} (h : t.eval env = .ok value) :
    t.Admissible := by
  induction t with
  | number token x kind digit =>
    rw [eval] at h
    split at h
    · next hf => exact hf
    · cases h
  | constant | register | noItems => exact trivial
  | positive sign t ih | group opening t closing ih | single t ih | someItems t closing ih =>
    exact ih h
  | negative sign t ih | item t ih =>
    obtain ⟨a, ha, -⟩ := bind_eq_ok.1 h
    exact ih ha
  | call f name opening args ih =>
    obtain ⟨values, hvalues, -⟩ := bind_eq_ok.1 h
    exact ⟨args.count_le_of_eval hvalues, ih hvalues⟩
  | binary left op binds token right ihl ihr =>
    obtain ⟨a, ha, h⟩ := bind_eq_ok.1 h
    obtain ⟨b, hb, -⟩ := bind_eq_ok.1 h
    exact ⟨ihl ha, ihr hb⟩
  | more before comma t ihb iht =>
    obtain ⟨values, hvalues, h⟩ := bind_eq_ok.1 h
    split at h
    · obtain ⟨a, ha, -⟩ := bind_eq_ok.1 h
      exact ⟨ihb hvalues, iht ha⟩
    · cases h

/-! ### Finite values -/

theorem isFinite_constant (c : Constant) : IsFinite c.value := by
  cases c <;> decide

/-- **What the registers have in common with all finite numbers, the values have too**, if negation
keeps it. -/
theorem all_of_eval {P : Float → Prop} (hfinite : ∀ x, IsFinite x → P x)
    (hneg : ∀ x, P x → P (-x)) (hm : P env.memory) (hl : P env.lastResult) (t : Tree k)
    {value : k.Value} (h : t.eval env = .ok value) : k.All P value := by
  induction t with
  | number token x kind digit =>
    rw [eval] at h
    split at h
    · next hf =>
      cases h
      exact hfinite _ hf
    · cases h
  | constant c token =>
    cases h
    exact hfinite _ (isFinite_constant c)
  | register r token name =>
    cases h
    cases r with
    | memory => exact hm
    | lastResult => exact hl
  | positive sign t ih | group opening t closing ih | single t ih | someItems t closing ih =>
    exact ih h
  | negative sign t ih =>
    obtain ⟨a, ha, h⟩ := bind_eq_ok.1 h
    cases h
    exact hneg a (ih ha)
  | call f name opening args ih =>
    obtain ⟨values, -, h⟩ := bind_eq_ok.1 h
    split at h
    · next hv =>
      cases h
      exact hfinite _ (Function.isFinite_of_apply hv)
    · cases h
  | binary left op binds token right ihl ihr =>
    obtain ⟨a, -, h⟩ := bind_eq_ok.1 h
    obtain ⟨b, -, h⟩ := bind_eq_ok.1 h
    split at h
    · next hv =>
      cases h
      rw [op.meaning_eq_apply] at hv
      exact hfinite _ (Operator.isFinite_of_apply hv)
    · cases h
  | item t ih =>
    obtain ⟨a, ha, h⟩ := bind_eq_ok.1 h
    cases h
    intro x hx
    rw [List.mem_singleton.1 hx]
    exact ih ha
  | more before comma t ihb iht =>
    obtain ⟨values, hvalues, h⟩ := bind_eq_ok.1 h
    split at h
    · obtain ⟨a, ha, h⟩ := bind_eq_ok.1 h
      cases h
      intro x hx
      rcases List.mem_append.1 hx with hx | hx
      · exact ihb hvalues x hx
      · rw [List.mem_singleton.1 hx]
        exact iht ha
    · cases h
  | noItems closing =>
    cases h
    exact fun x hx => by cases hx

theorem isFinite_of_eval (hm : IsFinite env.memory) (hl : IsFinite env.lastResult) (t : Tree k)
    {value : k.Value} (h : t.eval env = .ok value) : k.All IsFinite value :=
  t.all_of_eval (fun _ => id) (fun a ha => (Double.isFinite_neg a).trans ha) hm hl h

/-! ### Rejections -/

/-- **The rejection of a tree is not one of its form.** -/
theorem not_isSyntactic_of_eval (t : Tree k) {e : Rejection} (h : t.eval env = .error e) :
    ¬ e.flaw.IsSyntactic := by
  induction t with
  | number token x kind digit =>
    rw [eval] at h
    split at h
    · cases h
    · cases h
      simp [Rejection.flaw, Cause.flaw, Flaw.IsSyntactic]
  | constant | register | noItems => cases h
  | positive sign t ih | group opening t closing ih | single t ih | someItems t closing ih =>
    exact ih h
  | negative sign t ih | item t ih =>
    rcases bind_eq_error.1 h with h | ⟨a, -, h⟩
    · exact ih h
    · cases h
  | call f name opening args ih =>
    rcases bind_eq_error.1 h with h | ⟨values, -, h⟩
    · exact ih h
    · split at h
      · cases h
      · next flaw hf =>
        cases h
        show ¬ flaw.IsSyntactic
        rcases Function.flaw_of_apply hf with ⟨rfl, -⟩ | ⟨rfl, -⟩ | ⟨rfl, -⟩ | rfl <;>
          simp [Flaw.IsSyntactic]
  | binary left op binds token right ihl ihr =>
    rcases bind_eq_error.1 h with h | ⟨a, -, h⟩
    · exact ihl h
    · rcases bind_eq_error.1 h with h | ⟨b, -, h⟩
      · exact ihr h
      · split at h
        · cases h
        · next flaw hf =>
          cases h
          rw [op.meaning_eq_apply] at hf
          show ¬ flaw.IsSyntactic
          rcases Operator.flaw_of_apply hf with rfl | ⟨rfl, -⟩ <;> simp [Flaw.IsSyntactic]
  | more before comma t ihb iht =>
    rcases bind_eq_error.1 h with h | ⟨values, -, h⟩
    · exact ihb h
    · split at h
      · rcases bind_eq_error.1 h with h | ⟨a, -, h⟩
        · exact iht h
        · cases h
      · cases h
        simp [Rejection.flaw, Cause.flaw, Flaw.IsSyntactic]

end Tree

end Grammar

end Calculator
