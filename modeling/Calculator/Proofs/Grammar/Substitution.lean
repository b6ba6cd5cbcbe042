import Calculator.Proofs.Grammar.Adequacy
import Calculator.Proofs.Sessions
import Calculator.Proofs.Tokens.Replacement

/-!
# A register stands for what was stored in it

If a register holds the value of an expression, then its names can be replaced by the expression in
parentheses.

* `Interprets env env' σ`: under `env`, the words `σ w` mean what the word `w` means under `env'`.
  Only names of registers mean anything else;
* `respells`: then the words of a tree, each replaced by `σ`, are the sentence of a tree that has its
  value;
* `evaluate_replaceRegister`: this holds of the parenthesised text of an expression.
-/

namespace Calculator

open Grammar Lexeme

variable {env env' : Environment} {σ : List Char → List (List Char)} {k : Category} {level : Level}
  {ts : List Token} {token : Token} {ws : List (List Char)} {r : Register} {value : Float}

/-! ### Interpretations of words -/

/-- **What words mean under `env` is what names of registers mean under `env'`.** -/
structure Interprets (env env' : Environment) (σ : List Char → List (List Char)) : Prop where
  unit : env.angleUnit = env'.angleUnit
  name : ∀ w r, Register.ofName? (String.ofList w) = some r → ∀ ts, Spells ts (σ w) →
    ∃ t : Tree (.phrase .primary), t.tokens = ts ∧ t.eval env = .ok (env'.read r)
  other : ∀ w, Register.ofName? (String.ofList w) = none → σ w = [w]

/-- The words of some tokens, each replaced. -/
def rewords (σ : List Char → List (List Char)) (ts : List Token) : List (List Char) :=
  ts.flatMap fun token => σ token.text.toList

theorem rewords_append (ts us : List Token) :
    rewords σ (ts ++ us) = rewords σ ts ++ rewords σ us := List.flatMap_append

theorem Register.ofLexeme_of_ofName? {name : String} (h : Register.ofName? name = some r) :
    TokenKind.ofLexeme name.toList = .variable := by
  have hname := Register.mem_of_ofName? h
  simp only [List.mem_cons, List.not_mem_nil, or_false] at hname
  rcases hname with rfl | rfl | rfl | rfl <;> decide +kernel

theorem Interprets.leaf (h : Interprets env env' σ) {kind : TokenKind} (hk : token.kind = kind)
    (hv : kind ≠ .variable) (hl : token.kind = .ofLexeme token.text.toList)
    (hts : Spells ts (σ token.text.toList ++ ws)) :
    ∃ leaf us, ts = leaf :: us ∧ leaf.text = token.text ∧ leaf.kind = kind ∧ Spells us ws := by
  have hname : Register.ofName? (String.ofList token.text.toList) = none := by
    rw [String.ofList_toList]
    cases hr : Register.ofName? token.text with
    | none => rfl
    | some r => exact absurd (hk.symm.trans (hl.trans (Register.ofLexeme_of_ofName? hr))) hv
  rw [h.other _ hname, List.singleton_append] at hts
  obtain ⟨leaf, us, rfl, htext, hkind, hus⟩ := hts.cons
  exact ⟨leaf, us, rfl, String.toList_inj.1 htext, by rw [hkind, ← hl, hk], hus⟩

/-! ### Trees in other words -/

/-- **The replaced words of a tree are the sentence of a tree with its value.** -/
def Respells (env env' : Environment) (σ : List Char → List (List Char)) (t : Tree k) : Prop :=
  (∀ token ∈ t.tokens, token.kind = .ofLexeme token.text.toList) →
    ∀ ts, Spells ts (rewords σ t.tokens) →
      ∃ t' : Tree k, t'.tokens = ts ∧ ∀ value, t.eval env' = .ok value → t'.eval env = .ok value

section Leaves

variable (h : Interprets env env' σ)
include h

theorem respells_number (hk : token.kind = .number value)
    (digit : token.text.toList.any Char.isDigit = true) :
    Respells env env' σ (.number token value hk digit) := by
  intro hl ts hts
  have hl := hl token (List.mem_singleton_self _)
  obtain ⟨leaf, us, rfl, htext, hkind, hus⟩ := h.leaf hk (by simp) hl hts
  obtain rfl := hus.nil
  refine ⟨.number leaf value hkind (by rw [htext]; exact digit), rfl, fun x hx => ?_⟩
  rw [Tree.eval] at hx ⊢
  split at hx
  · next hfin => rwa [if_pos hfin]
  · cases hx

theorem respells_constant (c : Constant) (token : Terminal (.constant c)) :
    Respells env env' σ (.constant c token) := by
  intro hl ts hts
  have hl := hl token.val (List.mem_singleton_self _)
  obtain ⟨leaf, us, rfl, -, hkind, hus⟩ := h.leaf token.property (by simp) hl hts
  obtain rfl := hus.nil
  exact ⟨.constant c ⟨leaf, hkind⟩, rfl, fun x hx => hx⟩

theorem respells_register (token : Terminal .variable)
    (name : Register.ofName? token.val.text = some r) :
    Respells env env' σ (.register r token name) := by
  intro hl ts hts
  have hts : Spells ts (σ token.val.text.toList ++ []) := hts
  rw [List.append_nil] at hts
  obtain ⟨t, ht, heval⟩ := h.name _ r (by rwa [String.ofList_toList]) ts hts
  refine ⟨t, ht, fun x hx => ?_⟩
  cases hx
  exact heval

theorem respells_noItems (closing : Terminal .rightParen) :
    Respells env env' σ (.noItems closing) := by
  intro hl ts hts
  have hl := hl closing.val (List.mem_singleton_self _)
  obtain ⟨leaf, us, rfl, -, hkind, hus⟩ := h.leaf closing.property (by simp) hl hts
  obtain rfl := hus.nil
  exact ⟨.noItems ⟨leaf, hkind⟩, rfl, fun x hx => hx⟩

end Leaves

namespace Respells

variable {t : Tree (.phrase .primary)} {e : Tree (.phrase expression)}

theorem positive (h : Interprets env env' σ) (sign : Terminal (.operator .add))
    (ht : Respells env env' σ t) : Respells env env' σ (.positive sign t) := by
  intro hl ts hts
  obtain ⟨hsign, hl⟩ := List.forall_mem_cons.1 hl
  obtain ⟨leaf, us, rfl, -, hkind, hus⟩ := h.leaf sign.property (by simp) hsign hts
  obtain ⟨t', rfl, heval⟩ := ht hl us hus
  exact ⟨.positive ⟨leaf, hkind⟩ t', rfl, fun x hx => heval x hx⟩

theorem negative (h : Interprets env env' σ) (sign : Terminal (.operator .sub))
    (ht : Respells env env' σ t) : Respells env env' σ (.negative sign t) := by
  intro hl ts hts
  obtain ⟨hsign, hl⟩ := List.forall_mem_cons.1 hl
  obtain ⟨leaf, us, rfl, -, hkind, hus⟩ := h.leaf sign.property (by simp) hsign hts
  obtain ⟨t', rfl, heval⟩ := ht hl us hus
  refine ⟨.negative ⟨leaf, hkind⟩ t', rfl, fun x hx => ?_⟩
  obtain ⟨a, ha, hx⟩ := bind_eq_ok.1 hx
  exact bind_eq_ok.2 ⟨a, heval a ha, hx⟩

theorem group (h : Interprets env env' σ) (opening : Terminal .leftParen)
    (closing : Terminal .rightParen) (he : Respells env env' σ e) :
    Respells env env' σ (.group opening e closing) := by
  intro hl ts hts
  obtain ⟨hopening, hl⟩ := List.forall_mem_cons.1 hl
  obtain ⟨hl, hclosing⟩ := List.forall_mem_append.1 hl
  obtain ⟨left, inner, rfl, -, hleft, hinner⟩ := h.leaf opening.property (by simp) hopening hts
  have hinner : Spells inner (rewords σ (e.tokens ++ [closing.val])) := hinner
  rw [rewords_append] at hinner
  obtain ⟨us, vs, rfl, hus, hvs⟩ := hinner.append
  have hclosing := hclosing closing.val (List.mem_singleton_self _)
  obtain ⟨right, vs, rfl, -, hright, hvs⟩ := h.leaf closing.property (by simp) hclosing hvs
  obtain rfl := hvs.nil
  obtain ⟨e', rfl, heval⟩ := he hl us hus
  exact ⟨.group ⟨left, hleft⟩ e' ⟨right, hright⟩, rfl, fun x hx => heval x hx⟩

theorem call (h : Interprets env env' σ) {f : Function} (name : Terminal (.function f))
    (opening : Terminal .leftParen) {args : Tree .arguments} (ha : Respells env env' σ args) :
    Respells env env' σ (.call f name opening args) := by
  intro hl ts hts
  obtain ⟨hname, hl⟩ := List.forall_mem_cons.1 hl
  obtain ⟨hopening, hl⟩ := List.forall_mem_cons.1 hl
  obtain ⟨leaf, us, rfl, -, hleaf, hus⟩ := h.leaf name.property (by simp) hname hts
  obtain ⟨left, vs, rfl, -, hleft, hvs⟩ := h.leaf opening.property (by simp) hopening hus
  obtain ⟨args', rfl, heval⟩ := ha hl vs hvs
  refine ⟨.call f ⟨leaf, hleaf⟩ ⟨left, hleft⟩ args', rfl, fun x hx => ?_⟩
  obtain ⟨values, hvalues, -⟩ := bind_eq_ok.1 hx
  rw [Tree.eval_call hvalues, mapError_eq_ok] at hx
  rw [Tree.eval_call (heval values hvalues), h.unit, mapError_eq_ok]
  exact hx

theorem single {t : Tree (.phrase (operand level))} (ht : Respells env env' σ t) :
    Respells env env' σ (.single t) := by
  intro hl ts hts
  obtain ⟨t', rfl, heval⟩ := ht hl ts hts
  exact ⟨.single t', rfl, fun x hx => heval x hx⟩

theorem binary (h : Interprets env env' σ) {left : Tree (.phrase (.chain level))} {op : Operator}
    (binds : op.level = level) (token : Terminal (.operator op))
    {right : Tree (.phrase (operand level))} (hleft : Respells env env' σ left)
    (hright : Respells env env' σ right) : Respells env env' σ (.binary left op binds token right) := by
  intro hl ts hts
  obtain ⟨hll, hl⟩ := List.forall_mem_append.1 hl
  obtain ⟨hlt, hlr⟩ := List.forall_mem_cons.1 hl
  have hts : Spells ts (rewords σ (left.tokens ++ token.val :: right.tokens)) := hts
  rw [rewords_append] at hts
  obtain ⟨us, vs, rfl, hus, hvs⟩ := hts.append
  obtain ⟨leaf, vs, rfl, -, hleaf, hvs⟩ := h.leaf token.property (by simp) hlt hvs
  obtain ⟨left', rfl, hevall⟩ := hleft hll us hus
  obtain ⟨right', rfl, hevalr⟩ := hright hlr vs hvs
  refine ⟨.binary left' op binds ⟨leaf, hleaf⟩ right', rfl, fun x hx => ?_⟩
  obtain ⟨a, ha, hx'⟩ := bind_eq_ok.1 hx
  obtain ⟨b, hb, -⟩ := bind_eq_ok.1 hx'
  rw [Tree.eval_binary ha hb, mapError_eq_ok] at hx
  rw [Tree.eval_binary (hevall a ha) (hevalr b hb), mapError_eq_ok]
  exact hx

theorem item (he : Respells env env' σ e) : Respells env env' σ (.item e) := by
  intro hl ts hts
  obtain ⟨e', rfl, heval⟩ := he hl ts hts
  refine ⟨.item e', rfl, fun x hx => ?_⟩
  obtain ⟨a, ha, hx⟩ := bind_eq_ok.1 hx
  exact bind_eq_ok.2 ⟨a, heval a ha, hx⟩

theorem more (h : Interprets env env' σ) {before : Tree .items} (comma : Terminal .comma)
    (hb : Respells env env' σ before) (he : Respells env env' σ e) :
    Respells env env' σ (.more before comma e) := by
  intro hl ts hts
  obtain ⟨hlb, hl⟩ := List.forall_mem_append.1 hl
  obtain ⟨hlc, hle⟩ := List.forall_mem_cons.1 hl
  have hts : Spells ts (rewords σ (before.tokens ++ comma.val :: e.tokens)) := hts
  rw [rewords_append] at hts
  obtain ⟨us, vs, rfl, hus, hvs⟩ := hts.append
  obtain ⟨leaf, vs, rfl, -, hleaf, hvs⟩ := h.leaf comma.property (by simp) hlc hvs
  obtain ⟨before', rfl, hevalb⟩ := hb hlb us hus
  obtain ⟨e', rfl, hevale⟩ := he hle vs hvs
  refine ⟨.more before' ⟨leaf, hleaf⟩ e', rfl, fun x hx => ?_⟩
  obtain ⟨values, hvalues, hx⟩ := bind_eq_ok.1 hx
  refine bind_eq_ok.2 ⟨values, hevalb values hvalues, ?_⟩
  split at hx
  · next hlen =>
    obtain ⟨a, ha, hx⟩ := bind_eq_ok.1 hx
    rw [if_pos hlen]
    exact bind_eq_ok.2 ⟨a, hevale a ha, hx⟩
  · cases hx

theorem someItems (h : Interprets env env' σ) {items : Tree .items}
    (closing : Terminal .rightParen) (hi : Respells env env' σ items) :
    Respells env env' σ (.someItems items closing) := by
  intro hl ts hts
  obtain ⟨hli, hlc⟩ := List.forall_mem_append.1 hl
  have hts : Spells ts (rewords σ (items.tokens ++ [closing.val])) := hts
  rw [rewords_append] at hts
  obtain ⟨us, vs, rfl, hus, hvs⟩ := hts.append
  have hlc := hlc closing.val (List.mem_singleton_self _)
  obtain ⟨leaf, vs, rfl, -, hleaf, hvs⟩ := h.leaf closing.property (by simp) hlc hvs
  obtain rfl := hvs.nil
  obtain ⟨items', rfl, heval⟩ := hi hli us hus
  exact ⟨.someItems items' ⟨leaf, hleaf⟩, rfl, fun x hx => heval x hx⟩

end Respells

/-- **Every tree can be put into other words** that mean the same. -/
theorem respells (h : Interprets env env' σ) (t : Tree k) : Respells env env' σ t := by
  induction t with
  | number token value kind digit => exact respells_number h kind digit
  | constant c token => exact respells_constant h c token
  | register r token name => exact respells_register h token name
  | positive sign t ih => exact ih.positive h sign
  | negative sign t ih => exact ih.negative h sign
  | group opening t closing ih => exact ih.group h opening closing
  | call f name opening args ih => exact ih.call h name opening
  | single t ih => exact ih.single
  | binary left op binds token right ihl ihr => exact ihl.binary h binds token ihr
  | item t ih => exact ih.item
  | more before comma t ihb iht => exact ihb.more h comma iht
  | noItems closing => exact respells_noItems h closing
  | someItems items closing ih => exact ih.someItems h closing

/-! ### Expressions for registers -/

theorem exists_register {w : List Char} (h : Register.ofName? (String.ofList w) = some r)
    (hts : Spells ts [w]) :
    ∃ t : Tree (.phrase .primary), t.tokens = ts ∧ ∀ env, t.eval env = .ok (env.read r) := by
  obtain ⟨token, rfl, htext, hkind⟩ := hts.singleton
  have hname : Register.ofName? token.text = some r := by rwa [← htext, String.ofList_toList] at h
  have hvariable : token.kind = .variable := by
    rw [hkind, ← htext]
    exact Register.ofLexeme_of_ofName? hname
  exact ⟨.register r ⟨token, hvariable⟩ hname, rfl, fun env => rfl⟩

theorem interprets_self (env : Environment) : Interprets env env fun w => [w] := by
  refine ⟨rfl, fun w r hr ts hts => ?_, fun w _ => rfl⟩
  obtain ⟨t, ht, heval⟩ := exists_register hr hts
  exact ⟨t, ht, heval env⟩

theorem exists_expression {source : String} (h : evaluate env source = .ok value)
    (hts : Spells ts (lexemes source.toList)) :
    ∃ t : Tree (.phrase expression), t.tokens = ts ∧ t.eval env = .ok value := by
  obtain ⟨t, ht, heval⟩ := evaluate_eq_ok_iff.1 h
  have hkinds : ∀ token ∈ t.tokens, token.kind = .ofLexeme token.text.toList := by
    rw [ht]
    exact fun token => kind_of_mem_tokens
  have hwords : rewords (fun w => [w]) t.tokens = lexemes source.toList := by
    rw [ht, ← map_text_tokens]
    exact List.map_eq_flatMap.symm
  rw [← hwords] at hts
  obtain ⟨t', ht', heval'⟩ := respells (interprets_self env) t hkinds ts hts
  exact ⟨t', ht', heval' value heval⟩

theorem exists_group {source : String} (h : evaluate env source = .ok value)
    (hts : Spells ts (['('] :: (lexemes source.toList ++ [[')']]))) :
    ∃ t : Tree (.phrase .primary), t.tokens = ts ∧ t.eval env = .ok value := by
  obtain ⟨opening, inner, rfl, -, hopening, hinner⟩ := hts.cons
  obtain ⟨us, vs, rfl, hus, hvs⟩ := hinner.append
  obtain ⟨closing, rfl, -, hclosing⟩ := hvs.singleton
  have hopening : opening.kind = .leftParen := hopening
  have hclosing : closing.kind = .rightParen := hclosing
  obtain ⟨t, rfl, heval⟩ := exists_expression h hus
  exact ⟨.group ⟨opening, hopening⟩ t ⟨closing, hclosing⟩, rfl, heval⟩

/-- Another number in a register. -/
def Environment.write (env : Environment) (x : Float) : Register → Environment
  | .memory => { env with memory := x }
  | .lastResult => { env with lastResult := x }

theorem Environment.angleUnit_write (env : Environment) (x : Float) (r : Register) :
    (env.write x r).angleUnit = env.angleUnit := by cases r <;> rfl

theorem Environment.read_write_self (env : Environment) (x : Float) (r : Register) :
    (env.write x r).read r = x := by cases r <;> rfl

theorem Environment.read_write_of_ne (env : Environment) (x : Float) {r r' : Register}
    (h : r' ≠ r) : (env.write x r).read r' = env.read r' := by
  cases r with
  | memory =>
    cases r' with
    | memory => exact absurd rfl h
    | lastResult => rfl
  | lastResult =>
    cases r' with
    | memory => rfl
    | lastResult => exact absurd rfl h

/-- **An expression in parentheses means what a register holds that its value was written to.** -/
theorem interprets_replacementWords {source : String} (h : evaluate env source = .ok value)
    (r : Register) : Interprets env (env.write value r) (replacementWords r source.toList) := by
  refine ⟨(env.angleUnit_write value r).symm, fun w r' hr' ts hts => ?_, fun w hw => ?_⟩
  · unfold replacementWords at hts
    by_cases hr : r' = r
    · subst hr
      rw [if_pos hr'] at hts
      rw [env.read_write_self]
      exact exists_group h hts
    · have hne : ¬ Register.ofName? (String.ofList w) = some r := by
        rw [hr']
        simpa using hr
      rw [if_neg hne] at hts
      obtain ⟨t, ht, heval⟩ := exists_register hr' hts
      rw [env.read_write_of_ne value hr]
      exact ⟨t, ht, heval env⟩
  · unfold replacementWords
    rw [hw]
    rfl

/-- **A register can be replaced by the expression whose value it holds.** -/
theorem evaluate_replaceRegister {r : Register} {a b : String} {x y : Float}
    (ha : evaluate env a = .ok x) (hb : evaluate (env.write x r) b = .ok y) :
    evaluate env (replaceRegister r a b) = .ok y := by
  obtain ⟨t, ht, heval⟩ := evaluate_eq_ok_iff.1 hb
  have hkinds : ∀ token ∈ t.tokens, token.kind = .ofLexeme token.text.toList := by
    rw [ht]
    exact fun token => kind_of_mem_tokens
  have hwords : rewords (replacementWords r a.toList) t.tokens =
      (tokens (replaceRegister r a b)).map (·.text.toList) := by
    rw [map_text_tokens, lexemes_replaceRegister, ← map_text_tokens, ht, List.flatMap_map]
    rfl
  have hspells : Spells (tokens (replaceRegister r a b))
      (rewords (replacementWords r a.toList) t.tokens) :=
    ⟨hwords.symm, fun token => kind_of_mem_tokens⟩
  obtain ⟨t', ht', heval'⟩ := respells (interprets_replacementWords ha r) t hkinds _ hspells
  exact evaluate_eq_ok_iff.2 ⟨t', ht', heval' y heval⟩

/-- **Registers are transparent.** If an expression has a value, then in the text of another one it
can stand in parentheses for the last result, once it has been evaluated, and for the memory, once
its value has been stored there. -/
theorem registers_transparent (s : Session) (a b : String) (x y : Float)
    (ha : evaluate s.toEnvironment a = .ok x) :
    (((s.evaluate a).2.evaluate b).1 = .ok y →
      evaluate s.toEnvironment (replaceRegister .lastResult a b) = .ok y) ∧
    (evaluate (s.memoryStore x).toEnvironment b = .ok y →
      evaluate s.toEnvironment (replaceRegister .memory a b) = .ok y) := by
  constructor
  · intro hb
    rw [Session.fst_evaluate_eq_ok_iff, Session.toEnvironment_evaluate ha] at hb
    exact evaluate_replaceRegister ha hb
  · exact fun hb => evaluate_replaceRegister ha hb

/-- The registers in the first expression are those before it was evaluated. -/
theorem registers_transparent_sub :
    let s := (Session.new.evaluate "2 + 3").2.memoryStore 4.0
    evaluate s.toEnvironment "M - ans" = .ok (-1.0) ∧
    evaluate s.toEnvironment "2 * (M - ans) - M" = .ok (-6.0) ∧
    evaluate s.toEnvironment "2 * ans - (M - ans)" = .ok 11.0 := by
  intro s
  have ha : evaluate s.toEnvironment "M - ans" = .ok (-1.0) := by decide +kernel
  have hans : replaceRegister .lastResult "M - ans" "2 * ans - M" = "2 * (M - ans) - M" := by
    decide +kernel
  have hmemory : replaceRegister .memory "M - ans" "2 * ans - M" = "2 * ans - (M - ans)" := by
    decide +kernel
  refine ⟨ha, ?_, ?_⟩
  · rw [← hans]
    exact (registers_transparent s _ _ _ _ ha).1 (by decide +kernel)
  · rw [← hmemory]
    exact (registers_transparent s _ _ _ _ ha).2 (by decide +kernel)

end Calculator
