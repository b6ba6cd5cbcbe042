import Calculator.Proofs.Grammar.Printing
import Calculator.Proofs.Grammar.Whole

/-!
# Texts, derivations and expressions

The value of a text is that of the derivation of its tokens, and the text of an expression has the
value of the expression. The link between the two is `readable`: the words of an expression are the
sentence of a tree with the same value, and with the parentheses that `words` puts, a tree of every
phrase that binds as loosely as the expression, or more so.
-/

namespace Calculator

open Grammar

/-! ### Tokens that spell words -/

/-- **The tokens have the given texts**, and the kinds that follow from them. -/
structure Spells (ts : List Token) (ws : List (List Char)) : Prop where
  texts : ts.map (·.text.toList) = ws
  kinds : ∀ token ∈ ts, token.kind = .ofLexeme token.text.toList

namespace Spells

variable {ts : List Token} {w : List Char} {ws vs : List (List Char)}

theorem cons (h : Spells ts (w :: ws)) : ∃ token us, ts = token :: us ∧
    token.text.toList = w ∧ token.kind = .ofLexeme w ∧ Spells us ws := by
  obtain ⟨token, us, rfl, htext, hus⟩ := List.map_eq_cons_iff.1 h.texts
  refine ⟨token, us, rfl, htext, ?_, hus, fun t ht => h.kinds t (List.mem_cons_of_mem _ ht)⟩
  rw [← htext]
  exact h.kinds token List.mem_cons_self

theorem append (h : Spells ts (ws ++ vs)) :
    ∃ us us', ts = us ++ us' ∧ Spells us ws ∧ Spells us' vs := by
  obtain ⟨us, us', rfl, hus, hus'⟩ := List.map_eq_append_iff.1 h.texts
  exact ⟨us, us', rfl, ⟨hus, fun t ht => h.kinds t (List.mem_append_left _ ht)⟩,
    ⟨hus', fun t ht => h.kinds t (List.mem_append_right _ ht)⟩⟩

theorem nil (h : Spells ts []) : ts = [] := List.map_eq_nil_iff.1 h.texts

theorem singleton (h : Spells ts [w]) :
    ∃ token, ts = [token] ∧ token.text.toList = w ∧ token.kind = .ofLexeme w := by
  obtain ⟨token, us, rfl, htext, hkind, hus⟩ := h.cons
  obtain rfl := hus.nil
  exact ⟨token, rfl, htext, hkind⟩

end Spells

/-! ### Trees of looser phrases -/

/-- **A tree of a phrase is one of every looser phrase.** -/
theorem exists_lift {p : Phrase} (t : Tree (.phrase p)) (q : Phrase) (h : q.rank ≤ p.rank) :
    ∃ t' : Tree (.phrase q), t'.tokens = t.tokens ∧ ∀ env, t'.eval env = t.eval env := by
  induction hn : p.rank - q.rank generalizing q with
  | zero =>
    obtain rfl : q = p := Phrase.rank_injective (by omega)
    exact ⟨t, rfl, fun _ => rfl⟩
  | succ n ih =>
    cases q with
    | primary =>
      have := p.rank_le
      have hrank : Phrase.primary.rank = 3 := rfl
      omega
    | chain level =>
      have hrank := rank_operand level
      have hlevel : (Phrase.chain level).rank = level.rank := rfl
      obtain ⟨t', htokens, heval⟩ := ih (operand level) (by omega) (by omega)
      exact ⟨.single t', htokens, heval⟩

/-! ### Trees in words -/

/-- **The words of an expression are the sentence of a tree with its value**, of any phrase that
binds as loosely. -/
def Readable (e : Expr) : Prop :=
  ∀ ts (p : Phrase), Spells ts e.words → p.rank ≤ e.rank →
    ∃ t : Tree (.phrase p), t.tokens = ts ∧ ∀ env, (t.eval env).toOption = e.eval env

theorem toOption_mapError {ε ε' α : Type} (f : ε → ε') (x : Except ε α) :
    (x.mapError f).toOption = x.toOption := by
  cases x <;> rfl

theorem readable_of_primary {e : Expr} (h : ∀ ts, Spells ts e.words →
    ∃ t : Tree (.phrase .primary), t.tokens = ts ∧ ∀ env, (t.eval env).toOption = e.eval env) :
    Readable e := by
  intro ts p hts _
  obtain ⟨t, htokens, heval⟩ := h ts hts
  obtain ⟨t', htokens', heval'⟩ := exists_lift t p p.rank_le
  refine ⟨t', htokens'.trans htokens, fun env => ?_⟩
  rw [heval', heval]

theorem Readable.enclosed {e : Expr} (h : Readable e) {ts : List Token} {p : Phrase}
    (hts : Spells ts (e.enclose p.rank e.words)) :
    ∃ t : Tree (.phrase p), t.tokens = ts ∧ ∀ env, (t.eval env).toOption = e.eval env := by
  unfold Expr.enclose at hts
  split at hts
  · obtain ⟨opening, us, rfl, -, hopening, hus⟩ := hts.cons
    obtain ⟨us, vs, rfl, hinner, hvs⟩ := hus.append
    obtain ⟨closing, rfl, -, hclosing⟩ := hvs.singleton
    obtain ⟨t, rfl, heval⟩ := h us expression hinner (Nat.zero_le _)
    have hopening : opening.kind = .leftParen := hopening
    have hclosing : closing.kind = .rightParen := hclosing
    obtain ⟨t', htokens', heval'⟩ :=
      exists_lift (.group ⟨opening, hopening⟩ t ⟨closing, hclosing⟩) p p.rank_le
    refine ⟨t', htokens', fun env => ?_⟩
    rw [heval', ← heval, Tree.eval]
  · next hle => exact h ts p hts (Nat.le_of_not_lt hle)

theorem readable_number (w : Numeral) : Readable (.number w) := by
  refine readable_of_primary fun ts hts => ?_
  obtain ⟨token, rfl, htext, hkind⟩ := hts.singleton
  rw [w.ofLexeme_text] at hkind
  refine ⟨.number token w.value hkind (by rw [htext]; exact w.digit), rfl, fun env => ?_⟩
  rw [Tree.eval, Expr.eval]
  split <;> rfl

theorem readable_constant (c : Constant) : Readable (.constant c) := by
  refine readable_of_primary fun ts hts => ?_
  obtain ⟨token, rfl, -, hkind⟩ := hts.singleton
  rw [c.ofLexeme_name] at hkind
  exact ⟨.constant c ⟨token, hkind⟩, rfl, fun env => by rw [Expr.eval]; rfl⟩

theorem readable_register (r : Register) : Readable (.register r) := by
  refine readable_of_primary fun ts hts => ?_
  obtain ⟨token, rfl, htext, hkind⟩ := hts.singleton
  rw [r.ofLexeme_name] at hkind
  have hname : Register.ofName? token.text = some r := by
    rw [String.toList_inj.1 htext, r.ofName?_name]
  exact ⟨.register r ⟨token, hkind⟩ hname, rfl, fun env => by rw [Expr.eval]; rfl⟩

theorem Readable.positive {e : Expr} (h : Readable e) : Readable (.positive e) := by
  refine readable_of_primary fun ts hts => ?_
  obtain ⟨sign, us, rfl, -, hsign, hus⟩ := hts.cons
  have hsign : sign.kind = .operator .add := hsign
  have hus : Spells us (e.enclose Phrase.primary.rank e.words) := hus
  obtain ⟨t, rfl, heval⟩ := h.enclosed hus
  refine ⟨.positive ⟨sign, hsign⟩ t, rfl, fun env => ?_⟩
  rw [Expr.eval, ← heval, Tree.eval]

theorem Readable.negative {e : Expr} (h : Readable e) : Readable (.negative e) := by
  refine readable_of_primary fun ts hts => ?_
  obtain ⟨sign, us, rfl, -, hsign, hus⟩ := hts.cons
  have hsign : sign.kind = .operator .sub := hsign
  have hus : Spells us (e.enclose Phrase.primary.rank e.words) := hus
  obtain ⟨t, rfl, heval⟩ := h.enclosed hus
  refine ⟨.negative ⟨sign, hsign⟩ t, rfl, fun env => ?_⟩
  rw [Expr.eval, ← heval, Tree.eval]
  cases t.eval env <;> rfl

/-- The left operand is of the level of the operator, and the right one is tighter. -/
theorem Readable.binary {left right : Expr} (op : Operator) (hl : Readable left)
    (hr : Readable right) : Readable (.binary op left right) := by
  intro ts p hts hp
  obtain ⟨us, vs, rfl, hus, hvs⟩ := hts.append
  obtain ⟨token, vs, rfl, -, hkind, hvs⟩ := hvs.cons
  rw [op.ofLexeme_symbol] at hkind
  rw [← rank_operand] at hvs
  have hus : Spells us (left.enclose (Phrase.chain op.level).rank left.words) := hus
  obtain ⟨tl, rfl, hevall⟩ := hl.enclosed hus
  obtain ⟨tr, rfl, hevalr⟩ := hr.enclosed hvs
  obtain ⟨t, htokens, heval⟩ := exists_lift (.binary tl op rfl ⟨token, hkind⟩ tr) p hp
  refine ⟨t, htokens, fun env => ?_⟩
  rw [heval, Expr.eval, ← hevall, ← hevalr]
  cases ha : tl.eval env with
  | error e =>
    rw [Tree.eval, ha]
    rfl
  | ok a =>
    cases hb : tr.eval env with
    | error e =>
      rw [Tree.eval, ha, hb]
      rfl
    | ok b =>
      rw [Tree.eval_binary ha hb, toOption_mapError, ← op.meaning_eq_apply]
      rfl

/-! ### Arguments -/

/-- One more item takes the room of one argument. -/
theorem bind_eval_more (env : Environment) (items : Tree .items) (comma : Terminal .comma)
    (t : Tree (.phrase expression)) (m : Nat) (rest : Option (List Float)) :
    (((Tree.more items comma t).eval env).toOption.bind fun values =>
      if values.length + m ≤ Rule.maxArguments then rest.map (values ++ ·) else none) =
    (items.eval env).toOption.bind fun values =>
      if values.length + (m + 1) ≤ Rule.maxArguments then
        ((t.eval env).toOption.bind fun value => rest.map (value :: ·)).map (values ++ ·)
      else none := by
  cases hvalues : items.eval env with
  | error e =>
    rw [Tree.eval, hvalues]
    rfl
  | ok values =>
    rw [Tree.eval_more hvalues]
    show _ = if values.length + (m + 1) ≤ Rule.maxArguments then _ else none
    by_cases hroom : values.length < Rule.maxArguments
    · rw [if_pos hroom]
      cases t.eval env with
      | error e =>
        show none = if _ then none else none
        rw [ite_self]
      | ok value =>
        have hlen : (values ++ [value]).length + m = values.length + (m + 1) := by
          simp
          omega
        show (if (values ++ [value]).length + m ≤ Rule.maxArguments then _ else none) = _
        rw [hlen]
        cases rest with
        | none => rfl
        | some rest =>
          show (if _ then some (values ++ [value] ++ rest) else none) =
            if _ then some (values ++ value :: rest) else none
          rw [List.append_assoc]
          rfl
    · rw [if_neg hroom, if_neg (by omega)]
      rfl

theorem exists_arguments {es : List Expr} (h : ∀ e ∈ es, Readable e) (items : Tree .items)
    {ts : List Token} (hts : Spells ts (Expr.moreWords es)) :
    ∃ args : Tree .arguments, args.tokens = items.tokens ++ ts ∧ ∀ env,
      (args.eval env).toOption = (items.eval env).toOption.bind fun values =>
        if values.length + es.length ≤ Rule.maxArguments then
          (Expr.evalAll env es).map (values ++ ·)
        else none := by
  induction es generalizing items ts with
  | nil =>
    obtain ⟨closing, rfl, -, hclosing⟩ := hts.singleton
    have hclosing : closing.kind = .rightParen := hclosing
    refine ⟨.someItems items ⟨closing, hclosing⟩, rfl, fun env => ?_⟩
    rw [Tree.eval]
    cases hitems : items.eval env with
    | error e => rfl
    | ok values =>
      have hlen : values.length = items.count := items.length_of_eval hitems
      have hcount := items.count_le_of_eval hitems
      show some values = if values.length + 0 ≤ Rule.maxArguments then some (values ++ []) else none
      rw [if_pos (by omega), List.append_nil]
  | cons e es ih =>
    obtain ⟨he, hes⟩ := List.forall_mem_cons.1 h
    obtain ⟨comma, us, rfl, -, hcomma, hus⟩ := hts.cons
    have hcomma : comma.kind = .comma := hcomma
    obtain ⟨us, vs, rfl, hus, hvs⟩ := hus.append
    obtain ⟨t, rfl, heval⟩ := he us expression hus (Nat.zero_le _)
    obtain ⟨args, htokens, hargs⟩ := ih hes (.more items ⟨comma, hcomma⟩ t) hvs
    refine ⟨args, by rw [htokens, Tree.tokens]; simp, fun env => ?_⟩
    rw [hargs, bind_eval_more, heval, Expr.evalAll]
    cases Expr.evalAll env es <;> rfl

theorem exists_allArguments {args : List Expr} (h : ∀ e ∈ args, Readable e) {ts : List Token}
    (hts : Spells ts (Expr.argumentWords args)) :
    ∃ t : Tree .arguments, t.tokens = ts ∧ ∀ env, (t.eval env).toOption =
      if args.length ≤ Rule.maxArguments then Expr.evalAll env args else none := by
  cases args with
  | nil =>
    obtain ⟨closing, rfl, -, hclosing⟩ := hts.singleton
    have hclosing : closing.kind = .rightParen := hclosing
    exact ⟨.noItems ⟨closing, hclosing⟩, rfl, fun env => rfl⟩
  | cons e es =>
    obtain ⟨he, hes⟩ := List.forall_mem_cons.1 h
    obtain ⟨us, vs, rfl, hus, hvs⟩ := hts.append
    obtain ⟨t, rfl, heval⟩ := he us expression hus (Nat.zero_le _)
    obtain ⟨args, htokens, hargs⟩ := exists_arguments hes (.item t) hvs
    refine ⟨args, htokens, fun env => ?_⟩
    rw [hargs, Tree.eval, Expr.evalAll, ← heval]
    cases t.eval env with
    | error e =>
      show none = if _ then none else none
      rw [ite_self]
    | ok value =>
      show (if 1 + es.length ≤ Rule.maxArguments then _ else none) =
        if es.length + 1 ≤ Rule.maxArguments then _ else none
      rw [Nat.add_comm 1]
      cases Expr.evalAll env es <;> rfl

theorem Readable.call {args : List Expr} (f : Function) (h : ∀ e ∈ args, Readable e) :
    Readable (.call f args) := by
  refine readable_of_primary fun ts hts => ?_
  obtain ⟨name, us, rfl, -, hname, hus⟩ := hts.cons
  obtain ⟨opening, vs, rfl, -, hopening, hvs⟩ := hus.cons
  rw [f.ofLexeme_name] at hname
  have hopening : opening.kind = .leftParen := hopening
  obtain ⟨t, rfl, heval⟩ := exists_allArguments h hvs
  refine ⟨.call f ⟨name, hname⟩ ⟨opening, hopening⟩ t, rfl, fun env => ?_⟩
  have hcall : (Expr.call f args).eval env = (t.eval env).toOption.bind fun values =>
      (f.apply values env.angleUnit).toOption := by
    rw [Expr.eval, heval]
    split <;> rfl
  rw [hcall]
  cases hvalues : t.eval env with
  | error e =>
    rw [Tree.eval, hvalues]
    rfl
  | ok values =>
    rw [Tree.eval_call hvalues, toOption_mapError]
    rfl

/-- **Every expression is the sentence of a tree with its value.** -/
theorem readable (e : Expr) : Readable e := by
  induction e using Expr.induct with
  | number w => exact readable_number w
  | constant c => exact readable_constant c
  | register r => exact readable_register r
  | positive e ih => exact ih.positive
  | negative e ih => exact ih.negative
  | binary op left right ihl ihr => exact ihl.binary op ihr
  | call f args ih => exact .call f ih

/-! ### Texts -/

theorem evaluate_words {env : Environment} {source : String} {e : Expr}
    (h : (tokens source).map (·.text.toList) = e.words) :
    (evaluate env source).toOption = e.eval env := by
  have hspells : Spells (tokens source) e.words := ⟨h, fun _ => kind_of_mem_tokens⟩
  obtain ⟨t, ht, heval⟩ := readable e (tokens source) expression hspells (Nat.zero_le _)
  rw [evaluate_tokens t ht.symm, heval]

/-- **Texts have the values of their derivations, and expressions those of their texts.** A text has
a value exactly if its tokens are the sentence of an admissible derivation tree with that value; and
the text that an expression is written as has a value exactly if the expression does. -/
theorem evaluate_adequate (env : Environment) (value : Float) :
    (∀ source, evaluate env source = .ok value ↔ ∃ t : Tree (.phrase expression),
      t.tokens = tokens source ∧ t.Admissible ∧ t.eval env = .ok value) ∧
    ∀ e : Expr, evaluate env e.render = .ok value ↔ e.eval env = some value := by
  constructor
  · intro source
    rw [evaluate_eq_ok_iff]
    constructor
    · rintro ⟨t, ht, heval⟩
      exact ⟨t, ht, t.admissible_of_eval heval, heval⟩
    · rintro ⟨t, ht, -, heval⟩
      exact ⟨t, ht, heval⟩
  · intro e
    rw [← evaluate_words e.tokens_render]
    cases evaluate env e.render <;> simp [Except.toOption]

end Calculator
