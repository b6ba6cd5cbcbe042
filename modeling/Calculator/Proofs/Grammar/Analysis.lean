import Calculator.Proofs.Grammar.Evaluation
import Calculator.Proofs.Grammar.Reading
import Calculator.Proofs.Grammar.Viable

/-!
# What the rules find

Whatever tokens a rule is put in front of, it either has read the sentence of a tree, and has its
value, or rejects them with a reason. `reads` says so of every phrase.

* `Derived`: the tokens are the sentence of a tree with the given value and a rest, which starts with
  no operator that the rule would have gone on with;
* `Rejected`: the tokens divide at the place of the rejection, and what stands around that place
  `Explains` its flaw. If it is a flaw of the form, then what stands before the place can be
  completed to a sentence;
* `Reads`: the one or the other, for the two results that a rule can have.

Tokens that stand before those of a phrase are its `context`. It matters for one reason only: the
limit on arguments is hit behind all the arguments before.
-/

namespace Calculator.Grammar

open Rule (bind_of_ok bind_of_error skip_bind applyThen)

variable {env : Environment} {k k' : Category} {context before after ts us : List Token} {n m : Nat}
  {token : Token} {r : Rejection} {d : Cursor} {level : Level}

/-! ### Reasons -/

/-- The first of some tokens, or the end of a text of `n` bytes. -/
def front (ts : List Token) (n : Nat) : Token := ts.headD (.finish n)

/-- **The tokens around `here` explain a flaw**: `before` stands before it, `after` starts with it. -/
inductive Explains (env : Environment) (before after : List Token) (here : Token) : Flaw → Prop
  | invalidCharacter (unknown : here.kind = .unknown) :
      Explains env before after here .invalidCharacter
  | invalidSyntax : Explains env before after here .invalidSyntax
  | mismatchedParentheses (closing : here.kind ≠ .rightParen)
      (operator : ∀ op, here.kind ≠ .operator op) :
      Explains env before after here .mismatchedParentheses
  | invalidFunction (name : here.kind = .variable) (register : Register.ofName? here.text = none)
      {opening : Token} {rest : List Token} (h : after = here :: opening :: rest)
      (ho : opening.kind = .leftParen) : Explains env before after here .invalidFunction
  | zeroDivisor {op : Operator} (kind : here.kind = .operator op) (divides : op = .div ∨ op = .mod)
      (right : Tree (.phrase factor)) {rest : List Token}
      (h : after = here :: (right.tokens ++ rest)) (below : Below factor.rank rest) {value : Float}
      (eval : right.eval env = .ok value) (zero : (value == 0.0) = true) :
      Explains env before after here .divisionByZero
  | dividing {f : Function} (kind : here.kind = .function f) (divides : f ∈ Function.dividing) :
      Explains env before after here .divisionByZero
  | tooFew {f : Function} (kind : here.kind = .function f) {opening : Token}
      (ho : opening.kind = .leftParen) (args : Tree .arguments) {rest : List Token}
      (h : after = here :: opening :: (args.tokens ++ rest)) (few : args.count < f.arity) :
      Explains env before after here .tooFewArguments
  | tooMany {f : Function} (kind : here.kind = .function f) {opening : Token}
      (ho : opening.kind = .leftParen) (args : Tree .arguments) {rest : List Token}
      (h : after = here :: opening :: (args.tokens ++ rest)) (many : f.arity < args.count) :
      Explains env before after here .tooManyArguments
  | limit {pre : List Token} {f : Function} {name opening comma : Token}
      (hf : name.kind = .function f) (ho : opening.kind = .leftParen) (hc : comma.kind = .comma)
      (items : Tree .items) (h : before = pre ++ name :: opening :: (items.tokens ++ [comma]))
      (count : items.count = Rule.maxArguments) :
      Explains env before after here .tooManyArguments
  | operation {op : Operator} (kind : here.kind = .operator op) :
      Explains env before after here .domainError
  | call {f : Function} (kind : here.kind = .function f) :
      Explains env before after here .domainError
  | infinite {value : Float} (kind : here.kind = .number value) (h : value.isFinite = false) :
      Explains env before after here .domainError

/-- **A place of rejection** between `before` and `after`, the tokens of a phrase that follow
`context`. The rule stops there with cursor `d`. -/
structure Found (env : Environment) (context : List Token) (k : Category)
    (before after : List Token) (n : Nat) (r : Rejection) (d : Cursor) : Prop where
  position : r.position = (front after n).offset
  cause : Explains env (context ++ before) after (front after n) r.flaw
  viable : r.flaw.IsSyntactic → Viable k before
  stuck : r.flaw.IsSyntactic → d.ahead = after ∨ ¬ IsLeaf (front after n)

/-- **The rejection of some tokens** has a place among them, and a reason. -/
def Rejected (env : Environment) (context : List Token) (k : Category) (ts : List Token) (n : Nat)
    (r : Rejection) (d : Cursor) : Prop :=
  ∃ before after, ts = before ++ after ∧ Found env context k before after n r d

/-- Rules stop at operators below this rank. -/
def Category.rank : Category → Nat
  | .phrase p => p.rank
  | .items | .arguments => 3

/-- **The tokens are those of a tree with the value, and those that are left.** -/
def Derived (env : Environment) (k : Category) (ts : List Token) (n : Nat) (value : k.Value)
    (d : Cursor) : Prop :=
  ∃ t : Tree k, ts = t.tokens ++ d.ahead ∧ d.size = n ∧ t.eval env = .ok value ∧
    Below k.rank d.ahead

/-- **What the result of a rule says about the tokens in front of it.** -/
def Reads (env : Environment) (context : List Token) (k : Category) (ts : List Token) (n : Nat) :
    EStateM.Result Rejection Cursor k.Value → Prop
  | .ok value d => Derived env k ts n value d
  | .error r d => Rejected env context k ts n r d

/-! ### Rejections of parts and wholes -/

theorem Rejected.lift {pre : List Token} (h : Rejected env (context ++ pre) k ts n r d)
    (hv : ∀ us, Viable k us → Viable k' (pre ++ us)) : Rejected env context k' (pre ++ ts) n r d := by
  obtain ⟨before, after, rfl, h⟩ := h
  refine ⟨pre ++ before, after, (List.append_assoc ..).symm, h.position, ?_,
    fun hs => hv _ (h.viable hs), h.stuck⟩
  rw [← List.append_assoc]
  exact h.cause

theorem Rejected.behind (pre : List Token) (hv : Viable k pre) (hr : r.position = (front ts n).offset)
    (hc : Explains env (context ++ pre) ts (front ts n) r.flaw)
    (hs : d.ahead = ts ∨ ¬ IsLeaf (front ts n)) : Rejected env context k (pre ++ ts) n r d :=
  ⟨pre, ts, rfl, hr, hc, fun _ => hv, fun _ => hs⟩

theorem Rejected.evaluated (pre : List Token) (hs : ¬ r.flaw.IsSyntactic)
    (hr : r.position = (front ts n).offset)
    (hc : Explains env (context ++ pre) ts (front ts n) r.flaw) :
    Rejected env context k (pre ++ ts) n r d :=
  ⟨pre, ts, rfl, hr, hc, fun h => absurd h hs, fun h => absurd h hs⟩

/-- **Reading goes on behind a part.** If the part is rejected, then so is the whole; else the rest is
read with the value of the part. -/
theorem Reads.bind {pre : List Token} {part : Rule k.Value} {next : k.Value → Rule k'.Value}
    (h : Reads env (context ++ pre) k ts n (part ⟨ts, n⟩))
    (hv : ∀ us, Viable k us → Viable k' (pre ++ us))
    (hnext : ∀ (t : Tree k) (us : List Token) (value : k.Value), ts = t.tokens ++ us →
      t.eval env = .ok value → Below k.rank us →
      Reads env context k' (pre ++ ts) n (next value ⟨us, n⟩)) :
    Reads env context k' (pre ++ ts) n ((part >>= next) ⟨ts, n⟩) := by
  cases hr : part ⟨ts, n⟩ with
  | error r d =>
    rw [hr] at h
    rw [bind_of_error hr]
    exact Rejected.lift h hv
  | ok value d =>
    rw [hr] at h
    obtain ⟨us, size⟩ := d
    obtain ⟨t, hts, hsize, heval, hb⟩ := h
    obtain rfl : size = n := hsize
    rw [bind_of_ok hr]
    exact hnext t us value hts heval hb

/-- What is no closing parenthesis, and no operator to go on with, explains that one is missing. -/
theorem explains_missing (h : (front us n).kind ≠ .rightParen) (hb : Below 0 us) :
    Explains env before us (front us n) .mismatchedParentheses := by
  refine .mismatchedParentheses h fun op hop => ?_
  cases us with
  | nil => cases hop
  | cons token us => exact Nat.not_lt_zero _ (below_cons.1 hb op hop)

/-- **The parenthesis that closes** a call or a group, behind an expression. -/
theorem reads_closing {pre : List Token} {value : k.Value} (hb : Below 0 us) (hv : Viable k pre)
    (h : ∀ closing rest, us = closing :: rest → closing.kind = .rightParen →
      Derived env k (pre ++ us) n value ⟨rest, n⟩) :
    Reads env context k (pre ++ us) n ((Rule.closing >>= fun _ => pure value) ⟨us, n⟩) := by
  show Reads _ _ _ _ _
    (((if (front us n).kind = .rightParen then Rule.skip else Rule.reject .missingClosing) >>=
      fun _ => pure value : Rule _) ⟨us, n⟩)
  by_cases hclose : (front us n).kind = .rightParen
  · rw [if_pos hclose]
    cases us with
    | nil => cases hclose
    | cons closing rest => exact h closing rest rfl hclose
  · rw [if_neg hclose]
    exact Rejected.behind pre hv rfl (explains_missing hclose hb) (Or.inl rfl)

/-! ### Primaries without parts -/

theorem reads_literal {value : Float} (hk : token.kind = .number value) :
    Reads env context (.phrase .primary) (token :: us) n
      (Rule.literal token value ⟨token :: us, n⟩) := by
  unfold Rule.literal
  by_cases hdigit : token.text.toList.any Char.isDigit = true
  · by_cases hfin : value.isFinite = true
    · simp only [hdigit, hfin]
      refine ⟨.number token value hk hdigit, rfl, rfl, ?_, below_of_three_le (Nat.le_refl _)⟩
      rw [Tree.eval, if_pos hfin]
    · simp only [hdigit, hfin]
      refine Rejected.evaluated [] ?_ rfl (.infinite hk (Bool.eq_false_iff.2 hfin))
      simp [Rejection.flaw, Cause.flaw, Flaw.IsSyntactic]
  · simp only [hdigit]
    exact Rejected.behind [] (viable_nil _) rfl .invalidSyntax (Or.inl rfl)

theorem reads_register (hk : token.kind = .variable) :
    Reads env context (.phrase .primary) (token :: us) n
      (Rule.register env token ⟨token :: us, n⟩) := by
  unfold Rule.register
  rw [skip_bind, Environment.lookup?_eq]
  cases hname : Register.ofName? token.text with
  | some r =>
    exact ⟨.register r ⟨token, hk⟩ hname, rfl, rfl, rfl, below_of_three_le (Nat.le_refl _)⟩
  | none =>
    show Reads _ _ (.phrase .primary) _ _
      ((if (front us n).kind = .leftParen then _ else _ : Rule Float) ⟨us, n⟩)
    by_cases ho : (front us n).kind = .leftParen
    · rw [if_pos ho]
      cases us with
      | nil => cases ho
      | cons opening rest =>
        refine Rejected.evaluated [] ?_ rfl (.invalidFunction hk hname rfl ho)
        simp [Rejection.flaw, Cause.flaw, Flaw.IsSyntactic]
    · rw [if_neg ho]
      refine Rejected.behind [] (viable_nil _) rfl .invalidSyntax (Or.inr ?_)
      show ¬ IsLeaf token
      simp [IsLeaf, hk, hname]

/-! ### Chains -/

theorem explains_operation {op : Operator} {a b : Float} {flaw : Flaw}
    (h : op.apply a b = .error flaw) (hk : token.kind = .operator op)
    (right : Tree (.phrase (operand op.level))) (heval : right.eval env = .ok b)
    (hb : Below (operand op.level).rank ts) :
    ¬ flaw.IsSyntactic ∧ Explains env before (token :: (right.tokens ++ ts)) token flaw := by
  rcases Operator.flaw_of_apply h with rfl | ⟨rfl, hop, hzero⟩
  · exact ⟨by simp [Flaw.IsSyntactic], .operation hk⟩
  · refine ⟨by simp [Flaw.IsSyntactic], ?_⟩
    rcases hop with rfl | rfl
    · exact .zeroDivisor hk (Or.inl rfl) right rfl hb heval hzero
    · exact .zeroDivisor hk (Or.inr rfl) right rfl hb heval hzero

/-- **The rest of a chain** behind the tree of its left part, if every operand in it is read. -/
theorem reads_more (ih : ∀ {ts context}, ts.length < m →
      Reads env context (.phrase (operand level)) ts n (phrase env (operand level) ⟨ts, n⟩))
    (left : Tree (.phrase (.chain level))) {value : Float} (heval : left.eval env = .ok value)
    (hlen : us.length ≤ m) (hb : Below (level.rank + 1) us) :
    Reads env context (.phrase (.chain level)) (left.tokens ++ us) n
      (more env level value ⟨us, n⟩) := by
  induction hu : us.length using Nat.strongRecOn generalizing us left value with
  | _ l step =>
    cases hop : (Cursor.mk us n).current.operatorAt? level with
    | none =>
      rw [more_of_none hop]
      exact ⟨left, rfl, rfl, heval, hb.of_operatorAt?_eq_none hop⟩
    | some op =>
      cases us with
      | nil => cases hop
      | cons token rest =>
        have hop : token.operatorAt? level = some op := hop
        obtain ⟨hk, rfl⟩ := operatorAt?_eq_some_iff.1 hop
        have hright : Reads env (context ++ (left.tokens ++ [token])) (.phrase (operand op.level))
            rest n (phrase env (operand op.level) ⟨rest, n⟩) := ih hlen
        rw [more_of_some hop, List.append_cons]
        refine hright.bind (fun us hv => ?_) fun right us b hrest hevalr hbelow => ?_
        · rw [← List.append_cons]
          exact viable_binary left hk rfl hv
        · subst hrest
          unfold applyThen
          rw [← List.append_cons]
          cases hv : op.apply value b with
          | ok v =>
            have hleft : (Tree.binary left op rfl ⟨token, hk⟩ right).eval env = .ok v := by
              rw [Tree.eval_binary heval hevalr, hv]
              rfl
            have hnext := step us.length (by simp at hu; omega) _ hleft
              (by simp at hlen; omega) (by rwa [← rank_operand]) rfl
            rw [Tree.tokens, List.append_assoc, List.cons_append] at hnext
            exact hnext
          | error flaw =>
            obtain ⟨hs, hc⟩ := explains_operation hv hk right hevalr hbelow
            exact Rejected.evaluated _ hs rfl hc

theorem reads_chain (ih : ∀ {ts context}, ts.length ≤ m →
      Reads env context (.phrase (operand level)) ts n (phrase env (operand level) ⟨ts, n⟩))
    (hlen : ts.length ≤ m) :
    Reads env context (.phrase (.chain level)) ts n (phrase env (.chain level) ⟨ts, n⟩) := by
  have hfirst : Reads env (context ++ []) (.phrase (operand level)) ts n
      (phrase env (operand level) ⟨ts, n⟩) := ih hlen
  rw [phrase_chain]
  refine hfirst.bind (fun us hv => viable_single hv) fun t us value hts heval hbelow => ?_
  subst hts
  rw [List.length_append] at hlen
  exact reads_more (fun hts => ih (Nat.le_of_lt hts)) (.single t) heval (by omega)
    (by rwa [← rank_operand])

/-! ### Arguments -/

theorem rejected_limit {f : Function} {name opening comma : Token} (hf : name.kind = .function f)
    (ho : opening.kind = .leftParen) (hc : comma.kind = .comma) (items : Tree .items)
    (hcount : items.count = Rule.maxArguments) :
    Rejected env (context ++ [name, opening]) .arguments ((items.tokens ++ [comma]) ++ us) n
      ⟨.argumentLimit Rule.maxArguments, (front us n).offset⟩ d := by
  have hbefore : context ++ [name, opening] ++ (items.tokens ++ [comma]) =
      context ++ name :: opening :: (items.tokens ++ [comma]) := List.append_assoc ..
  refine Rejected.evaluated _ ?_ rfl (.limit hf ho hc items hbefore hcount)
  simp [Rejection.flaw, Cause.flaw, Flaw.IsSyntactic]

/-- **The arguments behind some items** of a call, if every expression in them is read. -/
theorem reads_moreItems {f : Function} {name opening : Token} (hf : name.kind = .function f)
    (ho : opening.kind = .leftParen) (ih : ∀ {ts context}, ts.length ≤ m →
      Reads env context (.phrase expression) ts n (phrase env expression ⟨ts, n⟩))
    (items : Tree .items) {values : List Float} (heval : items.eval env = .ok values)
    (hlen : us.length ≤ m) (hb : Below 0 us) :
    Reads env (context ++ [name, opening]) .arguments (items.tokens ++ us) n
      (moreItems env values ⟨us, n⟩) := by
  induction hu : us.length using Nat.strongRecOn generalizing us items values with
  | _ l step =>
    show Reads _ _ .arguments _ _ ((if (front us n).kind = .comma then _ else _ : Rule _) ⟨us, n⟩)
    by_cases hcomma : (front us n).kind = .comma
    · rw [if_pos hcomma]
      cases us with
      | nil => cases hcomma
      | cons comma rest =>
        have hcomma : comma.kind = .comma := hcomma
        show Reads _ _ .arguments _ _ (Rule.argumentsFrom (Rule.expression env)
          (Rule.maxArguments - values.length) values ⟨rest, n⟩)
        rw [List.append_cons items.tokens]
        by_cases hroom : values.length < Rule.maxArguments
        · have hnext : Reads env (context ++ [name, opening] ++ (items.tokens ++ [comma]))
            (.phrase expression) rest n (phrase env expression ⟨rest, n⟩) := ih (by simp at hlen; omega)
          rw [argumentsFrom_of_lt hroom]
          refine hnext.bind (fun us hv => ?_) fun t us value hrest hevalt hbelow => ?_
          · rw [← List.append_cons]
            exact viable_items (viable_more items hcomma hv)
          · subst hrest
            have hitems : (Tree.more items ⟨comma, hcomma⟩ t).eval env = .ok (values ++ [value]) := by
              rw [Tree.eval_more heval, if_pos hroom, hevalt]
              rfl
            have hmore := step us.length (by simp at hu; omega) _ hitems
              (by simp at hlen; omega) hbelow rfl
            have htokens : (items.tokens ++ [comma]) ++ (t.tokens ++ us) =
                (Tree.more items ⟨comma, hcomma⟩ t).tokens ++ us := by
              simp [Tree.tokens]
            rw [htokens]
            exact hmore
        · rw [argumentsFrom_of_ge hroom]
          have hvalues : values.length = items.count := items.length_of_eval heval
          have hcount := items.count_le_of_eval heval
          exact rejected_limit hf ho hcomma items (by omega)
    · rw [if_neg hcomma]
      refine reads_closing hb (viable_items items.viable) fun closing rest hus hclose => ?_
      refine ⟨.someItems items ⟨closing, hclose⟩, ?_, rfl, heval,
        below_of_three_le (Nat.le_refl _)⟩
      rw [hus, Tree.tokens, List.append_assoc]
      rfl

theorem reads_arguments {f : Function} {name opening : Token} (hf : name.kind = .function f)
    (ho : opening.kind = .leftParen) (ih : ∀ {ts context}, ts.length ≤ m →
      Reads env context (.phrase expression) ts n (phrase env expression ⟨ts, n⟩))
    (hlen : ts.length ≤ m) :
    Reads env (context ++ [name, opening]) .arguments ts n
      (Rule.argumentsOf (Rule.expression env) ⟨ts, n⟩) := by
  show Reads _ _ .arguments _ _ ((if (front ts n).kind = .rightParen then _ else _ : Rule _) ⟨ts, n⟩)
  by_cases hclose : (front ts n).kind = .rightParen
  · rw [if_pos hclose]
    cases ts with
    | nil => cases hclose
    | cons closing rest =>
      exact ⟨.noItems ⟨closing, hclose⟩, rfl, rfl, rfl, below_of_three_le (Nat.le_refl _)⟩
  · have hfirst : Reads env (context ++ [name, opening] ++ []) (.phrase expression) ts n
        (phrase env expression ⟨ts, n⟩) := ih hlen
    have hroom : ([] : List Float).length < Rule.maxArguments := by decide
    rw [if_neg hclose]
    show Reads _ _ .arguments _ _ (Rule.argumentsFrom (Rule.expression env)
      (Rule.maxArguments - ([] : List Float).length) [] ⟨ts, n⟩)
    rw [argumentsFrom_of_lt hroom]
    refine hfirst.bind (fun us hv => viable_items (viable_item hv)) fun t us value hts heval hb => ?_
    subst hts
    have hitems : (Tree.item t).eval env = .ok [value] := by
      rw [Tree.eval, heval]
      rfl
    rw [List.length_append] at hlen
    exact reads_moreItems hf ho ih (.item t) hitems (by omega) hb

/-! ### Primaries with parts -/

theorem explains_call {f : Function} {name opening : Token} {values : List Float}
    {unit : AngleUnit} {flaw : Flaw} (h : f.apply values unit = .error flaw)
    (hf : name.kind = .function f) (ho : opening.kind = .leftParen) (args : Tree .arguments)
    (heval : args.eval env = .ok values) :
    ¬ flaw.IsSyntactic ∧
      Explains env before (name :: opening :: (args.tokens ++ ts)) name flaw := by
  have hcount : values.length = args.count := args.length_of_eval heval
  rcases Function.flaw_of_apply h with ⟨rfl, hlt⟩ | ⟨rfl, hlt⟩ | ⟨rfl, hdiv⟩ | rfl
  · exact ⟨by simp [Flaw.IsSyntactic], .tooFew hf ho args rfl (by omega)⟩
  · exact ⟨by simp [Flaw.IsSyntactic], .tooMany hf ho args rfl (by omega)⟩
  · exact ⟨by simp [Flaw.IsSyntactic], .dividing hf hdiv⟩
  · exact ⟨by simp [Flaw.IsSyntactic], .call hf⟩

theorem reads_call {f : Function} (hf : token.kind = .function f) (ih : ∀ {ts context},
      ts.length ≤ m → Reads env context (.phrase expression) ts n (phrase env expression ⟨ts, n⟩))
    (hlen : us.length ≤ m) :
    Reads env context (.phrase .primary) (token :: us) n
      (Rule.callOf env (Rule.expression env) f ⟨token :: us, n⟩) := by
  show Reads _ _ (.phrase .primary) _ _
    ((if (front us n).kind = .leftParen then Rule.skip >>= fun _ =>
        Rule.argumentsOf (Rule.expression env) >>= callThen f token env.angleUnit
      else Rule.reject (.missingOpening f.name) : Rule Float) ⟨us, n⟩)
  by_cases ho : (front us n).kind = .leftParen
  · rw [if_pos ho]
    cases us with
    | nil => cases ho
    | cons opening rest =>
      have ho : opening.kind = .leftParen := ho
      have hargs : Reads env (context ++ [token, opening]) .arguments rest n
          (Rule.argumentsOf (Rule.expression env) ⟨rest, n⟩) :=
        reads_arguments hf ho ih (Nat.le_of_lt hlen)
      refine hargs.bind (fun us hv => viable_call hf ho hv) fun args us values hrest heval _ => ?_
      subst hrest
      unfold callThen
      cases hv : f.apply values env.angleUnit with
      | ok value =>
        refine ⟨.call f ⟨token, hf⟩ ⟨opening, ho⟩ args, rfl, rfl, ?_,
          below_of_three_le (Nat.le_refl _)⟩
        rw [Tree.eval_call heval, hv]
        rfl
      | error flaw =>
        obtain ⟨hs, hc⟩ := explains_call hv hf ho args heval
        exact Rejected.evaluated [] hs rfl hc
  · rw [if_neg ho]
    exact Rejected.behind [token] (viable_name hf) rfl .invalidSyntax (Or.inl rfl)

theorem reads_group (ho : token.kind = .leftParen)
    (hread : Reads env (context ++ [token]) (.phrase expression) us n
      (phrase env expression ⟨us, n⟩)) :
    Reads env context (.phrase .primary) (token :: us) n
      ((phrase env expression >>= fun value => Rule.closing >>= fun _ => pure value) ⟨us, n⟩) := by
  refine hread.bind (fun us hv => viable_group ho hv) fun t rest value hus heval hbelow => ?_
  subst hus
  refine reads_closing hbelow (viable_group ho t.viable) fun closing us hrest hclose => ?_
  refine ⟨.group ⟨token, ho⟩ t ⟨closing, hclose⟩, ?_, rfl, heval,
    below_of_three_le (Nat.le_refl _)⟩
  rw [hrest, Tree.tokens, List.cons_append, List.cons_append, List.append_assoc]
  rfl

theorem reads_negative (hk : token.kind = .operator .sub)
    (hread : Reads env (context ++ [token]) (.phrase .primary) us n
      (phrase env .primary ⟨us, n⟩)) :
    Reads env context (.phrase .primary) (token :: us) n
      ((phrase env .primary >>= fun value => pure (-value)) ⟨us, n⟩) := by
  refine hread.bind (fun us hv => viable_negative hk hv) fun t rest value hus heval hbelow => ?_
  subst hus
  refine ⟨.negative ⟨token, hk⟩ t, rfl, rfl, ?_, hbelow⟩
  rw [Tree.eval, heval]
  rfl

theorem reads_positive (hk : token.kind = .operator .add)
    (hread : Reads env (context ++ [token]) (.phrase .primary) us n
      (phrase env .primary ⟨us, n⟩)) :
    Reads env context (.phrase .primary) (token :: us) n (phrase env .primary ⟨us, n⟩) := by
  cases hr : phrase env .primary ⟨us, n⟩ with
  | error r d =>
    rw [hr] at hread
    exact Rejected.lift hread fun us hv => viable_positive hk hv
  | ok value d =>
    rw [hr] at hread
    obtain ⟨t, rfl, rfl, heval, hbelow⟩ := hread
    exact ⟨.positive ⟨token, hk⟩ t, rfl, rfl, heval, hbelow⟩

/-! ### All phrases -/

theorem reads_primary (ihp : ∀ {ts context}, ts.length ≤ m →
      Reads env context (.phrase .primary) ts n (phrase env .primary ⟨ts, n⟩))
    (ihe : ∀ {ts context}, ts.length ≤ m →
      Reads env context (.phrase expression) ts n (phrase env expression ⟨ts, n⟩))
    (hlen : us.length ≤ m) :
    Reads env context (.phrase .primary) (token :: us) n
      (phrase env .primary ⟨token :: us, n⟩) := by
  rw [primary_cons]
  cases hk : token.kind with
  | number value => exact reads_literal hk
  | constant c => exact ⟨.constant c ⟨token, hk⟩, rfl, rfl, rfl, below_of_three_le (Nat.le_refl _)⟩
  | «variable» => exact reads_register hk
  | function f => exact reads_call hk ihe hlen
  | leftParen => exact reads_group hk (ihe hlen)
  | operator op =>
    cases op with
    | sub => exact reads_negative hk (ihp hlen)
    | add => exact reads_positive hk (ihp hlen)
    | mul | div | mod | pow =>
      exact Rejected.behind [] (viable_nil _) rfl .invalidSyntax (Or.inl rfl)
  | rightParen | comma | finish =>
    exact Rejected.behind [] (viable_nil _) rfl .invalidSyntax (Or.inl rfl)
  | unknown => exact Rejected.behind [] (viable_nil _) rfl (.invalidCharacter hk) (Or.inl rfl)

/-- If every primary is read, then so is every chain, level by level. -/
theorem reads_phrase (ihp : ∀ {ts context}, ts.length ≤ m →
      Reads env context (.phrase .primary) ts n (phrase env .primary ⟨ts, n⟩)) (p : Phrase)
    (hlen : ts.length ≤ m) :
    Reads env context (.phrase p) ts n (phrase env p ⟨ts, n⟩) := by
  have hfactor {ts context} (hts : ts.length ≤ m) :
      Reads env context (.phrase factor) ts n (phrase env factor ⟨ts, n⟩) :=
    reads_chain ihp hts
  have hterm {ts context} (hts : ts.length ≤ m) :
      Reads env context (.phrase (.chain .product)) ts n (phrase env (.chain .product) ⟨ts, n⟩) :=
    reads_chain hfactor hts
  cases p with
  | primary => exact ihp hlen
  | chain level =>
    cases level with
    | power => exact hfactor hlen
    | product => exact hterm hlen
    | sum => exact reads_chain hterm hlen

/-- **Every phrase is read**, in front of any tokens. -/
theorem reads (p : Phrase) (context ts : List Token) (n : Nat) :
    Reads env context (.phrase p) ts n (phrase env p ⟨ts, n⟩) := by
  -- What a primary has inside starts behind its first token.
  have hprimary (m : Nat) : ∀ {ts context}, ts.length ≤ m →
      Reads env context (.phrase .primary) ts n (phrase env .primary ⟨ts, n⟩) := by
    induction m with
    | zero =>
      intro ts context hlen
      obtain rfl := List.length_eq_zero_iff.1 (Nat.le_zero.1 hlen)
      rw [primary_nil]
      exact Rejected.behind [] (viable_nil _) rfl .invalidSyntax (Or.inl rfl)
    | succ m ih =>
      intro ts context hlen
      cases ts with
      | nil =>
        rw [primary_nil]
        exact Rejected.behind [] (viable_nil _) rfl .invalidSyntax (Or.inl rfl)
      | cons token us =>
        exact reads_primary ih (reads_phrase ih expression) (Nat.le_of_succ_le_succ hlen)
  exact reads_phrase (hprimary ts.length) p (Nat.le_refl _)

/-- **A rule has a value exactly in front of a tree with this value**, which does not go on. -/
theorem phrase_eq_ok_iff {p : Phrase} {value : Float} :
    phrase env p ⟨us, n⟩ = .ok value d ↔ Derived env (.phrase p) us n value d := by
  constructor
  · intro h
    have hreads : Reads env [] (.phrase p) us n (phrase env p ⟨us, n⟩) := reads p [] us n
    rw [h] at hreads
    exact hreads
  · rintro ⟨t, rfl, rfl, heval, hb⟩
    have hwhole := (evaluates env d.size t).whole hb
    rw [heval] at hwhole
    exact Rule.eq_ok_of_outcome hwhole

end Calculator.Grammar
