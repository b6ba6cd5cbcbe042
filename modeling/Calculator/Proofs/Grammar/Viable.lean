import Calculator.Proofs.Grammar.Tree

/-!
# Beginnings of sentences

`Viable k ts` says that some sentence of the category `k` starts with the tokens `ts`. Whatever has
been read of the parts of a tree can be completed: an operand or a closing parenthesis is added for
everything that is still open. One lemma per way in which a part stands in a whole.
-/

namespace Calculator.Grammar

variable {k : Category} {ts us : List Token} {level : Level}

/-- **A sentence of the category starts with these tokens.** -/
def Viable (k : Category) (ts : List Token) : Prop := ∃ t : Tree k, ts <+: t.tokens

theorem Viable.mono (h : Viable k us) (hp : ts <+: us) : Viable k ts := by
  obtain ⟨t, ht⟩ := h
  exact ⟨t, hp.trans ht⟩

theorem Tree.viable (t : Tree k) : Viable k t.tokens := ⟨t, List.prefix_rfl⟩

/-! ### Completions -/

/-- A primary on its own. -/
def somePrimary : Tree (.phrase .primary) := .constant .pi ⟨⟨.constant .pi, "pi", 0⟩, rfl⟩

/-- A parenthesis that closes what is open. -/
def someClosing : Terminal .rightParen := ⟨⟨.rightParen, ")", 0⟩, rfl⟩

/-- A primary as an operand of each level. -/
def someChain : (level : Level) → Tree (.phrase (.chain level))
  | .power => .single somePrimary
  | .product => .single (.single somePrimary : Tree (.phrase factor))
  | .sum =>
    .single (.single (.single somePrimary : Tree (.phrase factor)) : Tree (.phrase (.chain .product)))

/-- There is a tree of every category. -/
def someTree : (k : Category) → Tree k
  | .phrase .primary => somePrimary
  | .phrase (.chain level) => someChain level
  | .items => .item (someChain .sum)
  | .arguments => .noItems someClosing

theorem viable_nil (k : Category) : Viable k [] := ⟨someTree k, List.nil_prefix⟩

/-! ### Parts in wholes -/

theorem viable_single (h : Viable (.phrase (operand level)) ts) :
    Viable (.phrase (.chain level)) ts := by
  obtain ⟨t, ht⟩ := h
  exact ⟨.single t, ht⟩

theorem viable_binary (left : Tree (.phrase (.chain level))) {op : Operator} {token : Token}
    (hk : token.kind = .operator op) (hop : op.level = level)
    (h : Viable (.phrase (operand level)) ts) :
    Viable (.phrase (.chain level)) (left.tokens ++ token :: ts) := by
  obtain ⟨t, ht⟩ := h
  refine ⟨.binary left op hop ⟨token, hk⟩ t, ?_⟩
  exact (List.prefix_append_right_inj _).2 ((List.prefix_cons_inj _).2 ht)

theorem viable_positive {token : Token} (hk : token.kind = .operator .add)
    (h : Viable (.phrase .primary) ts) : Viable (.phrase .primary) (token :: ts) := by
  obtain ⟨t, ht⟩ := h
  exact ⟨.positive ⟨token, hk⟩ t, (List.prefix_cons_inj _).2 ht⟩

theorem viable_negative {token : Token} (hk : token.kind = .operator .sub)
    (h : Viable (.phrase .primary) ts) : Viable (.phrase .primary) (token :: ts) := by
  obtain ⟨t, ht⟩ := h
  exact ⟨.negative ⟨token, hk⟩ t, (List.prefix_cons_inj _).2 ht⟩

theorem viable_group {token : Token} (hk : token.kind = .leftParen)
    (h : Viable (.phrase expression) ts) : Viable (.phrase .primary) (token :: ts) := by
  obtain ⟨t, ht⟩ := h
  refine ⟨.group ⟨token, hk⟩ t someClosing, (List.prefix_cons_inj _).2 ?_⟩
  exact ht.trans (List.prefix_append _ _)

theorem viable_call {f : Function} {name opening : Token} (hf : name.kind = .function f)
    (ho : opening.kind = .leftParen) (h : Viable .arguments ts) :
    Viable (.phrase .primary) (name :: opening :: ts) := by
  obtain ⟨t, ht⟩ := h
  refine ⟨.call f ⟨name, hf⟩ ⟨opening, ho⟩ t, ?_⟩
  exact (List.prefix_cons_inj _).2 ((List.prefix_cons_inj _).2 ht)

theorem viable_name {f : Function} {name : Token} (hf : name.kind = .function f) :
    Viable (.phrase .primary) [name] := by
  have ho : (⟨.leftParen, "(", 0⟩ : Token).kind = .leftParen := rfl
  refine (viable_call hf ho (viable_nil .arguments)).mono ?_
  exact (List.prefix_cons_inj _).2 List.nil_prefix

theorem viable_items (h : Viable .items ts) : Viable .arguments ts := by
  obtain ⟨t, ht⟩ := h
  exact ⟨.someItems t someClosing, ht.trans (List.prefix_append _ _)⟩

theorem viable_item (h : Viable (.phrase expression) ts) : Viable .items ts := by
  obtain ⟨t, ht⟩ := h
  exact ⟨.item t, ht⟩

theorem viable_more (items : Tree .items) {comma : Token} (hc : comma.kind = .comma)
    (h : Viable (.phrase expression) ts) : Viable .items (items.tokens ++ comma :: ts) := by
  obtain ⟨t, ht⟩ := h
  refine ⟨.more items ⟨comma, hc⟩ t, ?_⟩
  exact (List.prefix_append_right_inj _).2 ((List.prefix_cons_inj _).2 ht)

end Calculator.Grammar
