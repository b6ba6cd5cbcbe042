import Calculator.Proofs.Grammar.Parallel
import Calculator.Proofs.Tokens.Lossless

/-!
# Layout does not matter

Where the tokens of a text stand has no influence on its value, nor on what it is rejected for.

* `scan_joined`: blanks between two texts separate their tokens, and move those of the second one;
* `scan_met`: two texts that are put together keep their tokens, unless one of the tokens of the
  whole lies across the place where they meet;
* `sameOutcome`: texts whose tokens have the same kinds and texts have the same outcome. If they are
  rejected, then at the tokens of the same number.
-/

namespace Calculator

open Lexeme (isBlank isBlank_iff isPart_of_isBlank Leads)

variable {env : Environment} {source source' : String} {cs ds ws : List Char} {i : Nat}

/-! ### Moving tokens -/

/-- The token so many bytes further on. -/
def Token.shift (k : Nat) (t : Token) : Token := { t with offset := t.offset + k }

theorem scan_shift (cs : List Char) (offset k : Nat) :
    Token.scan cs (offset + k) 0 = (Token.scan cs offset 0).map (Token.shift k) := by
  induction cs using Lexeme.induct generalizing offset with
  | nil => rfl
  | blank c cs hc ih => rw [scan_blank hc, scan_blank hc, ← ih, Nat.add_right_comm]
  | lexeme w cs hw ih =>
    rw [scan_leads hw, scan_leads hw, List.map_cons, ← ih, Nat.add_right_comm]
    rfl

/-- **Blanks separate the tokens of two texts.** -/
theorem scan_joined (hne : ws ≠ []) (hws : ∀ c ∈ ws, isBlank c = true) (cs ds : List Char) :
    Token.scan (cs ++ ws ++ ds) 0 0 =
      Token.scan cs 0 0 ++ (Token.scan ds 0 0).map (Token.shift (bytes (cs ++ ws))) := by
  obtain ⟨b, vs, rfl⟩ := List.exists_cons_of_ne_nil hne
  have hb : isBlank b = true := hws b List.mem_cons_self
  have hsplit := scan_append (isPart_of_isBlank hb) cs (vs ++ ds) 0
  have hblanks := scan_blanks hws ds (0 + bytes cs)
  rw [List.append_assoc, List.cons_append, hsplit, ← List.cons_append, hblanks, ← scan_shift,
    bytes_append]
  simp only [Nat.zero_add]

theorem exists_append_of_bytes_le {us vs : List Char} (heq : cs ++ ds = us ++ vs)
    (hle : bytes us ≤ bytes cs) : ∃ ws, cs = us ++ ws ∧ vs = ws ++ ds := by
  rcases List.append_eq_append_iff.1 heq.symm with ⟨ws, hcs, hvs⟩ | ⟨ws, hus, hds⟩
  · exact ⟨ws, hcs, hvs⟩
  · have hsize := congrArg bytes hus
    rw [bytes_append] at hsize
    obtain rfl : ws = [] := by
      by_contra hne
      have := bytes_pos hne
      omega
    exact ⟨[], by rw [hus, List.append_nil, List.append_nil], hds.symm⟩

/-- **Two texts put together keep their tokens**, unless one of the tokens lies across the place
where they meet. -/
theorem scan_met {offset : Nat} (h : ∀ t ∈ Token.scan (cs ++ ds) offset 0,
      t.stop ≤ offset + bytes cs ∨ offset + bytes cs ≤ t.offset) :
    Token.scan (cs ++ ds) offset 0 =
      Token.scan cs offset 0 ++ Token.scan ds (offset + bytes cs) 0 := by
  induction hn : cs.length using Nat.strongRecOn generalizing cs offset with
  | _ n ih =>
    rcases cs with _ | ⟨c, cs⟩
    · rfl
    · by_cases hc : isBlank c = true
      · rw [List.cons_append, scan_blank hc] at h ⊢
        rw [bytes_cons, ← Nat.add_assoc] at h ⊢
        rw [scan_blank hc]
        exact ih cs.length (by rw [← hn]; exact Nat.lt_succ_self _) h rfl
      · obtain ⟨w, rest, heq, hw⟩ := Lexeme.exists_leads (Bool.eq_false_iff.2 hc) (cs ++ ds)
        have hwpos := bytes_pos hw.ne_nil
        have hcpos := bytes_pos (List.cons_ne_nil c cs)
        rw [List.cons_append, heq, scan_leads hw] at h ⊢
        obtain ⟨hfirst, hrest⟩ := List.forall_mem_cons.1 h
        have hle : bytes w ≤ bytes (c :: cs) := by
          rcases hfirst with hstop | hstart
          · have hstop : offset + bytes w ≤ offset + bytes (c :: cs) := hstop
            omega
          · have hstart : offset + bytes (c :: cs) ≤ offset := hstart
            omega
        -- So the first lexeme is a part of the first text.
        obtain ⟨vs, hcs, rfl⟩ := exists_append_of_bytes_le heq hle
        have hlen := congrArg List.length hcs
        have hwlen := List.length_pos_iff.2 hw.ne_nil
        have hleads : Leads w vs := by
          refine hw.of_head fun d hd => Or.inl ?_
          obtain ⟨vs, rfl⟩ := List.head?_eq_some_iff.1 hd
          rfl
        rw [List.length_append] at hlen
        rw [hcs, bytes_append, ← Nat.add_assoc] at hrest ⊢
        rw [scan_leads hleads, ih vs.length (by omega) hrest rfl, List.cons_append]

/-! ### Texts with the same tokens -/

/-- The tokens of the same number stand at these places of the two texts. -/
def Place (source source' : String) (p p' : Nat) : Prop :=
  ∃ i : Nat, (tokenize source)[i]?.map Token.offset = some p ∧
    (tokenize source')[i]?.map Token.offset = some p'

/-- **The same outcome in two texts**: the same value, or rejections for the same flaw with the same
message, at the tokens of the same number. -/
def SameOutcome (env : Environment) (source source' : String) : Prop :=
  (∃ value, evaluate env source = .ok value ∧ evaluate env source' = .ok value) ∨
  ∃ r r' : Rejection, evaluate env source = .error r ∧ evaluate env source' = .error r' ∧
    r.flaw = r'.flaw ∧ r.message = r'.message ∧ Place source source' r.position r'.position

/-- What of the tokens of a text is no matter of layout. -/
def spelling (source : String) : List (TokenKind × String) :=
  (tokenize source).map fun t => (t.kind, t.text)

theorem getElem?_tokenize (h : i < (tokens source).length) :
    (tokenize source)[i]? = some (tokens source)[i] := by
  rw [tokenize, List.getElem?_append_left h, List.getElem?_eq_getElem h]

theorem getElem?_tokenize_length (source : String) :
    (tokenize source)[(tokens source).length]? = some (.finish source.utf8ByteSize) := by
  rw [tokenize, List.getElem?_append_right (Nat.le_refl _), Nat.sub_self]
  rfl

theorem sameUpTo_of_spelling (h : spelling source = spelling source') :
    Cursor.SameUpTo (Place source source') (.ofString source) (.ofString source') := by
  have hlen : (tokens source).length = (tokens source').length := by
    simpa [spelling, tokenize] using congrArg List.length h
  constructor
  · refine List.forall₂_iff_get.2 ⟨hlen, fun i hi hi' => ?_⟩
    have htoken := getElem?_tokenize hi
    have htoken' := getElem?_tokenize hi'
    have hsame := congrArg (·[i]?) h
    simp only [spelling, List.getElem?_map, htoken, htoken', Option.map_some, Option.some.injEq,
      Prod.mk.injEq] at hsame
    exact ⟨hsame.1, hsame.2, i, by rw [htoken]; rfl, by rw [htoken']; rfl⟩
  · exact ⟨(tokens source).length, by rw [getElem?_tokenize_length]; rfl,
      by rw [hlen, getElem?_tokenize_length]; rfl⟩

/-- **Texts with the same tokens have the same outcome.** -/
theorem sameOutcome (h : spelling source = spelling source') :
    SameOutcome env source source' := by
  have hsame := Rule.Parallel.complete env _ _ (sameUpTo_of_spelling h)
  unfold SameOutcome evaluate
  rw [EStateM.run, EStateM.run]
  generalize Rule.complete env (.ofString source) = x at hsame
  generalize Rule.complete env (.ofString source') = x' at hsame
  rcases hsame with ⟨value, -⟩ | ⟨cause, hplace, -⟩
  · exact Or.inl ⟨value, rfl, rfl⟩
  · exact Or.inr ⟨_, _, rfl, rfl, rfl, rfl, hplace⟩

/-! ### Blanks between tokens -/

theorem tokenize_joined {s₁ s₂ w : String} (hne : w ≠ "")
    (hw : ∀ c ∈ w.toList, isBlank c = true) : tokenize (s₁ ++ w ++ s₂) =
      (tokenize s₁).dropLast ++ (tokenize s₂).map (Token.shift (s₁ ++ w).utf8ByteSize) := by
  have hne : w.toList ≠ [] := fun h => hne (String.toList_eq_nil_iff.1 h)
  have hsize : bytes (s₁.toList ++ w.toList) = (s₁ ++ w).utf8ByteSize := by
    rw [← String.toList_append, bytes_toList]
  have hend : Token.finish (s₁ ++ w ++ s₂).utf8ByteSize =
      (Token.finish s₂.utf8ByteSize).shift (s₁ ++ w).utf8ByteSize := by
    rw [String.utf8ByteSize_append, Nat.add_comm]
    rfl
  unfold tokenize tokens
  rw [String.toList_append, String.toList_append, scan_joined hne hw, hsize, hend,
    List.dropLast_concat, List.map_append, List.append_assoc]
  rfl

theorem spelling_joined {s₁ s₂ w : String} (hne : w ≠ "") (hw : ∀ c ∈ w.toList, isBlank c = true) :
    spelling (s₁ ++ w ++ s₂) = (spelling s₁).dropLast ++ spelling s₂ := by
  unfold spelling
  rw [tokenize_joined hne hw, List.map_append, List.map_dropLast, List.map_map]
  rfl

theorem spelling_met {s₁ s₂ : String} (h : ∀ t ∈ tokenize (s₁ ++ s₂),
      t.stop ≤ s₁.utf8ByteSize ∨ s₁.utf8ByteSize ≤ t.offset) :
    spelling (s₁ ++ s₂) = (spelling s₁).dropLast ++ spelling s₂ := by
  have hsplit : tokens (s₁ ++ s₂) =
      tokens s₁ ++ (tokens s₂).map (Token.shift s₁.utf8ByteSize) := by
    unfold tokens
    rw [String.toList_append, scan_met fun t ht => ?_, ← bytes_toList, scan_shift]
    rw [Nat.zero_add, bytes_toList]
    refine h t (List.mem_append_left _ ?_)
    rwa [tokens, String.toList_append]
  unfold spelling tokenize
  rw [hsplit, List.map_append, List.map_append, List.map_append, List.map_append, List.map_map,
    List.map_singleton, List.map_singleton, List.map_singleton, List.dropLast_concat,
    List.append_assoc]
  rfl

/-- **Layout does not matter.** Texts whose tokens have the same kinds and texts have the same
outcome. Blanks between two texts separate their tokens; so texts have the same outcome if they
differ in the blanks between two of their parts, or if blanks are put in somewhere but in a
token. -/
theorem layout_irrelevant :
    (∀ (env : Environment) (source source' : String),
      (tokenize source).map (fun t => (t.kind, t.text)) =
        (tokenize source').map (fun t => (t.kind, t.text)) → SameOutcome env source source') ∧
    (∀ s₁ s₂ w : String, w ≠ "" → (∀ c ∈ w.toList, c ∈ [' ', '\t', '\r', '\n', '\x0c']) →
      tokenize (s₁ ++ w ++ s₂) =
        (tokenize s₁).dropLast ++ (tokenize s₂).map (Token.shift (s₁ ++ w).utf8ByteSize) ∧
      ∀ (env : Environment) (w' : String), w' ≠ "" →
        (∀ c ∈ w'.toList, c ∈ [' ', '\t', '\r', '\n', '\x0c']) →
          SameOutcome env (s₁ ++ w ++ s₂) (s₁ ++ w' ++ s₂)) ∧
    ∀ (env : Environment) (s₁ s₂ w : String),
      (∀ c ∈ w.toList, c ∈ [' ', '\t', '\r', '\n', '\x0c']) →
      (∀ t ∈ tokenize (s₁ ++ s₂), t.stop ≤ s₁.utf8ByteSize ∨ s₁.utf8ByteSize ≤ t.offset) →
        SameOutcome env (s₁ ++ s₂) (s₁ ++ w ++ s₂) := by
  refine ⟨fun env source source' h => sameOutcome h, fun s₁ s₂ w hne hw => ⟨?_, ?_⟩,
    fun env s₁ s₂ w hw h => ?_⟩
  · exact tokenize_joined hne fun c hc => isBlank_iff.2 (hw c hc)
  · intro env w' hne' hw'
    refine sameOutcome ?_
    rw [spelling_joined hne fun c hc => isBlank_iff.2 (hw c hc),
      spelling_joined hne' fun c hc => isBlank_iff.2 (hw' c hc)]
  · refine sameOutcome ?_
    by_cases hne : w = ""
    · rw [hne, String.append_empty]
    · rw [spelling_met h, spelling_joined hne fun c hc => isBlank_iff.2 (hw c hc)]

/-- A division by zero stays one when its tokens are moved apart, and is found at the same token. -/
theorem layout_irrelevant_div :
    evaluate {} "1/0+)" = .error ⟨.operation .divisionByZero, 1⟩ ∧
    SameOutcome {} "1/0+)" "1 /\t0+\n)" ∧ SameOutcome {} ("1/" ++ "0+)") ("1/" ++ " \n" ++ "0+)") ∧
    SameOutcome {} ("1/" ++ " " ++ "0+)") ("1/" ++ "\t\r\x0c" ++ "0+)") := by
  refine ⟨by decide +kernel, layout_irrelevant.1 {} _ _ (by decide +kernel), ?_, ?_⟩
  · exact layout_irrelevant.2.2 {} "1/" "0+)" " \n" (by simp) (by decide +kernel)
  · exact (layout_irrelevant.2.1 "1/" "0+)" " " (by decide) (by simp)).2 {} "\t\r\x0c"
      (by decide) (by simp)

end Calculator
