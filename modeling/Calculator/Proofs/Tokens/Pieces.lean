import Calculator.Proofs.Tokens.Extent
import Calculator.Proofs.Tokens.Places

/-!
# The pieces of a text

A text is a sequence of blanks and lexemes, and its tokens are the lexemes, each at the byte where it
starts.

* `Leads w cs`: the lexeme `w` is the first piece of the text `w ++ cs`. It stays so if what follows
  it starts with the same character, or with one that ends every lexeme (`Leads.of_head`);
* `Lexeme.induct`: induction over a text, piece by piece;
* `scan_blank`, `scan_leads`: the tokens of a text in front of a piece;
* `scan_append`: a character that ends every lexeme separates the tokens of the two sides;
* `exists_scan_eq_append`: a text can be cut off behind any of its tokens;
* `tokens_spaced`: a text of words, each followed by a space, has those words as its tokens.
-/

namespace Calculator

open Lexeme (isBlank isPart)

variable {b c : Char} {w cs ds : List Char} {offset n : Nat} {token : Token}
  {before after : List Token}

/-! ### The first piece -/

namespace Lexeme

/-- **The first piece of the text `w ++ cs` is the lexeme `w`.** -/
structure Leads (w cs : List Char) : Prop where
  start : ∀ c ∈ w.head?, isBlank c = false
  length : Lexeme.length (w ++ cs) = w.length

namespace Leads

theorem ne_nil (h : Leads w cs) : w ≠ [] := by
  rintro rfl
  have hpos := length_pos ([] ++ cs)
  have hlen := h.length
  simp only [List.length_nil] at hlen
  omega

theorem alone (h : Leads w cs) : Lexeme.length w = w.length := by
  have htake := length_take (w ++ cs) (List.length_pos_iff.2 h.ne_nil)
  rw [List.take_left, h.length, Nat.min_self] at htake
  exact htake

/-- **What follows a lexeme can be changed** to a text that starts with the same character, or with
one that ends every lexeme. -/
theorem of_head (h : Leads w cs) (hd : ∀ d ∈ ds.head?, d ∈ cs.head? ∨ isPart d = false) :
    Leads w ds := by
  refine ⟨h.start, ?_⟩
  cases ds with
  | nil => rw [List.append_nil, h.alone]
  | cons d ds =>
    rcases hd d rfl with hsame | hpart
    · obtain ⟨cs, rfl⟩ := List.head?_eq_some_iff.1 hsame
      have htake : (w ++ d :: cs).take (Lexeme.length (w ++ d :: cs) + 1) =
          (w ++ d :: ds).take (Lexeme.length (w ++ d :: cs) + 1) := by
        rw [h.length, List.take_length_add_append, List.take_length_add_append]
        rfl
      rw [length_of_take_eq htake, h.length]
    · rw [length_append_of_not_isPart hpart h.ne_nil, h.alone]

theorem nil (h : Leads w cs) : Leads w [] := h.of_head fun d hd => by cases hd

theorem isBlank_of_mem (h : Leads w cs) (hc : c ∈ w) : isBlank c = false := by
  rw [Bool.eq_false_iff]
  intro hb
  obtain ⟨u, v, rfl⟩ := List.append_of_mem hc
  have halone := h.alone
  cases u with
  | nil =>
    rw [h.start c rfl] at hb
    cases hb
  | cons d u =>
    -- The lexeme would end in front of the blank.
    rw [length_append_of_not_isPart (isPart_of_isBlank hb) (by simp)] at halone
    have hle := length_le (List.cons_ne_nil d u)
    simp only [List.length_append, List.length_cons] at halone hle
    omega

end Leads

theorem exists_leads (h : isBlank c = false) (cs : List Char) :
    ∃ w rest, c :: cs = w ++ rest ∧ Leads w rest := by
  have hle := length_le (List.cons_ne_nil c cs)
  obtain ⟨m, hm⟩ : ∃ m, length (c :: cs) = m + 1 :=
    ⟨length (c :: cs) - 1, by have := length_pos (c :: cs); omega⟩
  refine ⟨_, (c :: cs).drop (length (c :: cs)), (List.take_append_drop _ _).symm, ⟨?_, ?_⟩⟩
  · rw [hm, List.take_succ_cons]
    intro d hd
    obtain rfl : c = d := by simpa using hd
    exact h
  · rw [List.take_append_drop, List.length_take]
    omega

/-- **Induction over a text, piece by piece.** -/
@[elab_as_elim]
theorem induct {P : List Char → Prop} (nil : P [])
    (blank : ∀ c cs, isBlank c = true → P cs → P (c :: cs))
    (lexeme : ∀ w cs, Leads w cs → P cs → P (w ++ cs)) (cs : List Char) : P cs := by
  induction hn : cs.length using Nat.strongRecOn generalizing cs with
  | _ n ih =>
    cases cs with
    | nil => exact nil
    | cons c cs =>
      by_cases hb : isBlank c = true
      · exact blank c cs hb (ih cs.length (by simp at hn; omega) cs rfl)
      · obtain ⟨w, rest, heq, hw⟩ := exists_leads (Bool.eq_false_iff.2 hb) cs
        have hpos := List.length_pos_iff.2 hw.ne_nil
        have hlen := congrArg List.length heq
        rw [List.length_append] at hlen
        rw [heq]
        exact lexeme w rest hw (ih rest.length (by omega) rest rfl)

end Lexeme

open Lexeme (Leads)

/-! ### Tokens in front of a piece -/

theorem scan_blank (hb : isBlank c = true) (cs : List Char) (offset : Nat) :
    Token.scan (c :: cs) offset 0 = Token.scan cs (offset + c.utf8Size) 0 := by
  rw [Token.scan, if_pos hb]

theorem scan_blanks (h : ∀ c ∈ ds, isBlank c = true) (cs : List Char) (offset : Nat) :
    Token.scan (ds ++ cs) offset 0 = Token.scan cs (offset + bytes ds) 0 := by
  induction ds generalizing offset with
  | nil => rfl
  | cons c ds ih =>
    obtain ⟨hc, hds⟩ := List.forall_mem_cons.1 h
    rw [List.cons_append, scan_blank hc, ih hds, bytes_cons, Nat.add_assoc]

theorem ofFront_leads (h : Leads w cs) (offset : Nat) :
    Token.ofFront (w ++ cs) offset = ⟨.ofLexeme w, String.ofList w, offset⟩ := by
  unfold Token.ofFront
  rw [h.length, List.take_left]

theorem scan_leads (h : Leads w cs) (offset : Nat) : Token.scan (w ++ cs) offset 0 =
    ⟨.ofLexeme w, String.ofList w, offset⟩ :: Token.scan cs (offset + bytes w) 0 := by
  have hfront := ofFront_leads h offset
  have hlen := h.length
  have hne := h.ne_nil
  cases w with
  | nil => exact absurd rfl hne
  | cons c w =>
    have hc : isBlank c = false := h.start c rfl
    have hskip : Token.scan (w ++ cs) (offset + c.utf8Size) w.length =
        Token.scan cs (offset + bytes (c :: w)) 0 := by
      rw [Token.scan_skip, List.drop_left, List.take_left, bytes_cons, Nat.add_assoc]
      rfl
    rw [List.cons_append] at hfront hlen ⊢
    rw [Token.scan, if_neg (by simp [hc]), hfront, hlen, List.length_cons, Nat.add_sub_cancel, hskip]

theorem scan_lexeme (h : Leads w cs) (offset : Nat) :
    Token.scan w offset 0 = [⟨.ofLexeme w, String.ofList w, offset⟩] := by
  have hscan := scan_leads h.nil offset
  rw [List.append_nil] at hscan
  exact hscan

/-- **A character that ends every lexeme separates the tokens of the two sides.** -/
theorem scan_append (hb : isPart b = false) (cs ds : List Char) (offset : Nat) :
    Token.scan (cs ++ b :: ds) offset 0 =
      Token.scan cs offset 0 ++ Token.scan (b :: ds) (offset + bytes cs) 0 := by
  induction cs using Lexeme.induct generalizing offset with
  | nil => rfl
  | blank c cs hc ih =>
    rw [List.cons_append, scan_blank hc, scan_blank hc, ih, bytes_cons, Nat.add_assoc]
  | lexeme w cs hw ih =>
    have hleads : Leads w (cs ++ b :: ds) := by
      refine hw.of_head fun d hd => ?_
      cases cs with
      | nil =>
        obtain rfl : b = d := by simpa using hd
        exact Or.inr hb
      | cons c cs => exact Or.inl hd
    rw [List.append_assoc, scan_leads hleads, scan_leads hw, ih, bytes_append, Nat.add_assoc]
    rfl

/-- **A text can be cut off behind any of its tokens**, which are then those of what is left. -/
theorem exists_scan_eq_append (h : Token.scan cs offset 0 = before ++ token :: after) :
    ∃ front rest, cs = front ++ rest ∧ offset + bytes front = token.stop ∧
      Token.scan front offset 0 = before ++ [token] := by
  induction cs using Lexeme.induct generalizing offset before with
  | nil => simp [Token.scan] at h
  | blank c cs hc ih =>
    rw [scan_blank hc] at h
    obtain ⟨front, rest, rfl, hstop, hscan⟩ := ih h
    refine ⟨c :: front, rest, rfl, ?_, ?_⟩
    · rw [bytes_cons, ← Nat.add_assoc, hstop]
    · rw [scan_blank hc, hscan]
  | lexeme w cs hw ih =>
    rw [scan_leads hw] at h
    cases before with
    | nil =>
      obtain ⟨rfl, -⟩ := List.cons.inj h
      exact ⟨w, cs, rfl, rfl, scan_lexeme hw offset⟩
    | cons t before =>
      rw [List.cons_append, List.cons.injEq] at h
      obtain ⟨rfl, h⟩ := h
      obtain ⟨front, rest, rfl, hstop, hscan⟩ := ih h
      have hleads : Leads w front := by
        refine hw.of_head fun d hd => Or.inl ?_
        obtain ⟨front, rfl⟩ := List.head?_eq_some_iff.1 hd
        rfl
      refine ⟨w ++ front, rest, (List.append_assoc ..).symm, ?_, ?_⟩
      · rw [bytes_append, ← Nat.add_assoc, hstop]
      · rw [scan_leads hleads, hscan]
        rfl

/-! ### Texts of words -/

/-- **A word**: characters that are one whole lexeme. -/
structure IsWord (w : List Char) : Prop where
  start : (w.head?.all fun c => !Lexeme.isBlank c) = true
  length : Lexeme.length w = w.length

instance (w : List Char) : Decidable (IsWord w) :=
  decidable_of_iff
    ((w.head?.all fun c => !Lexeme.isBlank c) = true ∧ Lexeme.length w = w.length)
    ⟨fun h => ⟨h.1, h.2⟩, fun h => ⟨h.start, h.length⟩⟩

theorem IsWord.leads (h : IsWord w) (hcs : ∀ b ∈ cs.head?, isPart b = false) : Leads w cs := by
  have hword : Leads w [] := by
    refine ⟨fun c hc => ?_, by rw [List.append_nil, h.length]⟩
    have hstart := h.start
    rw [Option.mem_def.1 hc] at hstart
    simpa using hstart
  exact hword.of_head fun d hd => Or.inr (hcs d hd)

/-- The text of some words, each followed by a space. -/
def spaced : List (List Char) → List Char
  | [] => []
  | w :: ws => w ++ ' ' :: spaced ws

/-- **The tokens of a text of words are the words.** -/
theorem tokens_spaced {ws : List (List Char)} (h : ∀ w ∈ ws, IsWord w) :
    (tokens (String.ofList (spaced ws))).map (·.text.toList) = ws := by
  have hscan : ∀ offset, (Token.scan (spaced ws) offset 0).map (·.text.toList) = ws := by
    induction ws with
    | nil => exact fun _ => rfl
    | cons w ws ih =>
      intro offset
      obtain ⟨hw, hws⟩ := List.forall_mem_cons.1 h
      have hleads : Leads w (' ' :: spaced ws) := hw.leads fun b hb => by
        obtain rfl : ' ' = b := by simpa using hb
        decide
      rw [spaced, scan_leads hleads, scan_blank (by decide), List.map_cons, ih hws,
        String.toList_ofList]
  unfold tokens
  rw [String.toList_ofList]
  exact hscan 0

end Calculator
