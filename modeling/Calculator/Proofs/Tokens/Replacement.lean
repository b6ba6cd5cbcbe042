import Calculator.Proofs.Grammar.Tree
import Calculator.Proofs.Tokens.Pieces

/-!
# Replacing tokens in a text

`replaceRegister r text source` is the text `source`, where `text` in parentheses stands for every
token that names the register `r`. All other tokens, and all blanks, stay as they are.

Replacing a token does not touch its neighbours: a parenthesis ends the lexeme in front of it, and
nothing is read together with the one behind. So the words of the new text are those of `source` with
a parenthesis, the words of `text` and a parenthesis for each name of `r`
(`lexemes_replaceRegister`).
-/

namespace Calculator

open Lexeme (isBlank isPart Leads)

variable {c : Char} {w cs : List Char} {r : Register}

namespace Lexeme

/-! ### Pieces and lexemes -/

/-- The pieces of a text whose first `skip` characters belong to a piece given before. -/
def piecesFrom : List Char → Nat → List (List Char)
  | [], _ => []
  | _ :: cs, skip + 1 => piecesFrom cs skip
  | c :: cs, 0 =>
    if isBlank c then [c] :: piecesFrom cs 0
    else (c :: cs).take (length (c :: cs)) :: piecesFrom cs (length (c :: cs) - 1)

/-- **The pieces of a text**: its lexemes, and its blanks one by one. -/
def pieces (cs : List Char) : List (List Char) := piecesFrom cs 0

theorem piecesFrom_skip (cs : List Char) (skip : Nat) :
    piecesFrom cs skip = pieces (cs.drop skip) := by
  induction cs generalizing skip with
  | nil => cases skip <;> rfl
  | cons c cs ih =>
    cases skip with
    | zero => rfl
    | succ skip => exact ih skip

theorem pieces_blank (hc : isBlank c = true) (cs : List Char) :
    pieces (c :: cs) = [c] :: pieces cs := by
  unfold pieces
  rw [piecesFrom, if_pos hc]

theorem pieces_leads (h : Leads w cs) : pieces (w ++ cs) = w :: pieces cs := by
  have hlen := h.length
  have hne := h.ne_nil
  have htake : (w ++ cs).take (length (w ++ cs)) = w := by rw [hlen, List.take_left]
  cases w with
  | nil => exact absurd rfl hne
  | cons c w =>
    have hc : isBlank c = false := h.start c rfl
    rw [List.cons_append] at hlen htake ⊢
    unfold pieces
    rw [piecesFrom, if_neg (by simp [hc]), htake, hlen, List.length_cons, Nat.add_sub_cancel,
      piecesFrom_skip, List.drop_left]
    rfl

/-- The lexemes of a text. -/
def lexemes (cs : List Char) : List (List Char) := (pieces cs).filter fun w => !w.all isBlank

theorem lexemes_blank (hc : isBlank c = true) (cs : List Char) :
    lexemes (c :: cs) = lexemes cs := by
  unfold lexemes
  rw [pieces_blank hc, List.filter_cons_of_neg (by simp [hc])]

theorem lexemes_leads (h : Leads w cs) : lexemes (w ++ cs) = w :: lexemes cs := by
  have hw : (!w.all isBlank) = true := by
    obtain ⟨c, v, rfl⟩ := List.exists_cons_of_ne_nil h.ne_nil
    simp [h.start c rfl]
  unfold lexemes
  rw [pieces_leads h]
  exact List.filter_cons_of_pos hw

/-- **The texts of the tokens are the lexemes**, wherever the text starts. -/
theorem texts_scan (cs : List Char) (offset : Nat) :
    (Token.scan cs offset 0).map (·.text.toList) = lexemes cs := by
  induction cs using Lexeme.induct generalizing offset with
  | nil => rfl
  | blank c cs hc ih => rw [scan_blank hc, ih, lexemes_blank hc]
  | lexeme w cs hw ih =>
    rw [scan_leads hw, List.map_cons, ih, lexemes_leads hw, String.toList_ofList]

theorem lexemes_append (hc : isPart c = false) (cs ds : List Char) :
    lexemes (cs ++ c :: ds) = lexemes cs ++ lexemes (c :: ds) := by
  have hscan := congrArg (List.map (·.text.toList)) (scan_append hc cs ds 0)
  rw [List.map_append, texts_scan, texts_scan, texts_scan] at hscan
  exact hscan

theorem leads_singleton (hc : isPart c = false) (hb : isBlank c = false) (cs : List Char) :
    Leads [c] cs := by
  refine ⟨fun d hd => ?_, ?_⟩
  · obtain rfl : c = d := by simpa using hd
    exact hb
  · have hpos := length_pos ([c] ++ cs)
    have hle : ¬ 1 < length ([c] ++ cs) := by
      intro hlt
      obtain ⟨m, hm⟩ := Nat.exists_eq_add_one.2 hpos
      have hpart := isPart_of_mem (c := c) (by rw [hm]; exact List.mem_cons_self) hlt
      rw [hc] at hpart
      cases hpart
    rw [List.length_singleton]
    omega

theorem lexemes_single (hc : isPart c = false) (hb : isBlank c = false) (cs : List Char) :
    lexemes (c :: cs) = [c] :: lexemes cs := lexemes_leads (leads_singleton hc hb cs)

theorem lexemes_enclosed (cs ds : List Char) :
    lexemes ('(' :: (cs ++ ')' :: ds)) = ['('] :: (lexemes cs ++ [')'] :: lexemes ds) := by
  rw [lexemes_single (by decide) (by decide), lexemes_append (by decide),
    lexemes_single (by decide) (by decide)]

end Lexeme

open Lexeme (pieces pieces_blank pieces_leads lexemes lexemes_blank lexemes_leads
  lexemes_enclosed)

theorem map_text_tokens (source : String) :
    (tokens source).map (·.text.toList) = lexemes source.toList := Lexeme.texts_scan _ _

/-! ### Names of registers -/

theorem Register.mem_of_ofName? {name : String} (h : Register.ofName? name = some r) :
    name ∈ ["M", "mem", "ans", "ANS"] := by
  unfold ofName? at h
  split at h <;> simp_all

theorem Register.ofName?_blank (hc : isBlank c = true) :
    Register.ofName? (String.ofList [c]) = none := by
  rcases Lexeme.isBlank_cases hc with rfl | rfl | rfl | rfl | rfl <;> rfl

/-! ### Replacements -/

/-- What stands for a piece: the text in parentheses if the piece names the register. -/
def replacement (r : Register) (text w : List Char) : List Char :=
  if Register.ofName? (String.ofList w) = some r then '(' :: (text ++ [')']) else w

/-- **The text `source` with `text` in parentheses for every token that names the register.** -/
def replaceRegister (r : Register) (text source : String) : String :=
  .ofList ((pieces source.toList).flatMap (replacement r text.toList))

example : replaceRegister .lastResult "1+ 2" "2*ans -ANS^M" = "2*(1+ 2) -(1+ 2)^M" := by
  decide +kernel

/-- The words that stand for a word. -/
def replacementWords (r : Register) (text w : List Char) : List (List Char) :=
  if Register.ofName? (String.ofList w) = some r then ['('] :: (lexemes text ++ [[')']]) else [w]

theorem head?_replaced (r : Register) (text cs : List Char) :
    ∀ d ∈ ((pieces cs).flatMap (replacement r text)).head?, d ∈ cs.head? ∨ isPart d = false := by
  -- Only the first piece matters.
  have hfirst (c : Char) (v rest : List Char) :
      ∀ d ∈ (replacement r text (c :: v) ++ rest).head?, c = d ∨ isPart d = false := by
    intro d hd
    unfold replacement at hd
    split at hd
    · obtain rfl : '(' = d := by simpa using hd
      exact Or.inr (by decide)
    · exact Or.inl (by simpa using hd)
  induction cs using Lexeme.induct with
  | nil => exact fun d hd => by cases hd
  | blank c cs hc =>
    rw [pieces_blank hc, List.flatMap_cons]
    simpa using hfirst c [] _
  | lexeme w cs hw =>
    rw [pieces_leads hw, List.flatMap_cons]
    obtain ⟨c, v, rfl⟩ := List.exists_cons_of_ne_nil hw.ne_nil
    simpa using hfirst c v _

/-- **Replacing a token does not touch the others.** -/
theorem lexemes_replaced (r : Register) (text cs : List Char) :
    lexemes ((pieces cs).flatMap (replacement r text)) =
      (lexemes cs).flatMap (replacementWords r text) := by
  induction cs using Lexeme.induct with
  | nil => rfl
  | blank c cs hc ih =>
    have hname : replacement r text [c] = [c] := by
      unfold replacement
      rw [Register.ofName?_blank hc]
      rfl
    rw [pieces_blank hc, List.flatMap_cons, hname, List.singleton_append, lexemes_blank hc, ih,
      lexemes_blank hc]
  | lexeme w cs hw ih =>
    rw [pieces_leads hw, List.flatMap_cons, lexemes_leads hw, List.flatMap_cons, ← ih]
    generalize hrest : (pieces cs).flatMap (replacement r text) = rest
    unfold replacement replacementWords
    split
    · have htext : '(' :: (text ++ [')']) ++ rest = '(' :: (text ++ ')' :: rest) := by simp
      rw [htext, lexemes_enclosed]
      simp
    · have hleads : Leads w rest := hw.of_head (hrest ▸ head?_replaced r text cs)
      rw [lexemes_leads hleads]
      rfl

theorem lexemes_replaceRegister (r : Register) (text source : String) :
    lexemes (replaceRegister r text source).toList =
      (lexemes source.toList).flatMap (replacementWords r text.toList) := by
  unfold replaceRegister
  rw [String.toList_ofList, lexemes_replaced]

end Calculator
