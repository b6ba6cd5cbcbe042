import Calculator.Proofs.Scripts.Errors

/-!
# What the command line prints

* `answer?_of_finite`: an expression is answered by its value, which is finite, or by one error;
* `lines_join`: texts without line feeds are the lines of the text that they make, each ended;
* `getElem?_run`: what is printed for one line of a script;
* `output_disciplined`: the output is one line for each expression that is answered, and each of them
  is the text of a finite double or that error.
-/

namespace Calculator

namespace Script

variable {s : Session} {e : String} {es : List String}

/-! ### Answers -/

theorem report_of_evaluate {failure : Failure} (he : e ≠ "")
    (h : (s.evaluate e).1 = .error failure) : failure.report = "ERROR: Parse error" := by
  rcases Session.failure_of_evaluate h with ⟨hempty, -⟩ | ⟨-, rejection, -, rfl⟩
  · exact absurd hempty he
  · rfl

/-- **Finite registers give a finite result or an error**, as long as there is an expression. -/
theorem answer?_of_finite {text : String} (h : s.toEnvironment.Finite) (he : e ≠ "")
    (htext : (answer? s e).1 = some text) :
    (∃ v, (s.evaluate e).1 = .ok v ∧ v.isFinite = true ∧
      Double.display? v s.precision = some text) ∨
    ∃ failure, (s.evaluate e).1 = .error failure ∧ text = "ERROR: Parse error" := by
  rw [fst_answer?] at htext
  cases hvalue : (s.evaluate e).1 with
  | ok v =>
    rw [hvalue] at htext
    exact Or.inl ⟨v, rfl, isFinite_of_evaluate h (Session.fst_evaluate_eq_ok_iff.1 hvalue), htext⟩
  | error failure =>
    rw [hvalue] at htext
    have hreport := report_of_evaluate he hvalue
    exact Or.inr ⟨failure, rfl, (Option.some.inj htext).symm.trans hreport⟩

theorem newline_not_mem_answer? {text : String} (htext : (answer? s e).1 = some text) :
    '\n' ∉ text.toList := by
  rw [fst_answer?] at htext
  cases hvalue : (s.evaluate e).1 with
  | ok v =>
    rw [hvalue] at htext
    rw [eq_display htext]
    intro h
    exact absurd (isPart_of_mem_display v _ h) (by decide)
  | error failure =>
    have hfault (fault : Fault) : '\n' ∉ ("ERROR: " ++ fault.text).toList := by
      cases fault <;> decide
    rw [hvalue] at htext
    rw [← Option.some.inj htext]
    exact hfault failure.fault

theorem newline_not_mem_answers (s : Session) (es : List String) :
    ∀ text ∈ (answers s es).lines, '\n' ∉ text.toList := by
  induction es generalizing s with
  | nil => simp [answers]
  | cons e es ih =>
    cases htext : (answer? s e).1 with
    | none => simp [answers_of_none htext]
    | some text =>
      rw [answers_of_some htext]
      exact List.forall_mem_cons.2 ⟨newline_not_mem_answer? htext, ih _⟩

/-! ### Lines of output -/

/-- **Ended one by one, texts without line feeds are the lines of the whole**, and nothing follows
the last one. -/
theorem lines_join {texts : List String} (h : ∀ text ∈ texts, '\n' ∉ text.toList) :
    lines (String.join (texts.map (· ++ "\n"))).toList = texts.map String.toList ++ [[]] := by
  induction texts with
  | nil => rfl
  | cons text texts ih =>
    obtain ⟨hfirst, hrest⟩ := List.forall_mem_cons.1 h
    have htoList : (String.join ((text :: texts).map (· ++ "\n"))).toList =
        text.toList ++ '\n' :: (String.join (texts.map (· ++ "\n"))).toList := by
      rw [List.map_cons, String.join_cons, String.toList_append, String.toList_append,
        List.append_assoc]
      rfl
    rw [htoList, lines_append, lines_of_not_mem hfirst, ih hrest]
    rfl

end Script

/-! ### Texts that are never printed -/

theorem display_not_mem {v : Float} (hv : v.isFinite = true) (p : Nat) :
    Double.display v p ∉ ["inf", "-inf", "NaN"] := by
  intro h
  have hnone : ∀ text ∈ ["inf", "-inf", "NaN"], text.toList.any Char.isDigit = false := by
    intro text htext
    simp only [List.mem_cons, List.not_mem_nil, or_false] at htext
    rcases htext with rfl | rfl | rfl <;> decide
  exact Bool.false_ne_true ((hnone _ h).symm.trans (any_isDigit_display hv p))

theorem display_ne_error (v : Float) (p : Nat) (text : String) :
    Double.display v p ≠ "ERROR: " ++ text := by
  intro h
  have herror := Script.isError_append text
  rw [← h] at herror
  exact Script.not_isError_display v p herror

namespace CommandLine

open Script

theorem Request.finite_session (r : Request) : r.session.toEnvironment.Finite := by
  have hzero : IsFinite 0.0 := by decide
  exact ⟨hzero, hzero⟩

theorem getElem?_run (r : Request) {script : String} {i : Nat} {line : List Char} {text : String}
    (hi : ((lines script.toList).filter holdsExpression)[i]? = some line)
    (htext : (run r.session script).lines[i]? = some text) :
    let s := r.session.after ((((lines script.toList).filter holdsExpression).take i).map
      expressionOf)
    (∃ v, (s.evaluate (expressionOf line)).1 = .ok v ∧ v.isFinite = true ∧
      Double.display? v (r.precision?.getD 10) = some text) ∨
    ∃ failure, (s.evaluate (expressionOf line)).1 = .error failure ∧
      text = "ERROR: Parse error" := by
  intro s
  have hexpression : (expressions script)[i]? = some (expressionOf line) := by
    rw [expressions_eq, List.getElem?_map, hi]
    rfl
  have hanswer : (answer? s (expressionOf line)).1 = some text := by
    have hanswer := getElem?_answers hexpression htext
    rwa [expressions_eq, ← List.map_take] at hanswer
  have hfinite : s.toEnvironment.Finite := Session.finite_after r.finite_session _
  have hne := expressionOf_ne_empty (List.of_mem_filter (List.mem_of_getElem? hi))
  have hp : s.precision = r.precision?.getD 10 := precision_after r.session _
  rw [← hp]
  exact answer?_of_finite hfinite hne hanswer

theorem length_held (script : String) :
    ((lines script.toList).filter holdsExpression).length = (expressions script).length := by
  rw [expressions_eq, List.length_map]

/-- **The output of a script.** It is one line for each line that is not passed over, in their
order: the result of the expression, which is finite, displayed in the precision that is asked for,
or else that it cannot be parsed. So none of them is an infinity, NaN or another error. Up to the
precision `65532` none of the lines is left out, and otherwise those from a result without a text
on. -/
theorem output_disciplined (r : Request) (script : String) :
    let held := (lines script.toList).filter holdsExpression
    let printed := (run r.session script).lines
    let p := r.precision?.getD 10
    lines (r.answer script).output.toList = printed.map String.toList ++ [[]] ∧
    printed.length ≤ held.length ∧
    (p ≤ 65532 → printed.length = held.length ∧ (r.answer script).code = 0) ∧
    (∀ i line text, held[i]? = some line → printed[i]? = some text →
      let s := r.session.after ((held.take i).map expressionOf)
      (∃ v, (s.evaluate (expressionOf line)).1 = .ok v ∧ v.isFinite = true ∧
        Double.display? v p = some text) ∨
      ∃ failure, (s.evaluate (expressionOf line)).1 = .error failure ∧
        text = "ERROR: Parse error") ∧
    ∀ text ∈ printed,
      (text = "ERROR: Parse error" ∨
        ∃ v, v.isFinite = true ∧ Double.display? v p = some text) ∧
      text ∉ ["inf", "-inf", "NaN"] ∧ ∀ fault : Fault, fault ≠ .parseError →
        text ≠ "ERROR: " ++ fault.text := by
  intro held printed p
  have hlength : printed.length ≤ held.length := by
    rw [length_held]
    exact length_answers_le _ _
  refine ⟨lines_join (newline_not_mem_answers _ _), hlength, fun hp => ?_,
    fun i line text => getElem?_run r, fun text htext => ?_⟩
  · obtain ⟨hcompleted, hanswers⟩ := answers_of_le (s := r.session) hp (expressions script)
    rw [length_held]
    exact ⟨hanswers, Request.code_eq_zero_iff.2 hcompleted⟩
  · obtain ⟨i, hi, htext⟩ := List.getElem_of_mem htext
    have htext : printed[i]? = some text := by
      rw [List.getElem?_eq_getElem hi, htext]
    have hheld : held[i]? = some held[i] := List.getElem?_eq_getElem (by omega)
    rcases getElem?_run r hheld htext with ⟨v, -, hv, hdisplay⟩ | ⟨failure, -, rfl⟩
    · refine ⟨Or.inr ⟨v, hv, hdisplay⟩, ?_⟩
      rw [eq_display hdisplay]
      exact ⟨display_not_mem hv p, fun fault _ => display_ne_error v p _⟩
    · refine ⟨Or.inl rfl, by decide, fun fault hfault => ?_⟩
      cases fault with
      | parseError => exact absurd rfl hfault
      | _ => decide

/-- A quotient, a division of it that fails, and its double. -/
theorem output_disciplined_quotient :
    let r : Request := { precision? := some 3 }
    let script := "# A quotient\n10 / 4\nans / 0\n\n ans * 2 "
    let s := r.session.after ["10 / 4", "ans / 0"]
    (r.answer script).output = "2.5\nERROR: Parse error\n5\n" ∧ (r.answer script).code = 0 ∧
    ((lines script.toList).filter holdsExpression)[2]? = some " ans * 2 ".toList ∧
    (run r.session script).lines[2]? = some "5" ∧
    ((∃ v, (s.evaluate "ans * 2").1 = .ok v ∧ v.isFinite = true ∧
        Double.display? v 3 = some "5") ∨
      ∃ failure, (s.evaluate "ans * 2").1 = .error failure ∧ "5" = "ERROR: Parse error") ∧
    "2.5" ∈ (run r.session script).lines ∧ "2.5" ∉ ["inf", "-inf", "NaN"] ∧
    Fault.overflow ≠ .parseError ∧ "2.5" ≠ "ERROR: " ++ Fault.overflow.text := by
  intro r script s
  have hline : ((lines script.toList).filter holdsExpression)[2]? = some " ans * 2 ".toList := by
    decide +kernel
  have hprinted : (run r.session script).lines[2]? = some "5" := by decide +kernel
  have hmem : "2.5" ∈ (run r.session script).lines := by decide +kernel
  have hbefore : (((lines script.toList).filter holdsExpression).take 2).map expressionOf =
      ["10 / 4", "ans / 0"] := by decide +kernel
  have hexpression : expressionOf " ans * 2 ".toList = "ans * 2" := by decide +kernel
  obtain ⟨-, -, hall, hlines, htexts⟩ := output_disciplined r script
  obtain ⟨-, hnumber, herror⟩ := htexts _ hmem
  have hlast := hlines 2 _ _ hline hprinted
  rw [hbefore, hexpression] at hlast
  exact ⟨by decide +kernel, (hall (by decide)).2, hline, hprinted, hlast, hmem, hnumber, by decide,
    herror .overflow (by decide)⟩

end CommandLine

end Calculator
