import Calculator.Proofs.Doubles.Signed
import Calculator.Proofs.Sessions.History

/-!
# Infinities in the memory

Additions to the memory pass no guard. A sum out of the range of doubles leaves an infinity in it,
which stays until the memory is set again, and which expressions read. NaN is never left there.

* `Command.accumulate_law`: one addition overflows exactly if the exact sum is out of the range;
* `isFinite_memory_iff`: after a run, the memory is finite unless an overflow is left in it;
* `all_values`: the values of a run have what the memory always has in common with all finite
  numbers;
* `memory_range`: both together, and `memory_overflow`, a run that gives an infinite value.
-/

namespace Calculator.Session

open Double
open Float.Model.UnpackedFloat (Sign)

variable {s : Session} {command : Command} {commands : List Command} {memory x : Float}

/-! ### One command -/

namespace Command

/-- A double that is passed to the memory is finite. -/
def FiniteArgument : Command → Prop
  | memoryStore x | memoryAdd x | memorySubtract x => IsFinite x
  | _ => True

instance : (command : Command) → Decidable command.FiniteArgument
  | memoryStore x | memoryAdd x | memorySubtract x => inferInstanceAs (Decidable (IsFinite x))
  | evaluate _ | memoryClear | setAngleUnit _ | setPrecision _ | reset =>
    inferInstanceAs (Decidable True)

/-- **An addition to the memory overflows**: the exact sum is out of the range of doubles. To an
infinity in the memory nothing is added (its exact value is `0`). -/
def Overflows (memory : Float) : Command → Prop
  | memoryAdd x => rangeEnd ≤ |exact memory + exact x|
  | memorySubtract x => rangeEnd ≤ |exact memory - exact x|
  | _ => False

theorem Overflows.memory?_eq (h : command.Overflows memory) : command.memory? = none := by
  cases command with
  | memoryAdd x | memorySubtract x => rfl
  | _ => cases h

theorem isFinite_of_memory? (hc : command.FiniteArgument) (h : command.memory? = some x) :
    IsFinite x := by
  cases command with
  | memoryStore y =>
    cases h
    exact hc
  | memoryClear | reset =>
    cases h
    decide
  | _ => cases h

theorem add_law {y : Float} (hmemory : memory.isNaN = false) (hy : IsFinite y) :
    (memory + y).isNaN = false ∧ (IsFinite (memory + y) ↔
      IsFinite memory ∧ ¬ rangeEnd ≤ |exact memory + exact y|) := by
  have hy' : HasValue y (exact y) := ⟨hy, rfl⟩
  by_cases hm : IsFinite memory
  · have hm' : HasValue memory (exact memory) := ⟨hm, rfl⟩
    refine ⟨hm'.isNaN_add hy', ?_⟩
    rw [and_iff_right hm, not_le]
    exact hm'.isFinite_add_iff hy'
  · rw [Double.add_comm, hy'.add_of_not_isFinite (Bool.eq_false_iff.2 hm)]
    exact ⟨hmemory, iff_of_false hm fun h => hm h.1⟩

/-- **One command and the memory**: it never becomes NaN, and it stays finite unless the command
overflows. -/
theorem accumulate_law (hmemory : memory.isNaN = false) (hc : command.FiniteArgument) :
    (command.accumulate memory).isNaN = false ∧ (IsFinite (command.accumulate memory) ↔
      IsFinite memory ∧ ¬ command.Overflows memory) := by
  cases command with
  | memoryAdd x => exact add_law hmemory hc
  | memorySubtract x =>
    have hx : HasValue x (exact x) := ⟨hc, rfl⟩
    have hneg : IsFinite (-x) := (isFinite_neg x).trans hc
    have hlaw := add_law hmemory hneg
    rw [hx.neg.value, ← sub_eq_add_neg, ← sub_eq_add] at hlaw
    exact hlaw
  | _ => exact ⟨hmemory, (and_iff_left not_false).symm⟩

end Command

/-! ### Runs -/

/-- **An overflow is left in the memory**: nothing has set it since. -/
def Overflowed (commands : List Command) : Prop :=
  ∃ before command later, commands = before ++ command :: later ∧
    command.Overflows (new.performAll before).memory ∧ ∀ c ∈ later, c.memory? = none

/-- **No command of the run overflows.** -/
def NeverOverflows (commands : List Command) : Prop :=
  ∀ before command later, commands = before ++ command :: later →
    ¬ command.Overflows (new.performAll before).memory

theorem overflowed_concat : Overflowed (commands ++ [command]) ↔
    command.Overflows (new.performAll commands).memory ∨
      (command.memory? = none ∧ Overflowed commands) := by
  constructor
  · rintro ⟨before, first, later, heq, hoverflows, hlater⟩
    rcases List.eq_nil_or_concat later with rfl | ⟨later, last, rfl⟩
    · obtain ⟨rfl, hlast⟩ := List.append_inj' heq rfl
      cases hlast
      exact .inl hoverflows
    · rw [List.concat_eq_append] at heq hlater
      rw [← List.cons_append, ← List.append_assoc] at heq
      obtain ⟨rfl, hlast⟩ := List.append_inj' heq rfl
      cases hlast
      exact .inr ⟨hlater _ (by simp), before, first, later, rfl, hoverflows,
        fun c hc => hlater c (by simp [hc])⟩
  · rintro (hoverflows | ⟨hnone, before, first, later, rfl, hoverflows, hlater⟩)
    · exact ⟨commands, command, [], rfl, hoverflows, by simp⟩
    · refine ⟨before, first, later ++ [command], by simp, hoverflows, fun c hc => ?_⟩
      rcases List.mem_append.1 hc with hc | hc
      · exact hlater c hc
      · rw [List.mem_singleton.1 hc]
        exact hnone

/-- **The memory after a run** is not NaN, and finite unless an overflow is left in it. -/
theorem isFinite_memory_iff (hcommands : ∀ c ∈ commands, c.FiniteArgument) :
    (new.performAll commands).memory.isNaN = false ∧
      (IsFinite (new.performAll commands).memory ↔ ¬ Overflowed commands) := by
  induction commands using List.reverseRecOn with
  | nil =>
    refine ⟨by decide, iff_of_true (by decide) ?_⟩
    rintro ⟨before, command, later, heq, -⟩
    simp at heq
  | append_singleton commands command ih =>
    obtain ⟨hnan, hiff⟩ := ih fun c hc => hcommands c (by simp [hc])
    have hcommand := hcommands command (by simp)
    rw [performAll_concat, memory_perform, overflowed_concat]
    cases h : command.memory? with
    | some x =>
      have hx := Command.isFinite_of_memory? hcommand h
      refine ⟨isNaN_of_isFinite hx, iff_of_true hx ?_⟩
      rintro (hoverflows | ⟨hnone, -⟩)
      · cases h.symm.trans hoverflows.memory?_eq
      · cases hnone
    | none =>
      obtain ⟨hnan', hiff'⟩ := Command.accumulate_law hnan hcommand
      refine ⟨hnan', hiff'.trans ?_⟩
      rw [hiff, and_iff_right rfl, not_or, and_comm]

/-- **No command overflows exactly if the memory is finite all the time.** -/
theorem neverOverflows_iff (hcommands : ∀ c ∈ commands, c.FiniteArgument) :
    NeverOverflows commands ↔
      ∀ before, before <+: commands → IsFinite (new.performAll before).memory := by
  have hfinite_iff {before : List Command} (h : before <+: commands) :=
    (isFinite_memory_iff fun c hc => hcommands c (h.subset hc)).2
  constructor
  · intro hrange before hbefore
    refine (hfinite_iff hbefore).2 ?_
    obtain ⟨rest, rfl⟩ := hbefore
    rintro ⟨first, command, later, rfl, hoverflows, -⟩
    exact hrange first command (later ++ rest) (by simp) hoverflows
  · rintro hfinite before command later rfl hoverflows
    have hbefore : before ++ [command] <+: before ++ command :: later := ⟨later, by simp⟩
    exact (hfinite_iff hbefore).1 (hfinite _ hbefore) (overflowed_concat.2 (.inl hoverflows))

/-! ### Values -/

theorem eq_ok_of_toOption {ε α : Type} {outcome : Except ε α} {a : α}
    (h : outcome.toOption = some a) : outcome = .ok a := by
  cases outcome with
  | error => cases h
  | ok => rw [Option.some.inj h]

/-- **What the memory always has in common with all finite numbers**, the values of a run have, if
negation keeps it. -/
theorem all_values {P : Float → Prop} (hfinite : ∀ x, IsFinite x → P x)
    (hneg : ∀ x, P x → P (-x))
    (hmemory : ∀ before, before <+: commands → P (new.performAll before).memory) :
    P (new.performAll commands).lastResult ∧
      ∀ event ∈ new.events commands, ∀ value, event.value? = some value → P value := by
  induction commands using List.reverseRecOn with
  | nil => exact ⟨hfinite _ (by decide), by simp [events]⟩
  | append_singleton commands command ih =>
    obtain ⟨hlast, hevents⟩ := ih fun before hbefore =>
      hmemory before (hbefore.trans (List.prefix_append ..))
    have hmemory := hmemory commands (List.prefix_append ..)
    have hvalue {expression : String} {value : Float}
        (h : ((new.performAll commands).evaluate expression).1 = .ok value) : P value :=
      all_of_evaluate hfinite hneg hmemory hlast (fst_evaluate_eq_ok_iff.1 h)
    rw [performAll_concat, events_concat]
    refine ⟨?_, fun event hevent value h => ?_⟩
    · cases command with
      | evaluate expression =>
        show P ((new.performAll commands).evaluate expression).2.lastResult
        rw [lastResult_evaluate]
        cases h : ((new.performAll commands).evaluate expression).1 with
        | error failure => exact hlast
        | ok value => exact hvalue h
      | reset => exact hfinite 0.0 (by decide)
      | _ => exact hlast
    · rcases List.mem_append.1 hevent with hevent | hevent
      · exact hevents event hevent value h
      · rw [List.mem_singleton.1 hevent] at h
        cases command with
        | evaluate expression => exact hvalue (eq_ok_of_toOption h)
        | _ => cases h

/-- **The memory and the values of a run** in which every double that is passed to the memory is
finite: none is NaN, the memory is finite unless an overflow is left in it, and as long as no
addition overflows, so are all values. -/
theorem memory_range (hcommands : ∀ c ∈ commands, c.FiniteArgument) :
    (new.performAll commands).memory.isNaN = false ∧
    ((new.performAll commands).memory.isFinite = true ↔ ¬ Overflowed commands) ∧
    (∀ event ∈ new.events commands, ∀ value, event.value? = some value → value.isNaN = false) ∧
    (NeverOverflows commands → (new.performAll commands).memory.isFinite = true ∧
      ∀ event ∈ new.events commands, ∀ value, event.value? = some value →
        value.isFinite = true) := by
  have hnan {before : List Command} (h : before <+: commands) :=
    (isFinite_memory_iff fun c hc => hcommands c (h.subset hc)).1
  refine ⟨hnan (List.prefix_refl commands), (isFinite_memory_iff hcommands).2, ?_,
    fun hrange => ?_⟩
  · exact (all_values (fun x => isNaN_of_isFinite) (fun x hx => (isNaN_neg x).trans hx)
      fun before => hnan).2
  · have hfinite := (neverOverflows_iff hcommands).1 hrange
    exact ⟨hfinite commands (List.prefix_refl commands),
      (all_values (fun _ => id) (fun x hx => (isFinite_neg x).trans hx) hfinite).2⟩

/-- A sum that overflows, until the memory is cleared, and a run in which none does. -/
theorem memory_range_cleared :
    let overflow := [Command.memoryStore 1.7976931348623157e308,
      .memoryAdd 1.7976931348623157e308]
    let sum := [Command.memoryStore 5.0, .memoryAdd 0.5, .evaluate "M * 2"]
    ((∀ c ∈ overflow, c.FiniteArgument) ∧ Overflowed overflow ∧
      ¬ Overflowed (overflow ++ [.memoryClear])) ∧
    (∀ c ∈ sum, c.FiniteArgument) ∧ NeverOverflows sum ∧
      (new.performAll sum).memory.isFinite = true := by
  intro overflow sum
  have hoverflow : ∀ c ∈ overflow, c.FiniteArgument := by decide +kernel
  have hcleared : ∀ c ∈ overflow ++ [.memoryClear], c.FiniteArgument := by decide +kernel
  have hsum : ∀ c ∈ sum, c.FiniteArgument := by decide +kernel
  have hrange : NeverOverflows sum := by
    rw [neverOverflows_iff hsum]
    simp only [← List.mem_inits]
    decide +kernel
  refine ⟨⟨hoverflow, ?_, (memory_range hcleared).2.1.1 (by decide +kernel)⟩, hsum, hrange,
    ((memory_range hsum).2.2.2 hrange).1⟩
  by_contra h
  exact absurd ((memory_range hoverflow).2.1.2 h) (by decide +kernel)

/-- **An infinity is read from the memory**, after a sum of finite doubles. -/
theorem memory_overflow :
    let commands := [Command.memoryStore 1.7976931348623157e308,
      .memoryAdd 1.7976931348623157e308, .evaluate "M"]
    (∀ c ∈ commands, c.FiniteArgument) ∧ (new.performAll commands).memory = infinity ∧
      (new.events commands).map Event.value? = [none, none, some infinity] := by
  exact ⟨by decide +kernel, by decide +kernel, by decide +kernel⟩

end Calculator.Session
