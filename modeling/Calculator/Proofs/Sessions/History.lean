import Mathlib.Data.List.DropRight
import Calculator.Proofs.Sessions
import Calculator.Proofs.Tokens.Places

/-!
# The history of a session

A session is driven by commands, some of which have an outcome: a command with its outcome is an
event. What a session holds can be read off the events since the last reset, without running
anything again.

* `latest? f`, `since p`: the last thing that `f` finds in a history, and what follows the last
  entry with `p`;
* `register_eq`: a register that each event sets or leaves alone holds what the latest event since
  the last reset has set, or else what it holds in a new session;
* `memory_performAll`: the memory is a sum over the commands since it was last set;
* `longestFront_truncate`: the last expression is the longest front of the text that fits;
* `history_law`: all of a session, and what one evaluation can do to it.
-/

namespace Calculator

/-! ### Reading a history -/

section Reading

variable {α β γ : Type}

/-- What follows the last entry with a property: everything, if there is none. -/
def since (p : α → Bool) (entries : List α) : List α := entries.rtakeWhile fun a => !p a

/-- The last thing that is found in the entries. -/
def latest? (f : α → Option β) (entries : List α) : Option β := (entries.filterMap f).getLast?

theorem since_concat (p : α → Bool) (entries : List α) (a : α) :
    since p (entries ++ [a]) = if p a then [] else since p entries ++ [a] := by
  unfold since
  rw [List.rtakeWhile_concat]
  cases p a <;> rfl

theorem latest?_concat (f : α → Option β) (entries : List α) (a : α) :
    latest? f (entries ++ [a]) = (f a).or (latest? f entries) := by
  unfold latest?
  rw [List.filterMap_append]
  cases h : f a with
  | none => simp [h]
  | some b => simp [h]

theorem latest?_map (f : α → Option β) (g : β → γ) (entries : List α) :
    latest? (fun a => (f a).map g) entries = (latest? f entries).map g := by
  unfold latest?
  rw [← List.map_filterMap, List.getLast?_map]

end Reading

/-! ### The longest front that fits -/

/-- **The longest front of a text** that has at most `size` bytes. -/
structure LongestFront (size : Nat) (text kept : String) : Prop where
  front : kept.toList <+: text.toList
  fits : kept.utf8ByteSize ≤ size
  longest : ∀ other : String, other.toList <+: text.toList → other.utf8ByteSize ≤ size →
    other.toList <+: kept.toList

theorem takeBytes_prefix (size : Nat) (cs : List Char) : takeBytes size cs <+: cs := by
  induction cs generalizing size with
  | nil => simp [takeBytes]
  | cons c cs ih =>
    rw [takeBytes]
    split
    · exact (List.prefix_cons_inj c).2 (ih _)
    · exact List.nil_prefix

theorem bytes_takeBytes_le (size : Nat) (cs : List Char) : bytes (takeBytes size cs) ≤ size := by
  induction cs generalizing size with
  | nil => exact Nat.zero_le _
  | cons c cs ih =>
    rw [takeBytes]
    split
    · have := ih (size - c.utf8Size)
      rw [bytes_cons]
      omega
    · exact Nat.zero_le _

theorem prefix_takeBytes {size : Nat} {cs front : List Char} (h : front <+: cs)
    (hsize : bytes front ≤ size) : front <+: takeBytes size cs := by
  induction cs generalizing size front with
  | nil =>
    rw [List.prefix_nil.1 h]
    exact List.nil_prefix
  | cons c cs ih =>
    cases front with
    | nil => exact List.nil_prefix
    | cons d front =>
      obtain ⟨rfl, hfront⟩ := List.cons_prefix_cons.1 h
      rw [bytes_cons] at hsize
      rw [takeBytes, if_pos (by omega)]
      exact (List.prefix_cons_inj d).2 (ih hfront (by omega))

/-- If something is cut off, then less than a character would still fit. -/
theorem lt_bytes_takeBytes {size : Nat} {cs : List Char} (h : size < bytes cs) :
    size < bytes (takeBytes size cs) + 4 := by
  induction cs generalizing size with
  | nil => exact absurd h (Nat.not_lt_zero _)
  | cons c cs ih =>
    rw [bytes_cons] at h
    rw [takeBytes]
    split
    · have hrest : size - c.utf8Size < bytes cs := by omega
      have := ih hrest
      rw [bytes_cons]
      omega
    · have := c.utf8Size_le_four
      omega

theorem isBoundary_add (c : Char) (cs : List Char) (byte : Nat) :
    isBoundary (c :: cs) (c.utf8Size + byte) = isBoundary cs byte := by
  have hpos := c.utf8Size_pos
  rw [isBoundary]
  · rw [Nat.add_sub_cancel_left, decide_eq_true (Nat.le_add_right _ _), Bool.true_and]
  · omega

theorem isBoundary_bytes {cs front : List Char} (h : front <+: cs) :
    isBoundary cs (bytes front) = true := by
  induction cs generalizing front with
  | nil =>
    rw [List.prefix_nil.1 h]
    rfl
  | cons c cs ih =>
    cases front with
    | nil => exact isBoundary.eq_1 _
    | cons d front =>
      obtain ⟨rfl, hfront⟩ := List.cons_prefix_cons.1 h
      rw [bytes_cons, isBoundary_add]
      exact ih hfront

theorem boundaryUpTo_le (cs : List Char) (byte : Nat) : boundaryUpTo cs byte ≤ byte := by
  induction byte with
  | zero => exact Nat.le_refl 0
  | succ byte ih =>
    rw [boundaryUpTo]
    split <;> omega

/-- A step back never passes a boundary. -/
theorem le_boundaryUpTo {cs : List Char} {boundary byte : Nat}
    (hboundary : isBoundary cs boundary = true) (hle : boundary ≤ byte) :
    boundary ≤ boundaryUpTo cs byte := by
  induction byte with
  | zero => omega
  | succ byte ih =>
    rw [boundaryUpTo]
    split
    · exact hle
    · next hnot =>
      refine ih (Nat.le_of_lt_succ (Nat.lt_of_le_of_ne hle ?_))
      rintro rfl
      exact hnot hboundary

theorem longestFront_truncate (text : String) :
    LongestFront maxExpressionSize text (truncate text) := by
  unfold truncate
  split
  · next hfits => exact ⟨List.prefix_rfl, hfits, fun _ hfront _ => hfront⟩
  · refine ⟨?_, ?_, fun other hfront hsize => ?_⟩
    · rw [String.toList_ofList]
      exact takeBytes_prefix _ _
    · exact Nat.le_trans (bytes_takeBytes_le _ _) (boundaryUpTo_le _ _)
    · rw [String.toList_ofList]
      rw [← bytes_toList] at hsize
      exact prefix_takeBytes hfront (le_boundaryUpTo (isBoundary_bytes hfront) hsize)

namespace Session

/-! ### Commands and events -/

/-- **What a session can be asked to do.** -/
inductive Command
  | evaluate (expression : String)
  | memoryStore (x : Float)
  | memoryAdd (x : Float)
  | memorySubtract (x : Float)
  | memoryClear
  | setAngleUnit (unit : AngleUnit)
  | setPrecision (precision : Nat)
  | reset

/-- The session after a command. -/
def perform (s : Session) : Command → Session
  | .evaluate expression => (s.evaluate expression).2
  | .memoryStore x => s.memoryStore x
  | .memoryAdd x => s.memoryAdd x
  | .memorySubtract x => s.memorySubtract x
  | .memoryClear => s.memoryClear
  | .setAngleUnit unit => s.setAngleUnit unit
  | .setPrecision precision => s.setPrecision precision
  | .reset => s.reset

/-- What a command answers, if it is an evaluation. -/
def outcome? (s : Session) : Command → Option (Except Failure Float)
  | .evaluate expression => some (s.evaluate expression).1
  | _ => none

/-- A command and what it answered. -/
structure Event where
  command : Command
  outcome? : Option (Except Failure Float)

/-- **The session after some commands**, one after the other. -/
def performAll (s : Session) (commands : List Command) : Session := commands.foldl perform s

/-- **What happens** when some commands are performed one after the other. -/
def events (s : Session) : List Command → List Event
  | [] => []
  | command :: rest => ⟨command, s.outcome? command⟩ :: events (s.perform command) rest

namespace Command

def isReset : Command → Bool
  | reset => true
  | _ => false

/-- What the memory is set to, whatever has been in it. -/
def memory? : Command → Option Float
  | memoryStore x => some x
  | memoryClear | reset => some 0.0
  | _ => none

/-- The memory after a command that does not set it. -/
def accumulate (memory : Float) : Command → Float
  | memoryAdd x => memory + x
  | memorySubtract x => memory - x
  | _ => memory

def angleUnit? : Command → Option AngleUnit
  | setAngleUnit unit => some unit
  | _ => none

def precision? : Command → Option Nat
  | setPrecision precision => some precision
  | _ => none

/-- The text that is submitted, if it is not empty. -/
def text? : Command → Option String
  | evaluate expression => if expression = "" then none else some expression
  | _ => none

end Command

/-- The value of a successful evaluation. -/
def Event.value? (event : Event) : Option Float := event.outcome?.bind Except.toOption

/-- The events since the last reset. -/
def recent (events : List Event) : List Event := since (·.command.isReset) events

variable {s : Session} {command : Command} {expression : String} {failure : Failure}

theorem performAll_concat (s : Session) (commands : List Command) (command : Command) :
    s.performAll (commands ++ [command]) = (s.performAll commands).perform command :=
  List.foldl_concat ..

theorem events_concat (s : Session) (commands : List Command) (command : Command) :
    s.events (commands ++ [command]) =
      s.events commands ++ [⟨command, (s.performAll commands).outcome? command⟩] := by
  induction commands generalizing s with
  | nil => rfl
  | cons first rest ih => exact congrArg _ (ih (s.perform first))

/-- **A register holds what has been set last** since the last reset, or else what it holds in a new
session, if each event sets it or leaves it alone. -/
theorem register_eq {ρ : Type} (register : Session → ρ) (set? : Event → Option ρ)
    (hstep : ∀ s command, command.isReset = false → register (s.perform command) =
      (set? ⟨command, s.outcome? command⟩).getD (register s)) (commands : List Command) :
    register (new.performAll commands) =
      (latest? set? (recent (new.events commands))).getD (register new) := by
  induction commands using List.reverseRecOn with
  | nil => rfl
  | append_singleton commands command ih =>
    rw [performAll_concat, events_concat, recent, since_concat]
    cases hreset : command.isReset with
    | true =>
      obtain rfl : command = .reset := by
        cases command with
        | reset => rfl
        | _ => cases hreset
      rfl
    | false =>
      rw [hstep _ _ hreset, ih, if_neg Bool.false_ne_true, latest?_concat]
      cases set? ⟨command, (new.performAll commands).outcome? command⟩ <;> rfl

/-! ### What one evaluation does -/

theorem evaluate_of_ne (s : Session) (h : expression ≠ "") : s.evaluate expression =
    match Calculator.evaluate s.toEnvironment expression with
    | .ok value => (.ok value, { s with lastExpression := truncate expression, lastResult := value })
    | .error rejection =>
      (.error (.ofRejection rejection expression), { s with lastExpression := truncate expression }) := by
  have hne : expression.isEmpty = false := by
    rw [Bool.eq_false_iff]
    exact fun hempty => h (String.isEmpty_iff.1 hempty)
  unfold evaluate
  rw [hne]
  rfl

theorem lastResult_evaluate (s : Session) (expression : String) :
    (s.evaluate expression).2.lastResult =
      (s.evaluate expression).1.toOption.getD s.lastResult := by
  by_cases h : expression = ""
  · subst h
    rfl
  · rw [evaluate_of_ne s h]
    cases Calculator.evaluate s.toEnvironment expression <;> rfl

theorem lastExpression_evaluate (s : Session) (expression : String) :
    (s.evaluate expression).2.lastExpression =
      if expression = "" then s.lastExpression else truncate expression := by
  split
  · next h =>
    subst h
    rfl
  · next h =>
    rw [evaluate_of_ne s h]
    cases Calculator.evaluate s.toEnvironment expression <;> rfl

theorem lastResult_of_error (h : (s.evaluate expression).1 = .error failure) :
    (s.evaluate expression).2.lastResult = s.lastResult := by
  rw [lastResult_evaluate, h]
  rfl

/-- **A failure is an empty text, or a rejection that is passed on** with the whole text. -/
theorem failure_of_evaluate (h : (s.evaluate expression).1 = .error failure) :
    (expression = "" ∧ failure = .ofFault .invalidInput "") ∨
    (expression ≠ "" ∧ ∃ rejection,
      Calculator.evaluate s.toEnvironment expression = .error rejection ∧
      failure = .ofRejection rejection expression) := by
  by_cases hne : expression = ""
  · subst hne
    rw [evaluate_empty] at h
    exact Or.inl ⟨rfl, (Except.error.inj h).symm⟩
  · refine Or.inr ⟨hne, ?_⟩
    rw [evaluate_of_ne s hne] at h
    cases heval : Calculator.evaluate s.toEnvironment expression with
    | ok value =>
      rw [heval] at h
      cases h
    | error rejection =>
      rw [heval] at h
      exact ⟨rejection, rfl, (Except.error.inj h).symm⟩

theorem invalidInput_iff : (∃ failure, (s.evaluate expression).1 = .error failure ∧
    failure.fault = .invalidInput) ↔ expression = "" := by
  constructor
  · rintro ⟨failure, h, hfault⟩
    rcases failure_of_evaluate h with ⟨hempty, -⟩ | ⟨-, rejection, -, rfl⟩
    · exact hempty
    · cases hfault
  · rintro rfl
    exact ⟨_, rfl, rfl⟩

/-! ### Registers -/

theorem lastResult_performAll (commands : List Command) :
    (new.performAll commands).lastResult =
      (latest? Event.value? (recent (new.events commands))).getD 0.0 := by
  refine register_eq (·.lastResult) Event.value? (fun s command hreset => ?_) commands
  cases command with
  | evaluate expression => exact lastResult_evaluate s expression
  | reset => cases hreset
  | _ => rfl

theorem angleUnit_performAll (commands : List Command) :
    (new.performAll commands).angleUnit =
      (latest? (·.command.angleUnit?) (recent (new.events commands))).getD .degrees := by
  refine register_eq (·.angleUnit) (·.command.angleUnit?) (fun s command hreset => ?_) commands
  cases command with
  | evaluate expression => exact angleUnit_evaluate s expression
  | reset => cases hreset
  | _ => rfl

theorem precision_performAll (commands : List Command) :
    (new.performAll commands).precision =
      (latest? (·.command.precision?) (recent (new.events commands))).getD 10 := by
  refine register_eq (·.precision) (·.command.precision?) (fun s command hreset => ?_) commands
  cases command with
  | evaluate expression => exact precision_evaluate s expression
  | reset => cases hreset
  | _ => rfl

theorem lastExpression_performAll (commands : List Command) :
    (new.performAll commands).lastExpression =
      ((latest? (·.command.text?) (recent (new.events commands))).map truncate).getD "" := by
  rw [← latest?_map]
  refine register_eq (·.lastExpression) (fun event => event.command.text?.map truncate)
    (fun s command hreset => ?_) commands
  cases command with
  | evaluate expression =>
    have h := lastExpression_evaluate s expression
    show (s.evaluate expression).2.lastExpression = _
    rw [h]
    dsimp only [Command.text?]
    split <;> rfl
  | reset => cases hreset
  | _ => rfl

theorem memory_perform (s : Session) (command : Command) :
    (s.perform command).memory = command.memory?.getD (command.accumulate s.memory) := by
  cases command with
  | evaluate expression => exact memory_evaluate s expression
  | _ => rfl

/-- **The memory** is what it was last set to and what has been added since. -/
theorem memory_performAll (commands : List Command) :
    (new.performAll commands).memory =
      (since (·.memory?.isSome) commands).foldl Command.accumulate
        ((latest? Command.memory? commands).getD 0.0) := by
  induction commands using List.reverseRecOn with
  | nil => rfl
  | append_singleton commands command ih =>
    rw [performAll_concat, memory_perform, since_concat, latest?_concat]
    cases h : command.memory? with
    | some x => rfl
    | none =>
      rw [if_neg (by simp), List.foldl_concat, Option.none_or, ← ih]
      rfl

/-! ### The law -/

/-- **The last expression** that belongs to the latest text: as much of it as fits. -/
def KeptOf : Option String → String → Prop
  | none, kept => kept = ""
  | some text, kept => LongestFront 511 text kept ∧
      (511 < text.utf8ByteSize → 508 ≤ kept.utf8ByteSize)

theorem keptOf_map (text? : Option String) : KeptOf text? ((text?.map truncate).getD "") := by
  cases text? with
  | none => rfl
  | some text =>
    have hlongest := longestFront_truncate text
    refine ⟨hlongest, fun hsize => ?_⟩
    rw [← bytes_toList] at hsize
    have hmuch := lt_bytes_takeBytes hsize
    obtain ⟨more, hmore⟩ := hlongest.longest (String.ofList (takeBytes 511 text.toList))
      (by rw [String.toList_ofList]; exact takeBytes_prefix _ _) (bytes_takeBytes_le _ _)
    have hsize := congrArg bytes hmore
    rw [bytes_append, String.toList_ofList, bytes_toList] at hsize
    show 508 ≤ (truncate text).utf8ByteSize
    omega

end Session

open Session in
/-- **The history of a session says what it holds.** After any commands, each register holds what
the events since the last reset have left in it; and an evaluation changes nothing but the last
expression and, if it succeeds, the last result. -/
theorem history_law :
    (∀ commands : List Command,
      let s := Session.new.performAll commands
      let recent := since (·.command.isReset) (Session.new.events commands)
      s.lastResult = (latest? Event.value? recent).getD 0.0 ∧
      KeptOf (latest? (·.command.text?) recent) s.lastExpression ∧
      s.memory = (since (·.memory?.isSome) commands).foldl Command.accumulate
        ((latest? Command.memory? commands).getD 0.0) ∧
      s.angleUnit = (latest? (·.command.angleUnit?) recent).getD .degrees ∧
      s.precision = (latest? (·.command.precision?) recent).getD 10) ∧
    ∀ (s : Session) (expression : String),
      let s' := (s.evaluate expression).2
      s'.memory = s.memory ∧ s'.angleUnit = s.angleUnit ∧ s'.precision = s.precision ∧
      (expression = "" → s' = s) ∧
      ((∃ failure, (s.evaluate expression).1 = .error failure ∧ failure.fault = .invalidInput) ↔
        expression = "") ∧
      ∀ failure, (s.evaluate expression).1 = .error failure →
        s'.lastResult = s.lastResult ∧
        (expression ≠ "" → ∃ rejection,
          Calculator.evaluate s.toEnvironment expression = .error rejection ∧
          failure = ⟨.parseError, rejection.message, expression⟩) := by
  refine ⟨fun commands => ?_, fun s expression => ?_⟩
  · refine ⟨lastResult_performAll commands, ?_, memory_performAll commands,
      angleUnit_performAll commands, precision_performAll commands⟩
    rw [lastExpression_performAll]
    exact keptOf_map _
  · refine ⟨memory_evaluate s expression, angleUnit_evaluate s expression,
      precision_evaluate s expression, ?_, invalidInput_iff, fun failure h => ?_⟩
    · rintro rfl
      rfl
    · refine ⟨lastResult_of_error h, fun hne => ?_⟩
      rcases failure_of_evaluate h with ⟨hempty, -⟩ | ⟨-, rejection, heval, rfl⟩
      · exact absurd hempty hne
      · exact ⟨rejection, heval, rfl⟩

/-- A sum with the memory, something added to it, and a division that fails. -/
theorem history_law_division :
    let s := Session.new.performAll
      [.setPrecision 3, .reset, .memoryStore 5.0, .evaluate "M + 1", .memoryAdd 0.5,
        .evaluate "ans / 0", .evaluate ""]
    (s.lastResult = 6.0 ∧ Session.KeptOf (some "ans / 0") s.lastExpression ∧ s.memory = 5.5 ∧
      s.precision = 10) ∧
    (s.evaluate "ans / 0").1 = .error ⟨.parseError, "Division by zero", "ans / 0"⟩ ∧
    "ans / 0" ≠ "" ∧ (s.evaluate "ans / 0").2.lastResult = s.lastResult ∧
    (s.evaluate "").2 = s := by
  intro s
  obtain ⟨hresult, hkept, hmemory, -, hprecision⟩ := history_law.1
    [.setPrecision 3, .reset, .memoryStore 5.0, .evaluate "M + 1", .memoryAdd 0.5,
      .evaluate "ans / 0", .evaluate ""]
  obtain ⟨-, -, -, -, -, hfailure⟩ := history_law.2 s "ans / 0"
  obtain ⟨-, -, -, hempty, -⟩ := history_law.2 s ""
  have hfails : (s.evaluate "ans / 0").1 =
      .error ⟨.parseError, "Division by zero", "ans / 0"⟩ := by rfl
  exact ⟨⟨hresult.trans (by rfl), hkept, hmemory.trans (by rfl), hprecision⟩, hfails, by decide,
    (hfailure _ hfails).1, hempty rfl⟩

end Calculator
