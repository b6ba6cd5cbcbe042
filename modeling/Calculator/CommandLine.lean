import Calculator.Script

/-!
# The command line

One positional argument, the expressions or the name of a file that holds them, and flags:

* `-f`, `--file`: the argument names a file;
* `-r`, `--radians`: angles are in radians;
* `-v`, `--verbose`: accepted, and without influence on the output;
* `-p N`, `--precision N`: the precision of the display. The number may be attached: `-p3`, `-p=3`,
  `--precision=3`.

Flags may stand before and after the argument, but none twice. Short flags can be combined, as in
`-rp 3`. After `--` nothing is a flag. A single `-` is no flag.
-/

namespace Calculator.CommandLine

/-- What has been read of the arguments. -/
structure Request where
  file : Bool := false
  radians : Bool := false
  verbose : Bool := false
  precision? : Option Nat := none
  contents? : Option String := none

/-- The precision without the flag. -/
def defaultPrecision : Nat := 10

/-- The precisions are below this. -/
def precisionLimit : Nat := UInt64.size

/-- Reads a precision: digits, with an optional plus sign before them. -/
def readPrecision? (cs : List Char) : Option Nat :=
  let ds := if cs.head? = some '+' then cs.drop 1 else cs
  if !ds.isEmpty && ds.all Char.isDigit && Decimal.ofDigits ds < precisionLimit then
    some (Decimal.ofDigits ds)
  else none

namespace Request

/-- Sets a flag that is not set yet. -/
def setFile? (r : Request) : Option Request := if r.file then none else some { r with file := true }

def setRadians? (r : Request) : Option Request :=
  if r.radians then none else some { r with radians := true }

def setVerbose? (r : Request) : Option Request :=
  if r.verbose then none else some { r with verbose := true }

/-- Sets the precision, if it is not set yet, to the number that a text denotes. -/
def setPrecision? (r : Request) (text : List Char) : Option Request :=
  if r.precision?.isSome then none
  else (readPrecision? text).map fun n => { r with precision? := some n }

/-- Sets the positional argument, of which there is one. -/
def setContents? (r : Request) (text : String) : Option Request :=
  if r.contents?.isSome then none else some { r with contents? := some text }

/-- Reads the letters of combined short flags. The last one may be `p`, and then its number is the
next argument (`true`). -/
def readShort? (r : Request) : List Char → Option (Request × Bool)
  | [] => some (r, false)
  | 'f' :: cs => do readShort? (← r.setFile?) cs
  | 'r' :: cs => do readShort? (← r.setRadians?) cs
  | 'v' :: cs => do readShort? (← r.setVerbose?) cs
  | ['p'] => some (r, true)
  | 'p' :: '=' :: number => (r.setPrecision? number).map (·, false)
  | 'p' :: number => (r.setPrecision? number).map (·, false)
  | _ :: _ => none

/-- Reads a long flag without its dashes; as above, `true` means that its number follows. -/
def readLong? (r : Request) (flag : List Char) : Option (Request × Bool) :=
  let (name, value) := flag.span (· != '=')
  match String.ofList name, value with
  | "file", [] => r.setFile?.map (·, false)
  | "radians", [] => r.setRadians?.map (·, false)
  | "verbose", [] => r.setVerbose?.map (·, false)
  | "precision", [] => some (r, true)
  | "precision", _ :: number => (r.setPrecision? number).map (·, false)
  | _, _ => none

/-- Reads positional arguments only. -/
def readPositional? (r : Request) (args : List String) : Option Request :=
  args.foldlM setContents? r

/-- **Reads the arguments.** -/
def read? (r : Request) : List String → Option Request
  | [] => some r
  | arg :: args =>
    match arg.toList with
    | ['-', '-'] => r.readPositional? args
    | '-' :: c :: cs => do
      let (r, pending) ← if c = '-' then r.readLong? cs else r.readShort? (c :: cs)
      if pending then
        match args with
        | [] => none
        | number :: args => do read? (← r.setPrecision? number.toList) args
      else read? r args
    | _ => do read? (← r.setContents? arg) args

end Request

/-- What the program answers: what it prints, and its exit code. -/
structure Response where
  output : String
  code : UInt32
deriving DecidableEq

/-- Arguments that cannot be read. -/
def usageError : Response := ⟨"", 2⟩

/-- A file that cannot be read. -/
def fileError : Response := ⟨"", 1⟩

/-- The session that the flags ask for. -/
def Request.session (r : Request) : Session :=
  { precision := r.precision?.getD defaultPrecision
    angleUnit := if r.radians then .radians else .degrees }

/-- The exit code of a script whose end is not reached. -/
def abortCode : UInt32 := 101

/-- The answer to a script: its output, each line ended. -/
def Request.answer (r : Request) (script : String) : Response :=
  let t := Script.run r.session script
  ⟨String.join (t.lines.map (· ++ "\n")), if t.completed then 0 else abortCode⟩

/-- **The answer to the arguments**, where `contentsOf` gives what a file holds, if it can be
read. -/
def respond {m : Type → Type} [Monad m] (contentsOf : String → m (Option String))
    (args : List String) : m Response := do
  match Request.read? {} args with
  | none => return usageError
  | some r =>
    match r.contents? with
    | none => return usageError
    | some contents =>
      if r.file then
        match ← contentsOf contents with
        | none => return fileError
        | some script => return r.answer script
      else return r.answer contents

end Calculator.CommandLine
