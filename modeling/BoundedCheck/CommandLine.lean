import BoundedCheck.Answer

/-!
# Command line

A reading of arguments from left to right.  An option takes its value from the same argument or from
the next one, unless that starts with a hyphen; no option may be given twice.  `-V` and `-h` end the
reading where they stand, and so does the first argument that makes no sense.

This is one way to spell invocations, which the program is given as a parameter: what an invocation
is answered does not depend on it.
-/

namespace BoundedCheck.CommandLine

/-- What some arguments have given so far. -/
structure Given where
  file : Option String := none
  bound : Option Nat := none
  solver : Option SolverKind := none
  timeoutMs : Option Nat := none
  freeBitLimit : Option Nat := none
  schedule : Option Nat := none
  emitSchedule : Bool := false
  verbose : Bool := false
  deriving DecidableEq, Repr

/-- The options that were given, with the defaults for the others. -/
def Given.options (given : Given) : Options :=
  let base : Options := {}
  { bound := given.bound.getD base.bound
    solver := given.solver
    timeoutMs := given.timeoutMs
    freeBitLimit := given.freeBitLimit.getD base.freeBitLimit
    schedule := given.schedule
    emitSchedule := given.emitSchedule
    verbose := given.verbose }

/-- An option with a value. -/
inductive Setting where
  | bound
  | solver
  | timeoutMs
  | freeBitLimit
  | schedule
  deriving DecidableEq, Repr

/-- What is known after some arguments. -/
inductive Progress where
  | more (given : Given)
  /-- The next argument is the value of an option. -/
  | awaiting (setting : Setting) (given : Given)
  | done (invocation : Invocation)
  deriving DecidableEq, Repr

/-- Gives a value to a field that has none yet. -/
def Given.once {α : Type} (field value : Option α) (update : α → Given) : Progress :=
  match field, value with
  | none, some a => .more (update a)
  | _, _ => .done .usageError

/-- The value of an option; numbers may have a plus sign. -/
def Given.set (given : Given) (setting : Setting) (value : String) : Progress :=
  match setting with
  | .bound =>
    Given.once given.bound (Text.Numeral.below? wideBound value)
      fun n => { given with bound := some n }
  | .solver =>
    Given.once given.solver (SolverKind.ofName? value)
      fun kind => { given with solver := some kind }
  | .timeoutMs =>
    Given.once given.timeoutMs (Text.Numeral.below? wideBound value)
      fun n => { given with timeoutMs := some n }
  | .freeBitLimit =>
    Given.once given.freeBitLimit
      (((Text.Numeral.integer? value).filter fun (n : Int) => 0 ≤ n && n < (narrowBound : Int)).map
        Int.toNat)
      fun n => { given with freeBitLimit := some n }
  | .schedule =>
    Given.once given.schedule (Text.Numeral.below? wideBound value)
      fun n => { given with schedule := some n }

/-- The flag that asks for the design with its counter. -/
def Given.setEmit (given : Given) : Progress :=
  if given.emitSchedule then .done .usageError else .more { given with emitSchedule := true }

/-- The flag that asks for more messages. -/
def Given.setVerbose (given : Given) : Progress :=
  if given.verbose then .done .usageError else .more { given with verbose := true }

/-- An argument that is no option: the only file, whose name is not empty. -/
def Given.setFile (given : Given) (file : String) : Progress :=
  if file.isEmpty then .done .usageError
  else Given.once given.file (some file) fun name => { given with file := some name }

/-- The letters after a single hyphen. -/
def shortOptions (given : Given) : List Char → Progress
  | [] => .more given
  | 'b' :: [] => .awaiting .bound given
  | 'b' :: '=' :: value => given.set .bound (String.ofList value)
  | 'b' :: value => given.set .bound (String.ofList value)
  | 'v' :: rest =>
    match given.setVerbose with
    | .more given => shortOptions given rest
    | stopped => stopped
  | 'V' :: _ => .done (.version false)
  | 'h' :: _ => .done .help
  | _ => .done .usageError

/-- The name of an option with a value. -/
def Setting.name : Setting → String
  | .bound => "bound"
  | .solver => "solver"
  | .timeoutMs => "timeout-ms"
  | .freeBitLimit => "max-free-bits"
  | .schedule => "schedule"

/-- The option with a name. -/
def Setting.ofName? (name : String) : Option Setting :=
  [bound, solver, timeoutMs, freeBitLimit, schedule].find? (·.name == name)

/-- The name after two hyphens, and the value after an equals sign. -/
def longOption (given : Given) (name : String) (value : Option String) : Progress :=
  match Setting.ofName? name, value with
  | some setting, some value => given.set setting value
  | some setting, none => .awaiting setting given
  | none, some _ => .done .usageError
  | none, none =>
    if name = "emit-schedule" then given.setEmit
    else if name = "verbose" then given.setVerbose
    else if name = "version" then .done (.version true)
    else if name = "help" then .done .help
    else .done .usageError

/-- Splits a text at its first equals sign. -/
def splitValue (text : List Char) : String × Option String :=
  let name := String.ofList (text.takeWhile (· != '='))
  match text.dropWhile (· != '=') with
  | [] => (name, none)
  | _ :: value => (name, some (String.ofList value))

/-- One argument before a lone pair of hyphens. -/
def argument (given : Given) (text : String) : Progress :=
  match text.toList with
  | '-' :: '-' :: rest =>
    let (name, value) := splitValue rest
    longOption given name value
  | '-' :: c :: rest => shortOptions given (c :: rest)
  | _ => given.setFile text

/-- The end of the arguments. -/
def finish (given : Given) : Invocation :=
  match given.file with
  | some file => .run file given.options
  | none => .usageError

/-- Arguments after a lone pair of hyphens: none of them is an option. -/
def files : Given → List String → Invocation
  | given, [] => finish given
  | given, text :: rest =>
    match given.setFile text with
    | .more given => files given rest
    | .awaiting _ _ => .usageError
    | .done invocation => invocation

/-- Reads the arguments, where an option may wait for its value. -/
def read : Progress → List String → Invocation
  | .done invocation, _ => invocation
  | .more given, [] => finish given
  | .awaiting _ _, [] => .usageError
  | .more given, text :: rest =>
    if text = "--" then files given rest else read (argument given text) rest
  | .awaiting setting given, value :: rest =>
    if value.toList.head? = some '-' then .usageError else read (given.set setting value) rest

/-- What a list of arguments asks for. -/
def parse (arguments : List String) : Invocation :=
  read (.more {}) arguments

end BoundedCheck.CommandLine
