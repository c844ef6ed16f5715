import BoundedCheck.Check
import BoundedCheck.Design.Reader
import BoundedCheck.Schedule

/-!
# Answers

What a run does once it is known what its arguments ask for: it reads a design from a file, and
checks it or prints it with a counter.  How the arguments are spelled is not decided here.
-/

namespace BoundedCheck.CommandLine

/-- What the arguments say about a run. -/
structure Options where
  bound : Nat := 3
  solver : Option SolverKind := none
  timeoutMs : Option Nat := none
  freeBitLimit : Nat := 20
  /-- The number of steps of the counter that the design gets. -/
  schedule : Option Nat := none
  /-- The design is printed with its counter instead of checked. -/
  emitSchedule : Bool := false
  verbose : Bool := false
  deriving DecidableEq, Repr

/-- What the arguments ask for. -/
inductive Invocation where
  | usageError
  /-- The version alone, or with the origin of the program. -/
  | version (long : Bool)
  | help
  | run (file : String) (options : Options)
  deriving DecidableEq, Repr

/-- Where the program comes from: what was built, when, and for which machine. -/
structure Build where
  revision : String := "unknown"
  date : String := "unknown"
  target : String := "unknown"
  deriving DecidableEq, Repr

/-- The text that tells name and version. -/
def versionText : String := "btor2ex 0.1.0"

/-- The text that also tells where the program comes from. -/
def Build.versionText (build : Build) : String :=
  s!"{CommandLine.versionText} ({build.revision} {build.date}, {build.target})"

/-- The text that tells the options, each on one line. -/
def helpText : String :=
  "BTOR2 symbolic execution engine and bounded model checker\n\n" ++
  "Usage: btor2ex [OPTIONS] <FILE>\n\n" ++
  "Arguments:\n" ++
  "  <FILE>  Input BTOR2 file\n\n" ++
  "Options:\n" ++
  "  -b, --bound <BOUND>                  BMC bound [default: 3]\n" ++
  "      --solver <SOLVER>                Solver backend: z3 (default) or exhaustive\n" ++
  "      --timeout-ms <MS>                Per-query solver timeout in milliseconds\n" ++
  "      --max-free-bits <MAX_FREE_BITS>  Free-bit limit of the exhaustive solver [default: 20]\n" ++
  "      --schedule <NUMSTEPS>            Splice a proof-schedule counter with this many steps into the " ++
  "design\n" ++
  "      --emit-schedule                  Print the design with the proof-schedule counter instead of " ++
  "checking it\n" ++
  "  -v, --verbose                        Show verbose output\n" ++
  "  -h, --help                           Print help\n" ++
  "  -V, --version                        Print version\n"

/-- The end of a run: the exit status, the output, and a complaint for the user. -/
structure Report where
  status : Nat
  output : String := ""
  complaint : String := ""
  deriving DecidableEq, Repr

/-- A run that ended by a fault. -/
def Report.faulty : Report :=
  { status := 101, complaint := "arithmetic overflow" }

/-- How the options ask for a design to be checked. -/
def Options.settings (options : Options) : Settings where
  depth := options.bound
  solver := options.solver.getD .z3
  timeoutMs := options.timeoutMs
  freeBitLimit := options.freeBitLimit

/-- The schedule that the options ask for. -/
def Options.proofSchedule (options : Options) : Schedule :=
  match options.schedule with
  | some steps => { steps := steps }
  | none => {}

/-- Prints a design with its counter. -/
def emit (options : Options) (design : Design) : Report :=
  match options.proofSchedule.splice design with
  | .error _ => .faulty
  | .ok spliced =>
    match Design.text spliced with
    | .error _ => .faulty
    | .ok text => { status := 0, output := text }

/-- The report of a check. -/
def reportOf : Except (Stop CheckError) Verdict → Report
  | .ok (.safe _) => { status := 0, output := "SAFE\n" }
  | .ok (.violated _ _ _) => { status := 0, output := "UNSAFE: please see log for trace\n" }
  | .ok (.undecided _ reason) => { status := 2, output := s!"UNKNOWN: {reason}\n" }
  | .error (.error error) => { status := 1, complaint := s!"check error: {error.message}" }
  | .error (.fault _) => .faulty

/-- Checks a design, with its counter if the options name a number of steps. -/
def checkDesign (options : Options) (design : Design) : Report :=
  match options.schedule with
  | none => reportOf (check options.settings design)
  | some _ =>
    match options.proofSchedule.splice design with
    | .error _ => .faulty
    | .ok spliced => reportOf (check options.settings spliced)

/-- Answers for the text of a design. -/
def answer (options : Options) (source : String) : Report :=
  match Design.read source with
  | .error error => { status := 1, complaint := s!"parse error: {error.message}" }
  | .ok design => if options.emitSchedule then emit options design else checkDesign options design

/-- Answers for the bytes of a file, or for a file that cannot be read. -/
def answerFile (options : Options) (content : Option ByteArray) : Report :=
  match content.bind String.fromUTF8? with
  | none => { status := 1, complaint := "failed to read file" }
  | some source => answer options source

/-- Answers an invocation, given the contents of files and the origin of the program. -/
def respond (invocation : Invocation) (content : String → Option ByteArray) (build : Build := {}) :
    Report :=
  match invocation with
  | .usageError => { status := 2, complaint := "Usage: btor2ex [OPTIONS] <FILE>" }
  | .version false => { status := 0, output := versionText ++ "\n" }
  | .version true => { status := 0, output := build.versionText ++ "\n" }
  | .help => { status := 0, output := helpText }
  | .run file options => answerFile options (content file)

end BoundedCheck.CommandLine
