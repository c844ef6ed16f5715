import BoundedCheck.CommandLine

/-!
# The program

Reads the file that the arguments name and prints the report.
-/

namespace BoundedCheck.CommandLine

/-- The contents of a file, if it can be read. -/
def readContent (file : String) : IO (Option ByteArray) := do
  try
    return some (← IO.FS.readBinFile file)
  catch _ =>
    return none

/-- The contents of the only file that an invocation needs. -/
def contentFor (invocation : Invocation) : IO (Option ByteArray) :=
  match invocation with
  | .run file _ => readContent file
  | _ => return none

/-- Answers a list of arguments, spelled in some way, and gives the exit status. -/
def run (parse : List String → Invocation) (arguments : List String) : IO UInt32 := do
  let invocation := parse arguments
  let content ← contentFor invocation
  let report := respond invocation fun _ => content
  unless report.complaint.isEmpty do
    IO.eprintln report.complaint
  IO.print report.output
  return report.status.toUInt32

end BoundedCheck.CommandLine

def main (arguments : List String) : IO UInt32 :=
  BoundedCheck.CommandLine.run BoundedCheck.CommandLine.parse arguments
