import TwistLogic.CommandLine.Run

/-!
# The program

Hands the arguments and the file that they name to `CommandLine.execute` and prints the outcome.  No
solver is called, so the certificates of this process are undecided, and it has no tests.
-/

namespace TwistLogic

/-- The contents of a file, if it can be read.  A directory can be opened and has none. -/
def readContents (path : Text) : IO (Option Text) := do
  match String.fromUTF8? ⟨path.toArray⟩ with
  | none => return none
  | some name =>
    try
      return some (← IO.FS.readBinFile name).toList
    catch
      | .inappropriateType .. => return some []
      | _ => return none

/-- Writes a text to an output. -/
def writeText (out : IO.FS.Stream) (t : Text) : IO Unit := do
  out.write ⟨t.toArray⟩
  out.flush

end TwistLogic

open TwistLogic

/-- Where the process runs: there is room for tables of eight billion cells. -/
def surroundings : CommandLine.Surroundings := .bare (2 * UInt32.size)

/-- Runs the command line of the process. -/
def main (args : List String) : IO UInt32 := do
  let args := args.map fun a => a.toUTF8.toList
  let file := CommandLine.fileRead? args
  let content ← match file with
    | some path => readContents path
    | none => pure none
  let files : CommandLine.Files := fun path => if some path = file then content else none
  let outcome := CommandLine.execute surroundings args files
  writeText (← IO.getStdout) outcome.stdout
  writeText (← IO.getStderr) outcome.stderr
  return UInt32.ofNat outcome.exitCode
