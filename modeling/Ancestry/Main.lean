import Ancestry.Command.Run

/-!
# The program

Reads the files that the command line names, runs the command and writes what it leaves behind.
-/

open Ancestry Ancestry.Command

/-- The number by which the system says that a name is too long. -/
def nameTooLongCode : UInt32 := 36

/-- What stands at a path.  What cannot be read as a file is not there. -/
def readPath (path : String) : IO File := do
  try return .regular (← IO.FS.readBinFile path)
  catch
    | .invalidArgument _ code _ =>
      return if code = nameTooLongCode then .nameTooLong else .missing
    | _ => return .missing

/-- Runs the command line. -/
def main (args : List String) : IO UInt32 := do
  let paths := match Invocation.read args with
    | .ok invocation => invocation.paths
    | .error _ => []
  let files ← paths.mapM fun path => do return (path, ← readPath path)
  let output := run .ascending args fun path => (files.lookup path).getD .missing
  IO.print output.out
  IO.eprint output.err
  return output.exitCode.toUInt32
