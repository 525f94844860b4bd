/-
# The program

Reads the files that the command line names, and prints what `CommandLine.run` gives for them.
-/
import TemplateMarkup.CommandLine

namespace TemplateMarkup

/-- The bytes of a file, or the reason why there are none. -/
def readPath (path : String) : IO Contents := do
  try
    return .ok (← IO.FS.readBinFile path)
  catch e =>
    match e with
    | .noFileOrDirectory _ code details => return .error (.system details code.toNat)
    | .permissionDenied _ code details => return .error (.system details code.toNat)
    | .inappropriateType _ code details => return .error (.system details code.toNat)
    | e => return .error (.system (toString e) 0)

/-- Everything that stands on standard input. -/
def readInput : IO Contents := do
  try
    return .ok (← (← IO.getStdin).readToEnd).toUTF8
  catch _ =>
    return .error .notUtf8

end TemplateMarkup

open TemplateMarkup in
/-- Runs the program. -/
def main (args : List String) : IO UInt32 := do
  match Options.parse args with
  | .error message =>
    IO.eprintln ("error: " ++ message)
    return 2
  | .ok options =>
    let files ← CommandLine.contentsOf readPath readInput options.paths
    let printed := CommandLine.run options files
    IO.print (String.ofList printed.out)
    IO.eprint (String.ofList printed.err)
    return printed.exitCode.toUInt32
