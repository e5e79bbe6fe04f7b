import ArrayEquations.CommandLine

/-!
# ArrayEquations — the program

The command line program on the files of the system.
-/

namespace ArrayEquations

/-- The file error that a system's error number stands for; some numbers come negated. -/
def fileError? (number : UInt32) : Option CommandLine.FileError :=
  match min number.toNat (UInt32.size - number.toNat) with
  | 2 => some .notFound
  | 20 => some .notDirectory
  | 21 => some .isDirectory
  | 36 => some .nameTooLong
  | _ => none

/-- The text of a failed access to a file. -/
def accessFailure (e : IO.Error) : String :=
  match e with
  | .noFileOrDirectory _ number details | .inappropriateType _ number details
  | .invalidArgument _ number details => ((fileError? number).map (·.message)).getD details
  | e => toString e

/-- Access to the files of the system. -/
def systemFiles : CommandLine.FileAccess IO where
  read path := do
    try return .ok (← IO.FS.readFile path)
    catch e => return .error (accessFailure e)
  write path content := do
    try
      IO.FS.writeFile path content
      return .ok ()
    catch e => return .error (accessFailure e)

end ArrayEquations

/-- Runs the program with its arguments. -/
def main (arguments : List String) : IO UInt32 := do
  let outcome ← ArrayEquations.CommandLine.run ArrayEquations.systemFiles arguments
  outcome.reports.forM fun report => IO.eprintln report
  IO.print outcome.output
  return UInt32.ofNat outcome.status
