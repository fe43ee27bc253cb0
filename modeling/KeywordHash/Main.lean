import KeywordHash.Cli.Run

/-!
# The program

Hands the arguments to the command line, reads the definition file that a command asks for and
prints what comes back. All decisions are made in `Cli.run`.
-/

namespace KeywordHash.Cli

/-- The definition file that a command asks for. -/
def Command.definition? : Command → Option String
  | .resolve _ => none
  | .table definition? .. => definition?
  | .check definition? => definition?

/-- Why the system could not read a file. -/
def FileError.ofSystem : IO.Error → FileError
  | .noFileOrDirectory .. => .missing
  | .inappropriateType .. => .directory
  | .invalidArgument _ code details => .other (details ++ " (os error " ++ toString code ++ ")")
  | e => .other (toString e)

/-- Reads the bytes of a file. -/
def readFile (path : String) : IO (Except FileError Word) := do
  try
    let bytes ← IO.FS.readBinFile path
    return .ok bytes.data.toList
  catch e => return .error (.ofSystem e)

/-- A record on one line. -/
def recordLine (r : LogRecord) : String :=
  r.level.name ++ " " ++ r.message
    ++ String.join (r.fields.map fun p => ", " ++ p.1 ++ ": " ++ p.2)

/-- Runs the program. -/
def execute (args : List String) : IO UInt32 := do
  let path? := match parseArguments args with
    | .ok invocation => invocation.command.definition?
    | .error _ => none
  let content ← match path? with
    | some path => readFile path
    | none => pure (.error .missing)
  let outcome := run (fun _ => content) args
  for r in outcome.log do
    IO.eprintln (recordLine r)
  IO.print outcome.output
  IO.eprint outcome.errors
  return UInt32.ofNat outcome.status

end KeywordHash.Cli

/-- Runs the command line. -/
def main (args : List String) : IO UInt32 := KeywordHash.Cli.execute args
