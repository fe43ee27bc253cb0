import KeywordHash.Cli.Arguments
import KeywordHash.Definition
import KeywordHash.Listing
import KeywordHash.Mnemonic

/-!
# Commands

What the commands of the command line do, given the file that they ask for: what they print, what
they report as an error, and the records of their search. A command that fails at its work still
ends with status zero; only arguments out of order give status one.
-/

namespace KeywordHash.Cli

/-! ## Files -/

/-- Why the text of a file cannot be had. -/
inductive FileError where
  /-- There is no such file. -/
  | missing
  /-- The path names a directory. -/
  | directory
  /-- The bytes of the file are no UTF-8 text. -/
  | notText
  /-- Something else, in the words of the system. -/
  | other (text : String)
deriving DecidableEq, Repr

/-- What is reported of a file that cannot be read. -/
def FileError.message : FileError → String
  | missing => "No such file or directory (os error 2)"
  | directory => "Is a directory (os error 21)"
  | notText => "stream did not contain valid UTF-8"
  | other text => text

/-- The text that bytes of a file are. -/
def textOfFile (bytes : Word) : Except FileError String :=
  match String.fromUTF8? bytes.toByteArray with
  | some text => .ok text
  | none => .error .notText

/-- How a command gets at the bytes of a file. -/
abbrev Reader := String → Except FileError Word

/-! ## Commands -/

/-- What stops a command at its work. -/
inductive Failure where
  /-- The value of an option is no number in its range. -/
  | argument (value : String) (option : ValueOption)
  /-- The definition file at a path has an error. -/
  | parse (path : String) (error : Definition.LocatedError)
  /-- There is no table. -/
  | build (error : BuildError)
  /-- The definition file cannot be read. -/
  | file (error : FileError)

/-- What is reported of a failure. -/
def Failure.message : Failure → String
  | argument value option =>
    "Argument error: invalid value '" ++ value ++ "' for --" ++ option.name
  | parse path error => "Parse error: " ++ path ++ ": " ++ error.message
  | build error => "Generation error: " ++ error.message
  | file error => "IO error: " ++ error.message

/-- What a run of the program leaves behind. -/
structure Outcome where
  /-- The exit status. -/
  status : Nat
  /-- What is printed. -/
  output : String
  /-- What is reported as an error. -/
  errors : String
  /-- The records of the search, if they were asked for. -/
  log : List LogRecord
deriving DecidableEq, Repr

/-- The line for one word: its number, or that it is invalid and what it may have been meant for. -/
def resolveLine (word : String) : String :=
  match Mnemonic.resolveText word with
  | .invalid =>
    match Mnemonic.suggest? word with
    | some m => word ++ "\tinvalid (did you mean '" ++ m.text ++ "'?)\n"
    | none => word ++ "\tinvalid\n"
  | m => word ++ "\t" ++ toString m.number ++ "\n"

/-- The vocabulary of a definition file, or the builtin one if no file is named. -/
def loadVocabulary (read : Reader) (definition? : Option String) :
    Except Failure (Vocabulary Mnemonic) :=
  match definition? with
  | none => .ok Vocabulary.builtin
  | some path => do
    let bytes ← (read path).mapError .file
    let source ← (textOfFile bytes).mapError .file
    (Definition.parse source).mapError fun e => .parse path (e.locate source.toList)

/-- The number that an option gives, up to `max`. -/
def readNumber (option : ValueOption) (max : Nat) (value? : Option String) :
    Except Failure (Option Nat) :=
  match value? with
  | none => .ok none
  | some value =>
    match Number.readNat? max value with
    | some n => .ok (some n)
    | none => .error (.argument value option)

/-- The parameters of the search that `table` is asked for. -/
def searchConfig (seed? maxWeight? maxSpan? : Option String) : Except Failure SearchConfig := do
  -- The first option out of range is the one reported.
  let seed ← readNumber .seed (UInt64.size - 1) seed?
  let maxWeight ← readNumber .maxWeight (UInt16.size - 1) maxWeight?
  let maxSpan ← readNumber .maxSpan (UInt64.size - 1) maxSpan?
  let standard : SearchConfig := {}
  return { standard with
    seed := (seed.map UInt64.ofNat).getD standard.seed
    maxWeight := (maxWeight.map UInt16.ofNat).getD standard.maxWeight
    maxSpan := maxSpan }

/-- The records of a search with its result, the result as a failure or not. -/
def withLog {α : Type} (p : Except BuildError α × List Search.Event) :
    Except Failure α × List LogRecord :=
  (p.1.mapError .build, p.2.map Search.Event.record)

/-- Generates a table and shows it. -/
def runTable (config : SearchConfig) (v : Vocabulary Mnemonic) (asSource : Bool) :
    Except Failure String × List LogRecord :=
  let (result, log) := withLog (Table.generate config v)
  let shown := result.map fun t =>
    if asSource then Listing.source t "Mnemonic" else t.stats.render ++ "\n"
  (shown, log)

/-- Checks that a table holds what it should. -/
def checkTable (t : Table Mnemonic) (v : Vocabulary Mnemonic) : Except BuildError String := do
  t.verify
  match t.unresolved? v with
  | some e => .error (.unreachable e.text)
  | none =>
    return "ok: " ++ toString t.totalKeywords ++ " keywords in " ++ toString (t.maxHashValue + 1)
      ++ " slots\n"

/-- Generates a table and checks it. -/
def runCheck (v : Vocabulary Mnemonic) : Except Failure String × List LogRecord :=
  let (result, log) := withLog (Table.generate {} v)
  (result.bind fun t => (checkTable t v).mapError .build, log)

/-- Carries out a command. -/
def Command.run (read : Reader) : Command → Except Failure String × List LogRecord
  | .resolve words => (.ok (String.join (words.map resolveLine)), [])
  | .table definition? seed? maxWeight? maxSpan? asSource =>
    -- The vocabulary comes first: its errors hide those of the other options.
    match loadVocabulary read definition? with
    | .error failure => (.error failure, [])
    | .ok v =>
      match searchConfig seed? maxWeight? maxSpan? with
      | .error failure => (.error failure, [])
      | .ok config => runTable config v asSource
  | .check definition? =>
    match loadVocabulary read definition? with
    | .error failure => (.error failure, [])
    | .ok v => runCheck v

/-- Carries out an invocation. -/
def Invocation.run (read : Reader) (invocation : Invocation) : Outcome :=
  let (result, log) := invocation.command.run read
  let log := if invocation.verbose then log else []
  match result with
  | .ok output => ⟨0, output, "", log⟩
  | .error failure => ⟨0, "", failure.message ++ "\n", log⟩

/-- The name and the version of the program; its commands have a name only. -/
def versionText : Option String → String
  | none => "mnemonic 0.1.0"
  | some command => "mnemonic-" ++ command ++ " "

/-- Carries out what the arguments of the program spell. A call for help succeeds and prints
nothing. -/
def run (read : Reader) (args : List String) : Outcome :=
  match parseArguments args with
  | .ok invocation => invocation.run read
  | .error .help => ⟨0, "", "", []⟩
  | .error (.version command?) => ⟨0, versionText command? ++ "\n", "", []⟩
  | .error .usage => ⟨1, "", "", []⟩

end KeywordHash.Cli
