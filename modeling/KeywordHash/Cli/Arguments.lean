/-!
# Command line arguments

The command line names one of three commands with its options: `resolve` with the words to resolve,
`table` and `check` with a definition file, `table` also with search parameters. Options are written
`--name value`, `--name=value`, `-d value` or `-dvalue`; flags may be joined behind one dash. The
value of an option cannot start with a dash unless it is joined to it. Everything after `--` is a
word. Each option must have a value, and no flag or option may be given twice to one command; help
and the version are shown all the same, since that is found out only when all arguments are read.
-/

namespace KeywordHash.Cli

/-- An option, which takes a value. -/
inductive ValueOption where
  /-- The definition file. -/
  | definition
  /-- The seed of the search. -/
  | seed
  /-- The largest weight of the first round. -/
  | maxWeight
  /-- The most slots. -/
  | maxSpan
deriving DecidableEq, Repr

/-- The name of an option. -/
def ValueOption.name : ValueOption → String
  | definition => "definition"
  | seed => "seed"
  | maxWeight => "max-weight"
  | maxSpan => "max-span"

/-- A flag, which takes none. -/
inductive Flag where
  /-- Report the search. -/
  | verbose
  /-- List the table as source text. -/
  | source
  /-- Show how to use the command. -/
  | help
  /-- Show the version. -/
  | version
deriving DecidableEq, Repr

/-- The name of a flag. -/
def Flag.name : Flag → String
  | verbose => "verbose"
  | source => "rust"
  | help => "help"
  | version => "version"

/-- Why there is no command to carry out. -/
inductive Stop where
  /-- Help is asked for. -/
  | help
  /-- The version of the program, or of one of its commands, is asked for. -/
  | version (command? : Option String)
  /-- The arguments are not in order. -/
  | usage
deriving DecidableEq, Repr

/-- What may follow the name of a command. -/
structure Form where
  /-- The name of the command; none for the program itself. -/
  command? : Option String
  /-- The options. -/
  options : List ValueOption
  /-- The flags. -/
  flags : List Flag
  /-- Whether words may follow. -/
  words : Bool

/-- The flags that every command understands. -/
def commonFlags : List Flag := [.verbose, .help, .version]

/-- What may follow `resolve`. -/
def Form.resolve : Form := ⟨some "resolve", [], commonFlags, true⟩

/-- What may follow `table`. -/
def Form.table : Form :=
  ⟨some "table", [.definition, .seed, .maxWeight, .maxSpan], .source :: commonFlags, false⟩

/-- What may follow `check`. -/
def Form.check : Form := ⟨some "check", [.definition], commonFlags, false⟩

/-- What may precede the name of a command. -/
def Form.leading : Form := ⟨none, [], commonFlags, false⟩

/-- The letter of an option. -/
def ValueOption.letter? : ValueOption → Option Char
  | definition => some 'd'
  | _ => none

/-- The letter of a flag. -/
def Flag.letter? : Flag → Option Char
  | verbose => some 'v'
  | help => some 'h'
  | version => some 'V'
  | source => none

/-- What has been read of the arguments of one command, the last in front. -/
structure Given where
  /-- The flags. -/
  flags : List Flag := []
  /-- The options, with their values if they have one. -/
  options : List (ValueOption × Option String) := []
  /-- The words. -/
  words : List String := []
  /-- The option that waits for its value. -/
  pending : Option ValueOption := none

namespace Given

/-- Takes a flag; asking for help or the version ends the reading. -/
def addFlag (g : Given) (form : Form) : Flag → Except Stop Given
  | .help => .error .help
  | .version => .error (.version form.command?)
  | flag => .ok { g with flags := flag :: g.flags, pending := none }

/-- Takes an option. A value that is joined to it loses its leading equals signs; without one the
option waits for the next argument. -/
def addOption (g : Given) (option : ValueOption) (joined : Option (List Char)) : Given :=
  match joined with
  | some value =>
    let value := String.ofList (value.dropWhile (· = '='))
    { g with options := (option, some value) :: g.options, pending := none }
  | none => { g with options := (option, none) :: g.options, pending := some option }

/-- Gives the waiting option its value. -/
def addValue (g : Given) (value : String) : Given :=
  match g.options with
  | (option, _) :: rest => { g with options := (option, some value) :: rest, pending := none }
  | [] => g

/-- The value of an option. -/
def value? (g : Given) (option : ValueOption) : Option String :=
  (g.options.find? fun p => p.1 = option).bind Prod.snd

/-- Whether no flag and no option was given twice, and every option has a value. -/
def isComplete (g : Given) : Bool :=
  decide g.flags.Nodup && decide (g.options.map Prod.fst).Nodup && g.options.all (·.2.isSome)

end Given

/-- Reads an argument that starts with two dashes, given without any of its leading dashes. -/
def readLong (form : Form) (g : Given) (arg : List Char) : Except Stop Given :=
  let name := String.ofList (arg.takeWhile (· ≠ '='))
  let joined := match arg.dropWhile (· ≠ '=') with
    | _ :: value => some value
    | [] => none
  match form.options.find? fun o => o.name = name with
  | some option => .ok (g.addOption option joined)
  | none =>
    match form.flags.find? fun f => f.name = name with
    -- A value joined to a flag is ignored.
    | some flag => g.addFlag form flag
    | none => .error .usage

/-- Reads the letters behind a single dash. An option takes the letters behind its own as its
value. -/
def readLetters (form : Form) : List Char → Given → Except Stop Given
  | [], g => .ok g
  | c :: rest, g =>
    match form.options.find? fun o => o.letter? = some c with
    | some option => .ok (g.addOption option (if rest.isEmpty then none else some rest))
    | none =>
      match form.flags.find? fun f => f.letter? = some c with
      | some flag => (g.addFlag form flag).bind (readLetters form rest)
      | none => .error .usage

/-- Whether an argument starts with a dash and is not the dash alone. -/
def isDashed (arg : String) : Bool :=
  match arg.toList with
  | '-' :: _ :: _ => true
  | _ => false

/-- Reads an argument with one or more dashes in front. -/
def readDashed (form : Form) (g : Given) (arg : String) : Except Stop Given :=
  let bare := arg.toList.dropWhile (· = '-')
  match arg.toList with
  | '-' :: '-' :: _ => readLong form g bare
  | _ => readLetters form bare g

/-- Reads the arguments of a command. -/
def readGiven (form : Form) : List String → Given → Except Stop Given
  | [], g => .ok g
  | arg :: rest, g =>
    if arg = "--" then
      -- What follows is words, and an option does not get its value from there.
      if !form.words ∧ rest ≠ [] then .error .usage
      else .ok { g with words := rest.reverse ++ g.words }
    else if isDashed arg then
      (readDashed form g arg).bind (readGiven form rest)
    -- A dash alone is a value or a word like any other.
    else if g.pending.isSome then readGiven form rest (g.addValue arg)
    else if form.words then readGiven form rest { g with words := arg :: g.words }
    else .error .usage

/-- A command with its options. -/
inductive Command where
  /-- Resolve words. -/
  | resolve (words : List String)
  /-- Generate a table and show its figures or its source. -/
  | table (definition? seed? maxWeight? maxSpan? : Option String) (asSource : Bool)
  /-- Check that a vocabulary has a table that resolves it. -/
  | check (definition? : Option String)
deriving DecidableEq, Repr

/-- A command, and whether its search is to be reported. -/
structure Invocation where
  /-- Whether the search is to be reported. -/
  verbose : Bool
  /-- The command. -/
  command : Command
deriving DecidableEq, Repr

/-- Reads what follows the name of a command. -/
def readCommand (name : String) (args : List String) : Except Stop (Command × Given) :=
  match name with
  | "resolve" => do
    let g ← readGiven .resolve args {}
    if g.words.isEmpty then .error .usage else return (.resolve g.words.reverse, g)
  | "table" => do
    let g ← readGiven .table args {}
    let command := .table (g.value? .definition) (g.value? .seed) (g.value? .maxWeight)
      (g.value? .maxSpan) (g.flags.contains .source)
    return (command, g)
  | "check" => do
    let g ← readGiven .check args {}
    return (.check (g.value? .definition), g)
  | _ => .error .usage

/-- Reads what follows `help`: at most the name of a command. -/
def readHelp : List String → Stop
  | [] => .help
  | [name] => if ["resolve", "table", "check", "help"].contains name then .help else .usage
  | _ => .usage

/-- Reads the arguments of the program: flags, the name of a command and what follows it. -/
def readArguments : List String → Given → Except Stop Invocation
  | [], _ => .error .usage
  | arg :: rest, g =>
    if arg = "--" then .error .usage
    else if isDashed arg then (readDashed .leading g arg).bind (readArguments rest)
    else if arg = "help" then .error (readHelp rest)
    else do
      let (command, own) ← readCommand arg rest
      -- Flags before the command and flags behind it are counted apart.
      if g.isComplete && own.isComplete then
        return ⟨g.flags.contains .verbose || own.flags.contains .verbose, command⟩
      else .error .usage

/-- The invocation that the arguments of the program spell. -/
def parseArguments (args : List String) : Except Stop Invocation := readArguments args {}

end KeywordHash.Cli
