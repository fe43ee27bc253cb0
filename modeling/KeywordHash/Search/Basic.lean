/-!
# Parameters, errors and events

What a search for weights is told and what comes back besides a table. `SearchConfig` has its seed,
how large weights may get, how long it walks before it starts anew, how often it starts anew before
it doubles the weights, and how wide a table may be. `BuildError` says what stands between a
vocabulary and its table: two words that no association tells apart, a given association that sends
two words to one slot, a search that gave up, or an entry that its own table does not find.

What happens on the way and is worth a record is an `Event`: a limit on the weights that was asked
to be larger than it can, each failed attempt, the success, and the table made of it. `Event.record`
writes them down, each under the stage that it belongs to.
-/

namespace KeywordHash

/-- The parameters of a search. -/
structure SearchConfig where
  /-- The seed of the draws. Equal seeds give equal tables. -/
  seed : UInt64 := 0x6d6e656d
  /-- The largest weight of the first round. -/
  maxWeight : UInt16 := 64
  /-- The steps of one attempt. -/
  iterations : Nat := 1000
  /-- The attempts of one round. -/
  restarts : Nat := 32
  /-- The rounds. Each after the first doubles the largest weight. -/
  rounds : Nat := 4
  /-- The most slots a table may have; any number if there is none. -/
  maxSpan : Option Nat := none
deriving DecidableEq, Repr

/-! ## Errors -/

/-- Why a table could not be built, or does not hold what it should. -/
inductive BuildError where
  /-- The words have the same signature, and so the same hash under every association. -/
  | indistinguishable (first second : String)
  /-- The association sends both words to one slot. -/
  | collision (first second : String) (slot : Nat)
  /-- The word is not found through the table it was placed in. -/
  | unreachable (text : String)
  /-- Every attempt of the search failed. -/
  | exhausted (maxWeight attempts : Nat)
deriving DecidableEq, Repr

/-- What is reported when there is no table. -/
def BuildError.message : BuildError → String
  | indistinguishable first second =>
    "'" ++ first ++ "' and '" ++ second ++ "' cannot be told apart by length and key positions"
  | collision first second slot =>
    "'" ++ first ++ "' and '" ++ second ++ "' both hash to slot " ++ toString slot
  | unreachable text => "'" ++ text ++ "' is not reachable"
  | exhausted maxWeight attempts =>
    "no perfect hash found after " ++ toString attempts ++ " attempts (weights up to "
      ++ toString maxWeight ++ ")"

/-! ## Records -/

/-- How much a record matters. -/
inductive LogLevel where
  /-- A step of the work. -/
  | trace
  /-- A result. -/
  | debug
  /-- A result that may not be wanted. -/
  | warning
deriving DecidableEq, Repr

/-- The name of a level. -/
def LogLevel.name : LogLevel → String
  | trace => "TRACE"
  | debug => "DEBUG"
  | warning => "WARNING"

/-- A report with its values. -/
structure LogRecord where
  /-- The level. -/
  level : LogLevel
  /-- The message. -/
  message : String
  /-- The values, by name. -/
  fields : List (String × String)
deriving DecidableEq, Repr

/-! ## Events -/

namespace Search

/-- Something that a search reports. -/
inductive Event where
  /-- The weights were to go past their limit. -/
  | capped (requested limit : Nat)
  /-- An attempt found no table. -/
  | stalled (round restart : Nat)
  /-- An attempt found a table with more slots than allowed. -/
  | tooWide (round restart slots : Nat)
  /-- An attempt found a table. -/
  | found (round restart steps maxWeight : Nat)
  /-- The entries are in their slots. -/
  | generated (keywords maxHashValue : Nat)
  /-- The table has many slots for its entries. -/
  | sparse (keywords slots : Nat)
deriving DecidableEq, Repr

/-- A record of the generation stage. -/
def Event.ofStage (level : LogLevel) (message : String) (values : List (String × Nat)) :
    LogRecord where
  level := level
  message := message
  fields := (values.map fun p => (p.1, toString p.2)) ++ [("stage", "generation")]

/-- The record of an event. -/
def Event.record : Event → LogRecord
  | capped requested limit =>
    ofStage .debug "capping max_weight" [("requested", requested), ("limit", limit)]
  | stalled round restart =>
    ofStage .trace "restart" [("round", round), ("restart", restart)]
  | tooWide round restart slots =>
    ofStage .trace "table too wide" [("round", round), ("restart", restart), ("slots", slots)]
  | found round restart steps maxWeight =>
    ofStage .debug "found association table"
      [("round", round), ("restart", restart), ("steps", steps), ("max_weight", maxWeight)]
  | generated keywords maxHashValue =>
    ofStage .debug "generated table" [("keywords", keywords), ("max_hash_value", maxHashValue)]
  | sparse keywords slots =>
    ofStage .warning "sparse table, consider a different seed or max_span"
      [("keywords", keywords), ("slots", slots)]

end Search

end KeywordHash
