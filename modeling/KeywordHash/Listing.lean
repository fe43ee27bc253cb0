import KeywordHash.Table

/-!
# Listings of a table

A table is listed as Rust source, so that it can be compiled in without a search: its figures as
constants, the weights in rows of ten, and the slots in order, each empty or with a text and the path
of its code. The listing is made of lines; `source` is their text, every line ended by a newline.

Where room is short a listing is written line by line into a `Sink`, which takes bytes up to its
capacity. A chunk that does not fit whole is taken as far as it goes and ends the writing.

A program that has a listing compiled in makes the association from its weights.
`readAssociation?` reads them off the text: find the name of their array, take what stands between
the brackets that follow, split it at the commas and read each piece that is not blank as a number.
-/

namespace KeywordHash

namespace Listing

/-- The number of weights in a row. -/
def rowLength : Nat := 10

/-- Cuts a list into rows of `n + 1` elements, the last as long as it comes out. -/
def rows {α : Type} (n : Nat) (list : List α) : List (List α) :=
  match list with
  | [] => []
  | x :: rest => (x :: rest.take n) :: rows n (rest.drop n)
termination_by list.length
decreasing_by
  simp only [List.length_drop, List.length_cons]
  omega

/-- The line of a row of weights. -/
def rowLine (row : List UInt16) : String :=
  "    " ++ String.intercalate ", " (row.map toString) ++ ","

/-- The lines of the figures. -/
def figureLines (stats : TableStats) : List String :=
  [ "pub const TOTAL_KEYWORDS: usize = " ++ toString stats.totalKeywords ++ ";",
    "pub const MIN_WORD_LENGTH: usize = " ++ toString stats.minWordLength ++ ";",
    "pub const MAX_WORD_LENGTH: usize = " ++ toString stats.maxWordLength ++ ";",
    "pub const MIN_HASH_VALUE: usize = " ++ toString stats.minHashValue ++ ";",
    "pub const MAX_HASH_VALUE: usize = " ++ toString stats.maxHashValue ++ ";" ]

/-- The lines of the weights. -/
def weightLines (a : Association) : List String :=
  ("pub static ASSOCIATION_VALUES: [u16; " ++ toString a.weights.size ++ "] = [")
    :: (rows (rowLength - 1) a.weights.toList).map rowLine ++ ["];"]

variable {C : Type} [Code C]

/-- The line of a slot. -/
def slotLine (codePath : String) : Option (Entry C) → String
  | some e =>
    "    Some((" ++ EscapeStyle.quoted e.text ++ ", " ++ codePath ++ "::" ++ Code.name e.code ++ ")),"
  | none => "    None,"

/-- The lines of the slots. -/
def slotLines (codePath : String) (slots : List (Option (Entry C))) : List String :=
  ("pub static WORDLIST: [Option<(&str, " ++ codePath ++ ")>; " ++ toString slots.length ++ "] = [")
    :: slots.map (slotLine codePath) ++ ["];"]

/-- The lines of a table, with `codePath` in front of every code. -/
def lines (t : Table C) (codePath : String) : List String :=
  -- A heading, the figures, the weights and the slots, with an empty line between.
  [ "// Generated by `mnemonic table --rust`.", "// " ++ t.stats.rangeText, "" ]
    ++ figureLines t.stats ++ [""]
    ++ weightLines t.association ++ [""]
    ++ slotLines codePath t.slots.toList

/-- The text of a table. -/
def source (t : Table C) (codePath : String) : String :=
  String.join ((lines t codePath).map (· ++ "\n"))

end Listing

/-! ## Sinks -/

/-- A place for a limited number of bytes. -/
structure Sink where
  /-- The most bytes it takes. -/
  capacity : Nat
  /-- The bytes taken. -/
  written : Array UInt8
deriving DecidableEq

namespace Sink

/-- A sink that has taken nothing yet. -/
def ofCapacity (capacity : Nat) : Sink := ⟨capacity, #[]⟩

/-- Takes what fits of a chunk; the flag says whether all of it did. -/
def write (s : Sink) (chunk : Word) : Bool × Sink :=
  let room := s.capacity - s.written.size
  (decide (chunk.length ≤ room), ⟨s.capacity, s.written ++ chunk.take room⟩)

/-- Takes chunks in turn up to the first that does not fit; the flag says whether all did. -/
def writeAll : List Word → Sink → Bool × Sink
  | [], s => (true, s)
  | chunk :: rest, s =>
    match s.write chunk with
    | (true, s) => writeAll rest s
    | (false, s) => (false, s)

end Sink

/-- Writes the listing of a table into a sink; the flag says whether it fits. -/
def Listing.writeTo {C : Type} [Code C] (sink : Sink) (t : Table C) (codePath : String) :
    Bool × Sink :=
  Sink.writeAll ((Listing.lines t codePath).map fun line => Word.ofText (line ++ "\n")) sink

/-! ## Reading the weights -/

/-- The association with the given weights, if there is one for each index. -/
def Association.ofWeights? (weights : List UInt16) : Option Association :=
  if h : weights.length = associationLength then
    some ⟨⟨weights.toArray, by rw [List.size_toArray, h]⟩⟩
  else none

namespace Listing

/-- The name of the array of weights. -/
def weightsName : List Char := "ASSOCIATION_VALUES".toList

/-- The pieces of a text between commas, trimmed, without the blank ones. -/
def pieces (text : List Char) : List (List Char) :=
  ((text.splitOn ',').map trim).filter fun piece => !piece.isEmpty

/-- The weight that a piece is the decimal form of. -/
def readWeight? (piece : List Char) : Option UInt16 :=
  (Number.readNat? (UInt16.size - 1) (String.ofList piece)).map UInt16.ofNat

/-- The weights that a listing gives. -/
def readWeights? (source : String) : Option (List UInt16) := do
  let (_, afterName) ← cut? weightsName source.toList
  -- The opening is looked for from the name on.
  let (_, afterOpening) ← cut? "= [".toList (weightsName ++ afterName)
  let (inside, _) ← cut? "];".toList afterOpening
  (pieces inside).mapM readWeight?

/-- The association that a listing gives. -/
def readAssociation? (source : String) : Option Association :=
  (readWeights? source).bind Association.ofWeights?

end Listing

end KeywordHash
