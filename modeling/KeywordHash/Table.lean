import KeywordHash.Search.Rounds
import KeywordHash.Vocabulary

/-!
# Keyword tables

A table holds each entry of a vocabulary in the slot that an association hashes its text to, no two
in the same slot. `placeM` builds it or names the first two entries that meet. A lookup (`get?`)
hashes the word, looks into that one slot and compares the text it finds there; words that are too
short, too long or hash past the last slot are refused before that (`probe?`).

From a vocabulary and search parameters to a table: two entries that no association tells apart are
refused, then weights are searched for and the entries placed. The events of the search come with
the result, whether it is a table or an error. The draws come from any source (`generateFrom`);
`generate` takes the keystream of the seed, and `build` the default parameters. Placement and
generation are written over any monad with checks; `place` and `generateFrom` are without.
-/

namespace KeywordHash

/-- Entries in the slots that an association sends them to, with the figures of the vocabulary. -/
structure Table (C : Type) where
  /-- The association that hashes words to slots. -/
  association : Association
  /-- The slots. -/
  slots : Array (Option (Entry C))
  /-- The bytes of the shortest text. -/
  minWordLength : Nat
  /-- The bytes of the longest text. -/
  maxWordLength : Nat
  /-- The first occupied slot. -/
  minHashValue : Nat
  /-- The number of entries. -/
  totalKeywords : Nat
deriving DecidableEq

/-- The figures of a table. -/
structure TableStats where
  /-- The number of entries. -/
  totalKeywords : Nat
  /-- The bytes of the shortest text. -/
  minWordLength : Nat
  /-- The bytes of the longest text. -/
  maxWordLength : Nat
  /-- The first occupied slot. -/
  minHashValue : Nat
  /-- The last occupied slot. -/
  maxHashValue : Nat
deriving DecidableEq, Repr

namespace TableStats

/-- The number of slots from the first occupied one to the last. -/
def keyRange (stats : TableStats) : Nat := stats.maxHashValue - stats.minHashValue + 1

/-- The key range in words; the placement has ruled duplicates out. -/
def rangeText (stats : TableStats) : String :=
  "maximum key range = " ++ toString stats.keyRange ++ ", duplicates = 0"

/-- The figures, one to a line, the key range last and without a newline. -/
def render (stats : TableStats) : String :=
  "TOTAL_KEYWORDS  " ++ toString stats.totalKeywords
    ++ "\nMIN_WORD_LENGTH " ++ toString stats.minWordLength
    ++ "\nMAX_WORD_LENGTH " ++ toString stats.maxWordLength
    ++ "\nMIN_HASH_VALUE  " ++ toString stats.minHashValue
    ++ "\nMAX_HASH_VALUE  " ++ toString stats.maxHashValue
    ++ "\n" ++ stats.rangeText

end TableStats

namespace Table

variable {C : Type} {m : Type → Type} [Monad m] [Checks m]

/-! ## Placement -/

/-- Puts entries into the slots of their hashes, in turn; fails at the first whose slot is
occupied. -/
@[specialize]
def fillM (a : Association) :
    List (Entry C) → Array (Option (Entry C)) → m (Except BuildError (Array (Option (Entry C))))
  | [], slots => return .ok slots
  | e :: rest, slots => do
    let slot ← a.hashM e.word
    -- Whatever holds the slot comes earlier in the vocabulary.
    match ← Checks.slot slots slot with
    | some other => return .error (.collision other.text e.text slot)
    | none => fillM a rest (← Checks.put slots slot (some e))

/-- The smallest hash of the entries of a vocabulary. -/
def smallestHash [Code C] (v : Vocabulary C) (a : Association) : Nat :=
  (v.entries.map fun e => a.hash e.word).min?.getD 0

/-- The largest hash of the entries of a vocabulary. -/
def largestHash [Code C] (v : Vocabulary C) (a : Association) : Nat :=
  (v.entries.map fun e => a.hash e.word).max?.getD 0

/-- The table with every entry of a vocabulary in the slot that `a` hashes its text to. -/
@[specialize]
def placeM [Code C] (v : Vocabulary C) (a : Association) : m (Except BuildError (Table C)) := do
  -- There are slots up to the largest hash, so the last one is occupied.
  match ← fillM a v.entries (Array.replicate (largestHash v a + 1) none) with
  | .error error => return .error error
  | .ok slots => return .ok {
      association := a
      slots := slots
      minWordLength := v.minLength
      maxWordLength := v.maxLength
      minHashValue := smallestHash v a
      totalKeywords := v.size }

/-- Puts entries into the slots of their hashes, without checks. -/
def fill (a : Association) (entries : List (Entry C)) (slots : Array (Option (Entry C))) :
    Except BuildError (Array (Option (Entry C))) :=
  Id.run (fillM a entries slots)

/-- The program in `Id` is `fill`. -/
@[simp]
theorem run_fillM (a : Association) (entries : List (Entry C)) (slots : Array (Option (Entry C))) :
    Id.run (fillM a entries slots) = fill a entries slots := rfl

/-- The table with every entry of a vocabulary in the slot that `a` hashes its text to. -/
def place [Code C] (v : Vocabulary C) (a : Association) : Except BuildError (Table C) :=
  Id.run (placeM v a)

/-! ## Lookup -/

/-- The hash of a word under the association of the table. -/
def hash (t : Table C) (word : Word) : Nat := t.association.hash word

/-- The last slot. -/
def maxHashValue (t : Table C) : Nat := t.slots.size - 1

/-- What a slot holds; nothing in an empty slot and past the last. -/
def slot? (t : Table C) (i : Nat) : Option (Entry C) := t.slots[i]?.join

/-- The slot that the lookup of a word looks into, if it is not refused before. -/
def probe? (t : Table C) (word : Word) : Option Nat :=
  -- No text of the table has another length, and none hashes past the last slot.
  if word.length < t.minWordLength ∨ t.maxWordLength < word.length then none
  else if t.maxHashValue < t.hash word then none
  else some (t.hash word)

/-- The entry whose text has exactly the given bytes. -/
def get? (t : Table C) (word : Word) : Option (Entry C) :=
  match t.probe? word with
  | none => none
  -- Words outside the vocabulary can still hash to an occupied slot.
  | some i => (t.slot? i).filter fun e => e.word = word

/-- The code of a word, the invalid one for a word that is not in the table. -/
def lookup [Code C] (t : Table C) (word : Word) : C :=
  match t.get? word with
  | some e => e.code
  | none => Code.invalid

/-- The occupied slots with their entries, in increasing order. -/
def placed (t : Table C) : List (Nat × Entry C) :=
  t.slots.toList.zipIdx.filterMap fun p => p.1.map fun e => (p.2, e)

/-- Whether each placed entry is found again: the lookup of its text gives its code, and its text
hashes to its slot. The first that is not found is the error. -/
def verify [DecidableEq C] (t : Table C) : Except BuildError Unit :=
  match t.placed.find? fun p =>
      (t.get? p.2.word).map Entry.code ≠ some p.2.code || t.hash p.2.word ≠ p.1 with
  | some p => .error (.unreachable p.2.text)
  | none => .ok ()

/-- The first entry of a vocabulary whose text the table does not look up to its code. -/
def unresolved? [DecidableEq C] [Code C] (t : Table C) (v : Vocabulary C) : Option (Entry C) :=
  v.entries.find? fun e => t.lookup e.word ≠ e.code

/-- The figures of the table. -/
def stats (t : Table C) : TableStats where
  totalKeywords := t.totalKeywords
  minWordLength := t.minWordLength
  maxWordLength := t.maxWordLength
  minHashValue := t.minHashValue
  maxHashValue := t.maxHashValue

/-! ## Generation -/

open Search

/-- The first two entries with equal signatures: the later one is the first entry that has an
earlier companion. The list `seen` holds the entries before, with their signatures. -/
def twins? : List (Signature × Entry C) → List (Entry C) → Option (Entry C × Entry C)
  | _, [] => none
  | seen, e :: rest =>
    -- Signatures seen so far are all different, so at most one matches.
    let signature := Signature.ofWord e.word
    match seen.find? fun p => p.1 = signature with
    | some p => some (p.2, e)
    | none => twins? ((signature, e) :: seen) rest

variable [Code C]

/-- A table with this many slots for an entry, or more, is sparse. -/
def sparseFactor : Nat := 4

/-- The events of a finished table. -/
def closing (t : Table C) : List Event :=
  .generated t.totalKeywords t.maxHashValue ::
    if sparseFactor * t.totalKeywords ≤ t.maxHashValue then
      [.sparse t.totalKeywords (t.maxHashValue + 1)]
    else []

/-- The table of a vocabulary, with draws from a given source. -/
@[specialize]
def generateFromM {σ : Type} [Source σ] (config : SearchConfig) (v : Vocabulary C) (s : σ) :
    m (Except BuildError (Table C) × List Event) :=
  match twins? [] v.entries with
  | some (first, second) => return (.error (.indistinguishable first.text second.text), [])
  | none => do
    match ← runM config (v.entries.map fun e => Key.ofWord e.word) s with
    | (.error error, events) => return (.error error, events)
    | (.ok a, events) =>
      -- The weights were searched by key; placing hashes the texts again.
      match ← placeM v a with
      | .error error => return (.error error, events)
      | .ok t =>
        -- The last slot is one below their number.
        Checks.check (1 ≤ t.slots.size)
        return (.ok t, events ++ closing t)

/-- The table of a vocabulary, with draws from a given source, without checks. -/
def generateFrom {σ : Type} [Source σ] (config : SearchConfig) (v : Vocabulary C) (s : σ) :
    Except BuildError (Table C) × List Event :=
  Id.run (generateFromM config v s)

/-- The table of a vocabulary, with draws from the keystream of the seed. -/
def generate (config : SearchConfig) (v : Vocabulary C) :
    Except BuildError (Table C) × List Event :=
  generateFrom config v (Keystream.ofSeed config.seed)

/-- The table of a vocabulary under the default parameters. -/
def build (v : Vocabulary C) : Except BuildError (Table C) := (generate {} v).1

end Table

end KeywordHash
