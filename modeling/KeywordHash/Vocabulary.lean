import KeywordHash.Text.Escape

/-!
# Vocabularies

A vocabulary is a list of entries, each a text and the code it stands for. A type of codes sets one
aside for the words that are not in the vocabulary, and says how a code is written in a listing
(`Code`); definition files name codes by text (`NamedCode`). `IntCode` is the type for vocabularies
whose entries are simply numbered.

`Vocabulary.Valid` says which lists of entries qualify: not empty, texts of 1 to 5 bytes without
NUL, no invalid code, and all texts and all codes different. `fault?` finds the first thing wrong
with a list, entry by entry and then pair by pair; `fault?_eq_none_iff` says that it finds nothing
exactly in the valid lists, and that is how `ofEntries` makes a vocabulary. The order of the entries
is kept.

What someone who wrote an unknown word may have meant is for `suggest?`: the first entry that
differs in the case of ASCII letters only, else the entry at the smallest edit distance, if that is
not too large. Of several at the same distance the first counts.
-/

namespace KeywordHash

/-! ## Codes -/

/-- A type of codes for vocabulary entries. -/
class Code (C : Type) where
  /-- The code of unrecognized words. No entry of a vocabulary has it. -/
  invalid : C
  /-- How a listing writes the code. -/
  name : C → String

/-- Codes that definition files can name. -/
class NamedCode (C : Type) where
  /-- The code with a given name. -/
  ofName? : String → Option C

/-- A code that is a number and nothing else. -/
structure IntCode where
  /-- The number. -/
  value : Int
deriving DecidableEq, Repr

namespace IntCode

instance : Inhabited IntCode := ⟨⟨0⟩⟩

instance : Code IntCode where
  invalid := ⟨0⟩
  name n := "Num(" ++ toString n.value ++ ")"

instance : NamedCode IntCode where
  ofName? name := (Number.readInt? (-2147483648) 2147483647 name).map IntCode.mk

end IntCode

/-! ## Entries -/

/-- A text and the code it stands for. -/
structure Entry (C : Type) where
  /-- The text. -/
  text : String
  /-- Its code. -/
  code : C
deriving DecidableEq, Repr

/-- The bytes of the entry's text, which lookups compare words with. -/
def Entry.word {C : Type} (e : Entry C) : Word := Word.ofText e.text

/-- The fewest bytes of an entry's text. -/
def minTextLength : Nat := 1

/-- The most bytes of an entry's text. -/
def maxTextLength : Nat := 5

/-- Why a list of entries is no vocabulary. -/
inductive VocabularyError where
  /-- There are no entries. -/
  | empty
  /-- The text is too short or too long. -/
  | length (text : String)
  /-- The text contains a NUL. -/
  | containsNul (text : String)
  /-- Two entries have this text. -/
  | duplicateText (text : String)
  /-- The entries with these texts have the same code. -/
  | duplicateCode (first second : String)
  /-- The entry has the code of unrecognized words. -/
  | invalidCode (text : String)
deriving DecidableEq, Repr

/-- What is reported of a list of entries that is no vocabulary. -/
def VocabularyError.message : VocabularyError → String
  | empty => "vocabulary is empty"
  | length text =>
    "'" ++ EscapeStyle.message.escape text ++ "' is " ++ toString (Word.ofText text).length
      ++ " bytes long, expected " ++ toString minTextLength ++ " to " ++ toString maxTextLength
  | containsNul text => "'" ++ EscapeStyle.message.escape text ++ "' contains a NUL byte"
  | duplicateText text => "duplicate entry '" ++ text ++ "'"
  | duplicateCode first second => "'" ++ first ++ "' and '" ++ second ++ "' have the same code"
  | invalidCode text => "'" ++ text ++ "' uses the invalid code"

variable {C : Type}

/-! ## Valid lists -/

/-- What a vocabulary asks of each entry alone. -/
structure Entry.Admissible [Code C] (e : Entry C) : Prop where
  /-- The text is not too short. -/
  minLength : minTextLength ≤ e.word.length
  /-- The text is not too long. -/
  maxLength : e.word.length ≤ maxTextLength
  /-- The text contains no NUL. -/
  noNul : 0 ∉ e.word
  /-- The code is not the one of unrecognized words. -/
  valid : e.code ≠ Code.invalid

/-- What a vocabulary asks of each two entries. -/
def Entry.Distinct (a b : Entry C) : Prop := a.text ≠ b.text ∧ a.code ≠ b.code

/-- The lists of entries that are vocabularies. -/
structure Vocabulary.Valid [Code C] (entries : List (Entry C)) : Prop where
  /-- There is an entry. -/
  nonempty : entries ≠ []
  /-- Each entry is admissible. -/
  admissible : ∀ e ∈ entries, e.Admissible
  /-- Each two entries have different texts and different codes. -/
  distinct : entries.Pairwise Entry.Distinct

/-- A nonempty list of admissible, pairwise distinct entries, in a fixed order. -/
structure Vocabulary (C : Type) [Code C] where
  /-- The entries. -/
  entries : List (Entry C)
  /-- They form a vocabulary. -/
  valid : Vocabulary.Valid entries

/-! ## The check -/

variable [DecidableEq C]

/-- What two entries share, the text before the code. -/
def Entry.clash? (a b : Entry C) : Option VocabularyError :=
  if a.text = b.text then some (.duplicateText a.text)
  else if a.code = b.code then some (.duplicateCode a.text b.text)
  else none

/-- What the first two entries with something in common share: pairs are tried in the order of
their earlier entry, then of their later one. -/
def firstClash? : List (Entry C) → Option VocabularyError
  | [] => none
  | e :: rest => (rest.findSome? e.clash?).or (firstClash? rest)

/-- Two entries do not clash exactly if they are distinct. -/
theorem Entry.clash?_eq_none_iff {a b : Entry C} : a.clash? b = none ↔ a.Distinct b := by
  unfold Entry.clash? Entry.Distinct
  split
  · simp_all
  · split <;> simp_all

/-- There is no first clash exactly if all entries are pairwise distinct. -/
theorem firstClash?_eq_none_iff {entries : List (Entry C)} :
    firstClash? entries = none ↔ entries.Pairwise Entry.Distinct := by
  induction entries with
  | nil => simp [firstClash?]
  | cons e rest ih =>
    simp [firstClash?, List.findSome?_eq_none_iff, Entry.clash?_eq_none_iff, ih]

variable [Code C]

/-- The first thing that is wrong with an entry alone. -/
def Entry.fault? (e : Entry C) : Option VocabularyError :=
  if e.word.length < minTextLength ∨ maxTextLength < e.word.length then some (.length e.text)
  else if 0 ∈ e.word then some (.containsNul e.text)
  else if e.code = Code.invalid then some (.invalidCode e.text)
  else none

/-- Why a list of entries is no vocabulary; `none` if it is one. -/
def Vocabulary.fault? (entries : List (Entry C)) : Option VocabularyError :=
  if entries.isEmpty then some .empty
  else (entries.findSome? Entry.fault?).or (firstClash? entries)

/-- An entry has no fault exactly if it is admissible. -/
theorem Entry.fault?_eq_none_iff {e : Entry C} : e.fault? = none ↔ e.Admissible := by
  unfold Entry.fault?
  constructor
  · intro h
    split at h
    · contradiction
    · split at h
      · contradiction
      · split at h
        · contradiction
        · exact ⟨by omega, by omega, by assumption, by assumption⟩
  · rintro ⟨hmin, hmax, hnul, hcode⟩
    rw [if_neg (by omega), if_neg hnul, if_neg hcode]

/-- The check finds nothing wrong exactly with the valid lists. -/
theorem Vocabulary.fault?_eq_none_iff {entries : List (Entry C)} :
    Vocabulary.fault? entries = none ↔ Vocabulary.Valid entries := by
  unfold Vocabulary.fault?
  split
  · next h =>
    constructor
    · intro h'
      contradiction
    · intro valid
      exact absurd (List.isEmpty_iff.1 h) valid.nonempty
  · next h =>
    rw [Option.or_eq_none_iff, List.findSome?_eq_none_iff, firstClash?_eq_none_iff]
    constructor
    · rintro ⟨each, pairs⟩
      exact ⟨fun hnil => h (List.isEmpty_iff.2 hnil),
        fun e he => Entry.fault?_eq_none_iff.1 (each e he), pairs⟩
    · intro valid
      exact ⟨fun e he => Entry.fault?_eq_none_iff.2 (valid.admissible e he), valid.distinct⟩

/-! ## Vocabularies -/

namespace Vocabulary

/-- The vocabulary with the given entries, or the first reason why there is none. -/
def ofEntries (entries : List (Entry C)) : Except VocabularyError (Vocabulary C) :=
  match h : fault? entries with
  | some error => .error error
  | none => .ok ⟨entries, fault?_eq_none_iff.1 h⟩

/-- The number of entries. -/
def size (v : Vocabulary C) : Nat := v.entries.length

/-- The bytes of the shortest text. -/
def minLength (v : Vocabulary C) : Nat := (v.entries.map (·.word.length)).min?.getD 0

/-- The bytes of the longest text. -/
def maxLength (v : Vocabulary C) : Nat := (v.entries.map (·.word.length)).max?.getD 0

/-- The entry whose text has exactly the given bytes, found by looking at each in turn. -/
def find? (v : Vocabulary C) (word : Word) : Option (Entry C) :=
  v.entries.find? fun e => e.word = word

end Vocabulary

/-! ## Edit distance

The fewest insertions, deletions and substitutions of single characters that turn one text into
another. `extend` is one step of the usual table: from the distances of every suffix of `xs` to
`ys` it makes those to `y :: ys`. `distances` runs it over the whole second text, and the distance
of the texts is the first entry. -/

namespace Levenshtein

/-- From the distances of the suffixes of `xs` to a list, longest suffix first, the distances of
the same suffixes to that list with `y` in front. -/
def extend (y : Char) : List Char → List Nat → List Nat
  | [], [] => []
  | [], d :: _ => [d + 1]
  | _ :: _, [] => []
  | x :: xs, d :: ds =>
    let later := extend y xs ds
    -- Drop `x`, insert `y` before it, or put `y` in its place.
    let drop := later.headD 0 + 1
    let swap := ds.headD 0 + (if x = y then 0 else 1)
    min (min drop (d + 1)) swap :: later

/-- The distances of the suffixes of `xs` to the empty list: their lengths. -/
def start : List Char → List Nat
  | [] => [0]
  | _ :: xs => (xs.length + 1) :: start xs

/-- The distances of the suffixes of `xs` to `ys`, longest suffix first. -/
def distances (xs ys : List Char) : List Nat :=
  ys.foldr (fun y row => extend y xs row) (start xs)

/-- The edit distance of two texts, counted in characters. -/
def distance (s t : String) : Nat :=
  (distances s.toList t.toList).headD 0

end Levenshtein

/-! ## Suggestions -/

namespace Vocabulary

/-- The text with its ASCII capitals made small. -/
def foldCase (text : String) : List Char := text.toList.map Char.toLower

/-- The first of the closest entries, with its distance. -/
def closest? (text : String) : List (Entry C) → Option (Nat × Entry C)
  | [] => none
  | e :: rest =>
    let distance := Levenshtein.distance e.text text
    -- Of equally close entries the earlier stays.
    match closest? text rest with
    | some (best, other) => if best < distance then some (best, other) else some (distance, e)
    | none => some (distance, e)

/-- The entry that `text` may have been meant for, at most `maxDistance` edits away unless only the
case of letters differs. -/
def suggest? (v : Vocabulary C) (text : String) (maxDistance : Nat) : Option (Entry C) :=
  match v.entries.find? fun e => foldCase e.text = foldCase text with
  | some e => some e
  | none => ((closest? text v.entries).filter fun p => p.1 ≤ maxDistance).map Prod.snd

end Vocabulary

end KeywordHash
