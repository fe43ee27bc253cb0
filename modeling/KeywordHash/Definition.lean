import KeywordHash.Definition.ParseError

/-!
# Definition files

A line of a definition file holds an entry or nothing, then possibly a comment. An entry is a word,
or a word and the name of its code with a comma between; blanks may stand around both. A comment
runs from `#` to the end of the line. A line ends with a newline, a return and a newline, or the
input.

Reading backs out of an entry that is not one: the line is then read as if it held none, and what
stands in the way of its end is the error. A code name that no code has is an error at once. Reading
a line always gets somewhere: `readLine_shorter` says that less input is left than there was.

The file is read line by line into items, and their entries must form a vocabulary. If they do not,
the error is placed at an item with the text that the fault names: the second of those if the text
is repeated, else the first.
-/

namespace KeywordHash.Definition

/-! ## Lines -/

/-- The characters of words and code names. -/
def isWordChar (c : Char) : Bool := c.isAlphanum || c = '_' || c = '.'

/-- The characters that may stand between the parts of a line. -/
def isBlank (c : Char) : Bool := c = ' ' || c = '\t'

/-- The characters that a comment stops at. -/
def isLineBreak (c : Char) : Bool := c = '\r' || c = '\n'

/-- The input after its leading blanks. -/
def skipBlanks (input : List Char) : List Char := input.dropWhile isBlank

/-- A word at the start of the input, and the input after it. -/
def word? (input : List Char) : Option (List Char × List Char) :=
  match input.takeWhile isWordChar with
  | [] => none
  | w => some (w, input.dropWhile isWordChar)

/-- The input after a comma and the blanks around it. -/
def afterComma? (input : List Char) : Option (List Char) :=
  match skipBlanks input with
  | ',' :: rest => some (skipBlanks rest)
  | _ => none

/-- The input after a comment. A comment that runs into a return without a newline is none. -/
def skipComment (input : List Char) : List Char :=
  match input with
  | '#' :: text =>
    match text.dropWhile fun c => !isLineBreak c with
    | [] => []
    | '\n' :: rest => '\n' :: rest
    | '\r' :: '\n' :: rest => '\r' :: '\n' :: rest
    -- A lone return: there is no comment here.
    | _ => input
  | _ => input

/-- The input after the end of a line. -/
def lineEnd? : List Char → Option (List Char)
  | [] => some []
  | '\n' :: rest => some rest
  | '\r' :: '\n' :: rest => some rest
  | _ => none

/-- Ends the line here. -/
def closeLine (input : List Char) : Except ParseError (List Char) :=
  match lineEnd? input with
  | some rest => .ok rest
  | none =>
    -- The end of the input is the last of the ways to end a line that are tried.
    .error ((ParseError.of input (.unexpected .endOfInput)).seeking input .lineEnd)

/-- Reads the end of a line: blanks, a comment, and the line's end. -/
def endOfLine (input : List Char) : Except ParseError (List Char) :=
  closeLine (skipComment (skipBlanks input))

/-- An entry with the input from its text on. -/
structure Item (C : Type) where
  /-- The text. -/
  text : String
  /-- The code. -/
  code : C
  /-- The input from the text on. -/
  source : List Char
deriving Repr

variable {C : Type}

/-- The entry without its place. -/
def Item.entry (item : Item C) : Entry C := ⟨item.text, item.code⟩

/-- What stands where an entry may stand. -/
inductive Reading (C : Type) where
  /-- No entry. -/
  | nothing
  /-- An entry, and the input after it. -/
  | entry (item : Item C) (rest : List Char)
  /-- An entry of an unknown code, and the input from the code's name on. -/
  | unknownCode (name : String) (source : List Char)

/-- The text of an entry, the name of its code, the input from the name on and the input after. -/
def entryParts? (input : List Char) :
    Option (List Char × List Char × List Char × List Char) :=
  match word? input with
  | none => none
  | some (text, rest) =>
    match afterComma? rest with
    -- The text doubles as the name of its code.
    | none => some (text, text, input, rest)
    | some input =>
      match word? input with
      -- A comma with no name after it: this is no entry.
      | none => none
      | some (name, rest) => some (text, name, input, rest)

/-- Reads an entry that starts here. -/
def entryHere [NamedCode C] (input : List Char) : Reading C :=
  match entryParts? input with
  | none => .nothing
  | some (text, name, source, rest) =>
    match NamedCode.ofName? (String.ofList name) with
    | some code => .entry ⟨String.ofList text, code, input⟩ rest
    | none => .unknownCode (String.ofList name) source

/-- Reads an entry after blanks. -/
def readEntry [NamedCode C] (input : List Char) : Reading C := entryHere (skipBlanks input)

/-- Reads the end of the line that starts with `input`, given what stands at the entry's place. -/
def finishLine (input : List Char) :
    Reading C → Except ParseError (Option (Item C) × List Char)
  | .nothing => (endOfLine input).map fun rest => (none, rest)
  | .entry item after => (endOfLine after).map fun rest => (some item, rest)
  | .unknownCode name source => .error (ParseError.of source (.fault (.unknownCode name)))

/-- Reads a line: the entry on it, if there is one, and the input after it. -/
def readLine [NamedCode C] (input : List Char) :
    Except ParseError (Option (Item C) × List Char) :=
  (finishLine input (readEntry input)).mapError fun e => e.within input "entry"

/-! ## Progress -/

/-- Dropping characters from the front does not lengthen a list. -/
theorem length_dropWhile_le (p : Char → Bool) (input : List Char) :
    (input.dropWhile p).length ≤ input.length :=
  (List.dropWhile_suffix p).length_le

/-- Skipping a comment does not lengthen the input. -/
theorem length_skipComment_le (input : List Char) :
    (skipComment input).length ≤ input.length := by
  unfold skipComment
  split
  · next text =>
    have h := length_dropWhile_le (fun c => !isLineBreak c) text
    split
    · exact Nat.zero_le _
    · next hd => rw [hd] at h; exact Nat.le_succ_of_le h
    · next hd => rw [hd] at h; exact Nat.le_succ_of_le h
    · exact Nat.le_refl _
  · exact Nat.le_refl _

/-- The end of a line takes a character, unless it is the end of the input. -/
theorem lineEnd?_shorter {input rest : List Char} (h : lineEnd? input = some rest) :
    rest.length < input.length ∨ rest = [] := by
  unfold lineEnd? at h
  split at h
  · exact .inr (Option.some.inj h).symm
  · rw [← Option.some.inj h]
    exact .inl (Nat.lt_succ_self _)
  · rw [← Option.some.inj h]
    exact .inl (Nat.lt_succ_of_lt (Nat.lt_succ_self _))
  · cases h

/-- What is left after the end of a line is shorter, or nothing. -/
theorem endOfLine_shorter {input rest : List Char} (h : endOfLine input = .ok rest) :
    rest.length < input.length ∨ rest = [] := by
  unfold endOfLine closeLine at h
  split at h
  · next h' =>
    cases h
    have h1 := length_skipComment_le (skipBlanks input)
    have h2 : (skipBlanks input).length ≤ input.length := length_dropWhile_le isBlank input
    rcases lineEnd?_shorter h' with h3 | h3
    · exact .inl (by omega)
    · exact .inr h3
  · cases h

/-- What is left after a word is no longer than the input. -/
theorem word?_length_le {input w rest : List Char} (h : word? input = some (w, rest)) :
    rest.length ≤ input.length := by
  unfold word? at h
  split at h
  · cases h
  · cases h
    exact length_dropWhile_le _ _

/-- What is left after a comma is no longer than the input. -/
theorem afterComma?_length_le {input rest : List Char} (h : afterComma? input = some rest) :
    rest.length ≤ input.length := by
  unfold afterComma? at h
  split at h
  · next tail h' =>
    cases h
    have h1 := length_dropWhile_le isBlank input
    have h2 := length_dropWhile_le isBlank tail
    unfold skipBlanks at *
    rw [h', List.length_cons] at h1
    omega
  · cases h

/-- What is left after the parts of an entry is no longer than the input. -/
theorem entryParts?_length_le {input text name source rest : List Char}
    (h : entryParts? input = some (text, name, source, rest)) : rest.length ≤ input.length := by
  unfold entryParts? at h
  split at h
  · cases h
  · next h1 =>
    split at h
    · cases h
      exact word?_length_le h1
    · next h2 =>
      split at h
      · cases h
      · next h3 =>
        cases h
        have := word?_length_le h1
        have := afterComma?_length_le h2
        have := word?_length_le h3
        omega

/-- What is left after an entry is no longer than the input. -/
theorem readEntry_length_le [NamedCode C] {input rest : List Char} {item : Item C}
    (h : readEntry input = .entry item rest) : rest.length ≤ input.length := by
  unfold readEntry entryHere at h
  split at h
  · cases h
  · next h' =>
    split at h
    · cases h
      exact Nat.le_trans (entryParts?_length_le h') (length_dropWhile_le _ _)
    · cases h

/-- A computation in `Except` that is mapped to a value had a value to map. -/
theorem eq_ok_of_map_eq_ok {ε α β : Type} {f : α → β} {x : Except ε α} {y : β}
    (h : x.map f = .ok y) : ∃ a, x = .ok a ∧ f a = y := by
  cases x with
  | error e => cases h
  | ok a =>
    cases h
    exact ⟨a, rfl, rfl⟩

/-- What is left after a line is shorter than the input it was read from. -/
theorem readLine_shorter [NamedCode C] {input rest : List Char} {item : Option (Item C)}
    (hne : input ≠ []) (h : readLine input = .ok (item, rest)) : rest.length < input.length := by
  have hpos : 0 < input.length := List.length_pos_iff.2 hne
  unfold readLine at h
  cases hr : finishLine input (readEntry (C := C) input) with
  | error e => rw [hr] at h; cases h
  | ok line =>
    rw [hr] at h
    cases h
    unfold finishLine at hr
    split at hr
    · obtain ⟨r, h1, h2⟩ := eq_ok_of_map_eq_ok hr
      cases h2
      rcases endOfLine_shorter h1 with h3 | rfl
      · exact h3
      · exact hpos
    · next after hentry =>
      obtain ⟨r, h1, h2⟩ := eq_ok_of_map_eq_ok hr
      cases h2
      have h4 := readEntry_length_le hentry
      rcases endOfLine_shorter h1 with h3 | rfl
      · omega
      · exact hpos
    · cases hr

/-! ## Files -/

variable [NamedCode C]

/-- Reads all lines of the input; the first that cannot be read is the error. -/
def readItems (input : List Char) : Except ParseError (List (Item C)) :=
  if hne : input = [] then .ok []
  else
    match h : readLine (C := C) input with
    | .error e => .error e
    | .ok (item, rest) =>
      have : rest.length < input.length := readLine_shorter hne h
      (readItems rest).map fun items => item.toList ++ items
termination_by input.length

/-- The input from the item on that a fault of the vocabulary is placed at. The fault names a text
only, so the item is found by its text. -/
def offender? (items : List (Item C)) (error : VocabularyError) : Option (List Char) :=
  let named (text : String) := (items.filter fun item => item.text = text).map Item.source
  match error with
  | .empty => none
  -- The second item with the text repeats the first.
  | .duplicateText text => (named text)[1]?
  | .duplicateCode _ second => (named second).head?
  | .length text | .containsNul text | .invalidCode text => (named text).head?

/-- Reads a definition file. -/
def parse [DecidableEq C] [Code C] (source : String) : Except ParseError (Vocabulary C) :=
  match readItems source.toList with
  | .error e => .error e
  | .ok items =>
    (Vocabulary.ofEntries (items.map Item.entry)).mapError fun error =>
      ParseError.of ((offender? items error).getD []) (.fault (.vocabulary error))

end KeywordHash.Definition
