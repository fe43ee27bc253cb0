/-!
# Words, numbers and places in a text

A word is what a tokenizer hands over: any sequence of bytes. A text is a `String`, and its word is
its UTF-8 form. Texts are told apart by their words (`ofText_inj`), so a table that compares bytes
compares texts.

What else is read off a text is here, too: the first occurrence of a pattern (`cut?`), a piece
without the white space around it (`trim`), decimal numbers with an optional sign (`Number`), and
places. A place is named by its line and column, both from 1, columns counted in characters. The
place of a suffix is found by its size: `splitAtSize` cuts a text at the last character boundary
that is not past the given number of bytes, and `Location.after` walks over what stands before the
cut.
-/

namespace KeywordHash

/-! ## Words -/

/-- A word to look up: any sequence of bytes, of any length. -/
abbrev Word := List UInt8

namespace Word

/-- The UTF-8 bytes of a text. -/
def ofText (text : String) : Word := text.toUTF8.data.toList

/-- Two texts with the same bytes are equal. -/
theorem ofText_inj {s t : String} : ofText s = ofText t ↔ s = t := by
  constructor
  · intro h
    apply String.toByteArray_inj.1
    exact ByteArray.ext (Array.toList_inj.1 h)
  · rintro rfl
    rfl

/-- The bytes of a text are those of its characters, one after the other. -/
theorem ofText_eq (text : String) : ofText text = text.toList.flatMap String.utf8EncodeChar := by
  have hchars : ∀ chars : List Char,
      ofText (String.ofList chars) = chars.flatMap String.utf8EncodeChar := by
    simp [ofText, List.utf8Encode]
  rw [← hchars, String.ofList_toList]

/-- The length of a word is the size of its text. -/
theorem length_ofText (s : String) : (ofText s).length = s.utf8ByteSize := rfl

end Word

/-! ## Pieces of a text -/

/-- What stands before the first occurrence of a pattern in a text, and what stands after it. -/
def cut? (pattern : List Char) : List Char → Option (List Char × List Char)
  | [] => if pattern.isEmpty then some ([], []) else none
  | c :: rest =>
    if pattern.isPrefixOf (c :: rest) then some ([], (c :: rest).drop pattern.length)
    else (cut? pattern rest).map fun p => (c :: p.1, p.2)

/-- Whether a character is white space: the controls from tab to return, the space, and what Unicode
adds to them. -/
def isWhiteSpace (c : Char) : Bool :=
  let n := c.toNat
  (0x9 ≤ n && n ≤ 0xd) || n == 0x20 || n == 0x85 || n == 0xa0 || n == 0x1680
    || (0x2000 ≤ n && n ≤ 0x200a) || n == 0x2028 || n == 0x2029 || n == 0x202f || n == 0x205f
    || n == 0x3000

/-- A text without the white space that it starts and ends with. -/
def trim (text : List Char) : List Char :=
  ((text.dropWhile isWhiteSpace).reverse.dropWhile isWhiteSpace).reverse

/-! ## Numbers

Decimal numbers as command lines and code names write them: ASCII digits with an optional sign, any
number of leading zeros, and a value inside the range that the reader asks for. A sign on its own
and the empty text are no numbers. -/

namespace Number

/-- The value of a list of ASCII digits, `none` for an empty list or any other character. -/
def ofDigits? (digits : List Char) : Option Nat :=
  if digits.isEmpty || !digits.all Char.isDigit then none
  else some (digits.foldl (fun n c => 10 * n + (c.toNat - '0'.toNat)) 0)

/-- Reads an unsigned number up to `max`; a plus sign may precede it. -/
def readNat? (max : Nat) (text : String) : Option Nat :=
  let digits := match text.toList with
    | '+' :: digits => digits
    | digits => digits
  (ofDigits? digits).filter (· ≤ max)

/-- Reads a signed number from `low` to `high`; either sign may precede it. -/
def readInt? (low high : Int) (text : String) : Option Int :=
  let value := match text.toList with
    | '+' :: digits => (ofDigits? digits).map Int.ofNat
    | '-' :: digits => (ofDigits? digits).map fun n => -Int.ofNat n
    | digits => (ofDigits? digits).map Int.ofNat
  value.filter fun n => low ≤ n ∧ n ≤ high

end Number

/-! ## Places -/

/-- The number of bytes a list of characters takes in UTF-8. -/
def utf8Size : List Char → Nat
  | [] => 0
  | c :: rest => c.utf8Size + utf8Size rest

/-- Cuts a text in two at the last character boundary within the first `size` bytes. -/
def splitAtSize : Nat → List Char → List Char × List Char
  | _, [] => ([], [])
  | size, c :: rest =>
    if c.utf8Size ≤ size then
      let (before, after) := splitAtSize (size - c.utf8Size) rest
      (c :: before, after)
    else ([], c :: rest)

/-- At most 20 characters of a text, none of them from beyond its first line. -/
def excerpt (chars : List Char) : List Char :=
  (chars.takeWhile (· ≠ '\n')).take 20

/-- A line and a column, both counted from 1. -/
structure Location where
  /-- The number of the line. -/
  line : Nat
  /-- The number of the character within the line. -/
  column : Nat
deriving DecidableEq, Repr

namespace Location

/-- The place where a text starts. -/
def origin : Location := ⟨1, 1⟩

/-- The place behind one more character: a newline opens the next line. -/
def advance (place : Location) (c : Char) : Location :=
  if c = '\n' then ⟨place.line + 1, 1⟩ else ⟨place.line, place.column + 1⟩

/-- The place behind a list of characters that starts a text. -/
def after (chars : List Char) : Location := chars.foldl advance origin

end Location

end KeywordHash
