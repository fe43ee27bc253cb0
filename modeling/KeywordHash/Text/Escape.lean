import KeywordHash.Text.Basic
import KeywordHash.Text.Character

/-!
# Escaped texts

Messages and listings show a text with the characters that would not survive on the page replaced
by an escape: a backslash and a letter for NUL, tab, return and newline, a backslash before the
backslash and the quotes of the style, and `\u` with the number in braces for what the style writes
by number. All other characters stand for themselves. The two styles in use are `message` and
`literal`: both write by number what cannot be seen (`isInvisible`), and differ in where they write
by number what is drawn onto the character before it (`isCombining`).

A reader of a listing takes a text in double quotes back: a backslash and the characters after it
stand for one character (`Literal.readEscape?`), the first quote without a backslash ends the
literal, and all other characters stand for themselves. `Literal.readLiteral?` answers the text and
what comes after the closing quote.
-/

namespace KeywordHash

/-! ## Writing -/

/-- Whether nothing is to be seen of a character, so that its number has to tell that it is there. -/
def isInvisible (c : Char) : Bool := Unprintable.holds c || DefaultIgnorable.holds c

/-- Whether a character is one of the two sound marks of halfwidth katakana. -/
def isHalfwidthSoundMark (c : Char) : Bool := c = '\uff9e' || c = '\uff9f'

/-- Whether a character is drawn onto the one before it. The halfwidth sound marks extend the
character before them, but have a width of their own. -/
def isCombining (c : Char) : Bool := GraphemeExtend.holds c && !isHalfwidthSoundMark c

/-- The choices that two escaped forms of a text differ in. -/
structure EscapeStyle where
  /-- The quotes that are written with a backslash. -/
  quotes : List Char
  /-- Which characters are written by their number; the flag says whether the character is the
  first of its text. -/
  byNumber : Bool → Char → Bool

namespace EscapeStyle

/-- The form in error messages: both quotes are escaped, and a combining character is written by
number only where there is none before it to combine with. -/
def message : EscapeStyle where
  quotes := ['"', '\'']
  byNumber := fun first c => (first && isCombining c) || isInvisible c

/-- The form between double quotes: the single quote stands for itself, and a combining character
is written by number anywhere. -/
def literal : EscapeStyle where
  quotes := ['"']
  byNumber := fun _ c => isCombining c || isInvisible c

/-- The escaped form of one character. -/
def escapeChar (style : EscapeStyle) (first : Bool) (c : Char) : List Char :=
  if c = '\x00' then ['\\', '0']
  else if c = '\t' then ['\\', 't']
  else if c = '\r' then ['\\', 'r']
  else if c = '\n' then ['\\', 'n']
  else if c = '\\' then ['\\', '\\']
  else if style.quotes.contains c then ['\\', c]
  -- The braces are part of the escape.
  else if style.byNumber first c then
    ['\\', 'u', '\x7b'] ++ Nat.toDigits 16 c.toNat ++ ['\x7d']
  else [c]

/-- The escaped form of a list of characters; `first` says whether its head opens the text. -/
def escapeFrom (style : EscapeStyle) (first : Bool) : List Char → List Char
  | [] => []
  | c :: rest => style.escapeChar first c ++ escapeFrom style false rest

/-- The escaped form of a text. -/
def escape (style : EscapeStyle) (text : String) : String :=
  String.ofList (style.escapeFrom true text.toList)

/-- A text in double quotes, escaped so that what stands between them reads back. -/
def quoted (text : String) : String :=
  "\"" ++ literal.escape text ++ "\""

end EscapeStyle

/-! ## Reading -/

namespace Literal

/-- The value of a hexadecimal digit. -/
def hexValue? (c : Char) : Option Nat :=
  if c.isDigit then some (c.toNat - '0'.toNat)
  else if 'a' ≤ c ∧ c ≤ 'f' then some (c.toNat - 'a'.toNat + 10)
  else if 'A' ≤ c ∧ c ≤ 'F' then some (c.toNat - 'A'.toNat + 10)
  else none

/-- The number that hexadecimal digits write; no digits write none. -/
def readHex? (digits : List Char) : Option Nat :=
  if digits.isEmpty then none
  else digits.foldlM (fun n c => (hexValue? c).map fun d => 16 * n + d) 0

/-- The character with a given number. -/
def charOfNumber? (n : Nat) : Option Char :=
  if h : n.isValidChar then some (Char.ofNatAux n h) else none

/-- The character that is escaped behind a backslash, and what comes after it. -/
def readEscape? : List Char → Option (Char × List Char)
  | '0' :: rest => some ('\x00', rest)
  | 't' :: rest => some ('\t', rest)
  | 'r' :: rest => some ('\r', rest)
  | 'n' :: rest => some ('\n', rest)
  | '\\' :: rest => some ('\\', rest)
  | '"' :: rest => some ('"', rest)
  | '\'' :: rest => some ('\'', rest)
  | 'u' :: '\x7b' :: rest =>
    -- The number stands between braces.
    (cut? ['\x7d'] rest).bind fun p =>
      ((readHex? p.1).bind charOfNumber?).map fun c => (c, p.2)
  | _ => none

/-- What comes after a pattern is shorter than the text. -/
theorem cut?_length_le {pattern text before rest : List Char}
    (h : cut? pattern text = some (before, rest)) : rest.length ≤ text.length := by
  induction text generalizing before with
  | nil =>
    simp only [cut?] at h
    split at h
    · obtain ⟨-, rfl⟩ := Prod.mk.inj (Option.some.inj h)
      exact Nat.le_refl _
    · contradiction
  | cons c text ih =>
    rw [cut?] at h
    split at h
    · obtain ⟨-, rfl⟩ := Prod.mk.inj (Option.some.inj h)
      rw [List.length_drop]
      exact Nat.sub_le _ _
    · obtain ⟨p, hp, heq⟩ := Option.map_eq_some_iff.1 h
      obtain ⟨-, rfl⟩ := Prod.mk.inj heq
      exact Nat.le_succ_of_le (ih hp)

/-- An escape takes at least one character. -/
theorem readEscape?_shorter {text rest : List Char} {c : Char}
    (h : readEscape? text = some (c, rest)) : rest.length < text.length := by
  unfold readEscape? at h
  split at h
  case h_8 text =>
    obtain ⟨p, hcut, hchar⟩ := Option.bind_eq_some_iff.1 h
    obtain ⟨_, -, heq⟩ := Option.map_eq_some_iff.1 hchar
    obtain ⟨-, rfl⟩ := Prod.mk.inj heq
    have hle := cut?_length_le hcut
    simp only [List.length_cons]
    omega
  case h_9 => contradiction
  all_goals
    obtain ⟨-, rfl⟩ := Prod.mk.inj (Option.some.inj h)
    exact Nat.lt_succ_self _

/-- The characters of a literal up to its closing quote, and what comes after it. -/
def readChars? : List Char → Option (List Char × List Char)
  | [] => none
  | c :: rest =>
    if c = '"' then some ([], rest)
    else if c = '\\' then
      match _h : readEscape? rest with
      | some (c, rest) => (readChars? rest).map fun p => (c :: p.1, p.2)
      | none => none
    else (readChars? rest).map fun p => (c :: p.1, p.2)
termination_by text => text.length
decreasing_by
  · have hshorter := readEscape?_shorter _h
    simp only [List.length_cons]
    omega
  · exact Nat.lt_succ_self _

/-- The text of a literal, which opens with a quote, and what comes after it. -/
def readLiteral? : List Char → Option (String × List Char)
  | '"' :: rest => (readChars? rest).map fun p => (String.ofList p.1, p.2)
  | _ => none

end Literal

end KeywordHash
