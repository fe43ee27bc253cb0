import Mathlib.Data.List.Forall2
import KeywordHash.Definition

/-!
# The grammar of definition files

What a definition file is, apart from how it is read. A `Document` is a sequence of lines, each with
the break that ends it; the input may end the last, which is not empty then. A line has a body and
possibly a comment; the body is blank, or holds a word between blanks, or two words with a comma
between. `chars` spells each part out. The `occurrences` of a document are its entries in order,
each with the name of its code and with what the file holds from its text on. That is part of the
file (`source_suffix`), and no two occurrences start at one place (`occurrences_pairwise`).
-/

namespace KeywordHash.Definition

/-! ## Lines -/

/-- Spaces and tabs, any number of them. -/
structure Blank where
  /-- The characters. -/
  chars : List Char
  /-- They are spaces and tabs. -/
  blank : ∀ c ∈ chars, c = ' ' ∨ c = '\t'

/-- A word: ASCII letters and digits, underscores and periods, at least one of them. -/
structure Name where
  /-- The characters. -/
  chars : List Char
  /-- There is one. -/
  nonempty : chars ≠ []
  /-- They are letters, digits, underscores and periods. -/
  plain : ∀ c ∈ chars, c.isAlphanum = true ∨ c = '_' ∨ c = '.'

/-- What stands behind the `#` of a comment: anything that does not break the line. -/
structure Comment where
  /-- The characters. -/
  chars : List Char
  /-- They do not break the line. -/
  unbroken : ∀ c ∈ chars, c ≠ '\r' ∧ c ≠ '\n'

/-- What stands in front of the comment of a line. -/
inductive Body where
  /-- No entry. -/
  | blank (space : Blank)
  /-- A text that is also the name of its code. -/
  | single (before : Blank) (text : Name) (after : Blank)
  /-- A text and, behind a comma, the name of its code. -/
  | pair (before : Blank) (text : Name) (left right : Blank) (name : Name) (after : Blank)

/-- A line without the break at its end. -/
structure Line where
  /-- What stands in front of the comment. -/
  body : Body
  /-- The comment, if there is one. -/
  comment? : Option Comment

/-- The characters of a body. -/
def Body.chars : Body → List Char
  | blank space => space.chars
  | single before text after => before.chars ++ (text.chars ++ after.chars)
  | pair before text left right name after =>
    before.chars ++ (text.chars ++ (left.chars ++ ',' :: (right.chars ++ (name.chars
      ++ after.chars))))

/-- The characters of a comment, none if there is none. -/
def commentChars : Option Comment → List Char
  | none => []
  | some comment => '#' :: comment.chars

/-- The characters of a line. -/
def Line.chars (line : Line) : List Char := line.body.chars ++ commentChars line.comment?

/-! ## Documents -/

/-- What ends a line that the input does not end. -/
inductive Break where
  /-- A newline. -/
  | newline
  /-- A return and a newline. -/
  | returnNewline

/-- The characters of a break. -/
def Break.chars : Break → List Char
  | newline => ['\n']
  | returnNewline => ['\r', '\n']

/-- A definition file. -/
inductive Document where
  /-- No lines. -/
  | empty
  /-- A line that the input ends. -/
  | last (line : Line) (nonempty : line.chars ≠ [])
  /-- A line, its break, and the lines after it. -/
  | cons (line : Line) (ending : Break) (rest : Document)

/-- The characters of a file. -/
def Document.chars : Document → List Char
  | empty => []
  | last line _ => line.chars
  | cons line ending rest => line.chars ++ (ending.chars ++ rest.chars)

/-! ## Occurrences -/

/-- An entry as it stands in a file. -/
structure Occurrence where
  /-- The characters of its text. -/
  text : List Char
  /-- The characters of the name of its code. -/
  name : List Char
  /-- What the file holds from the text on. -/
  source : List Char

/-- What an entry in a file is read as: its text, the code of the name, and its place. -/
structure Occurrence.Gives {C : Type} [NamedCode C] (o : Occurrence) (item : Item C) : Prop where
  /-- The text is the same. -/
  text : item.text = String.ofList o.text
  /-- The code is the one of the name. -/
  code : NamedCode.ofName? (String.ofList o.name) = some item.code
  /-- The item has what the file holds from the text on. -/
  source : item.source = o.source

/-- The entry of a body, given what follows the body. -/
def Body.occurrence? (tail : List Char) : Body → Option Occurrence
  | blank _ => none
  | single _ text after => some ⟨text.chars, text.chars, text.chars ++ (after.chars ++ tail)⟩
  | pair _ text left right name after =>
    some ⟨text.chars, name.chars, text.chars ++ (left.chars ++ ',' :: (right.chars ++ (name.chars
      ++ (after.chars ++ tail))))⟩

/-- A body without an entry is blank. -/
theorem Body.eq_blank_of_none {body : Body} {tail : List Char}
    (h : body.occurrence? tail = none) : ∃ space, body = .blank space := by
  rcases body with space | _ | _
  · exact ⟨space, rfl⟩
  · cases h
  · cases h

/-- The entry of a line, given what follows the line. -/
def Line.occurrence? (tail : List Char) (line : Line) : Option Occurrence :=
  line.body.occurrence? (commentChars line.comment? ++ tail)

/-- The entries of a file, in order. -/
def Document.occurrences : Document → List Occurrence
  | empty => []
  | last line _ => (line.occurrence? []).toList
  | cons line ending rest =>
    (line.occurrence? (ending.chars ++ rest.chars)).toList ++ rest.occurrences

/-- What a file holds from the text of an entry on starts with the text, ends the line and goes on
with what follows the line. -/
theorem Line.occurrence?_eq_some {line : Line} {tail : List Char} {o : Occurrence}
    (h : line.occurrence? tail = some o) :
    o.text <+: o.source ∧ o.source <:+ line.chars ++ tail ∧ tail.length < o.source.length := by
  obtain ⟨body, comment?⟩ := line
  unfold occurrence? at h
  unfold chars
  rcases body with space | ⟨before, text, after⟩ | ⟨before, text, left, right, name, after⟩
  · cases h
  · have hpos := List.length_pos_iff.2 text.nonempty
    cases h
    refine ⟨List.prefix_append _ _, ⟨before.chars, ?_⟩, ?_⟩
    · simp [Body.chars]
    · simp only [List.length_append]
      omega
  · have hpos := List.length_pos_iff.2 text.nonempty
    cases h
    refine ⟨List.prefix_append _ _, ⟨before.chars, ?_⟩, ?_⟩
    · simp [Body.chars]
    · simp only [List.length_append, List.length_cons]
      omega

namespace Document

/-- What the file holds from the text of an entry on is the end of the file, and starts with the
text. -/
theorem source_suffix {d : Document} {o : Occurrence} (ho : o ∈ d.occurrences) :
    o.text <+: o.source ∧ o.source <:+ d.chars := by
  induction d with
  | empty => cases ho
  | last line _ =>
    obtain ⟨hstart, hsuffix, -⟩ := Line.occurrence?_eq_some (Option.mem_toList.1 ho)
    rw [List.append_nil] at hsuffix
    exact ⟨hstart, hsuffix⟩
  | cons line ending rest ih =>
    rcases List.mem_append.1 ho with hline | hrest
    · obtain ⟨hstart, hsuffix, -⟩ := Line.occurrence?_eq_some (Option.mem_toList.1 hline)
      exact ⟨hstart, hsuffix⟩
    · obtain ⟨hstart, hsuffix⟩ := ih hrest
      have hlater : rest.chars <:+ line.chars ++ (ending.chars ++ rest.chars) :=
        (List.suffix_append _ _).trans (List.suffix_append _ _)
      exact ⟨hstart, hsuffix.trans hlater⟩

/-- Of two entries, the file holds less from the text of the later one on. -/
theorem occurrences_pairwise (d : Document) :
    d.occurrences.Pairwise fun o p => p.source.length < o.source.length := by
  induction d with
  | empty => exact List.Pairwise.nil
  | last line _ =>
    unfold occurrences
    rcases line.occurrence? [] with _ | o
    · exact List.Pairwise.nil
    · exact List.pairwise_singleton _ o
  | cons line ending rest ih =>
    refine List.pairwise_append.2 ⟨?_, ih, fun o ho p hp => ?_⟩
    · rcases line.occurrence? (ending.chars ++ rest.chars) with _ | o
      · exact List.Pairwise.nil
      · exact List.pairwise_singleton _ o
    · obtain ⟨-, -, hlonger⟩ := Line.occurrence?_eq_some (Option.mem_toList.1 ho)
      have hlater : p.source.length ≤ rest.chars.length := (source_suffix hp).2.length_le
      rw [List.length_append] at hlonger
      omega

end Document

end KeywordHash.Definition
