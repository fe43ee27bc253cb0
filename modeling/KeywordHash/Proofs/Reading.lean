import Mathlib.Data.List.TakeWhile
import KeywordHash.Proofs.Grammar

/-!
# Reading follows the grammar

Each reader is complete and sound for its part of the grammar: it reads what the grammar spells out,
and whatever it reads is spelled out so. For the end of a line these are `endOfLine_complete` and
`endOfLine_sound`, for an entry `readEntry_complete` and `readEntry_sound`, for a whole line
`readLine_complete` and `readLine_sound`. What follows a part decides where it ends, so the
complete directions ask that no blank follows blanks and no word character follows a word; the `#`
of a comment and the break of a line are neither.
-/

namespace KeywordHash.Definition

/-! ## Characters -/

/-- The blanks of the reader are spaces and tabs. -/
theorem isBlank_iff {c : Char} : isBlank c = true ↔ c = ' ' ∨ c = '\t' := by
  simp [isBlank]

/-- The word characters of the reader are letters, digits, underscores and periods. -/
theorem isWordChar_iff {c : Char} :
    isWordChar c = true ↔ c.isAlphanum = true ∨ c = '_' ∨ c = '.' := by
  simp [isWordChar, or_assoc]

/-- The text of a comment breaks no line. -/
theorem not_isLineBreak_iff {c : Char} : (!isLineBreak c) = true ↔ c ≠ '\r' ∧ c ≠ '\n' := by
  simp [isLineBreak]

/-- No character of a kind comes next. -/
def Stops (p : Char → Bool) (rest : List Char) : Prop := ∀ c ∈ rest.head?, p c = false

/-- No character of any kind comes next at the end. -/
theorem stops_nil (p : Char → Bool) : Stops p [] := by
  intro c hc
  simp at hc

/-- No character of a kind comes next if the next one is not of that kind. -/
theorem stops_cons {p : Char → Bool} {c : Char} (h : p c = false) (rest : List Char) :
    Stops p (c :: rest) := by
  intro c' hc'
  rw [← Option.mem_some.1 hc']
  exact h

/-- No character of a kind comes next behind all of them. -/
theorem stops_dropWhile (p : Char → Bool) (input : List Char) : Stops p (input.dropWhile p) := by
  intro c hc
  have hhead := List.head?_dropWhile_not p input
  rw [Option.mem_def.1 hc] at hhead
  exact hhead

/-- Taking characters of a kind takes what there is before the first other one. -/
theorem takeWhile_append {p : Char → Bool} {chars rest : List Char}
    (hchars : ∀ c ∈ chars, p c = true) (hrest : Stops p rest) :
    (chars ++ rest).takeWhile p = chars := by
  rw [List.takeWhile_append_of_pos hchars]
  rcases rest with _ | ⟨c, rest⟩
  · exact List.append_nil chars
  · rw [List.takeWhile_cons_of_neg (by rw [hrest c rfl]; exact Bool.false_ne_true),
      List.append_nil]

/-- Dropping characters of a kind leaves what there is from the first other one on. -/
theorem dropWhile_append {p : Char → Bool} {chars rest : List Char}
    (hchars : ∀ c ∈ chars, p c = true) (hrest : Stops p rest) :
    (chars ++ rest).dropWhile p = rest := by
  rw [List.dropWhile_append_of_pos hchars]
  rcases rest with _ | ⟨c, rest⟩
  · rfl
  · exact List.dropWhile_cons_of_neg (by rw [hrest c rfl]; exact Bool.false_ne_true)

/-- The characters taken and the characters dropped make up the input. -/
theorem takeWhile_append_skip (p : Char → Bool) (input : List Char) :
    input.takeWhile p ++ input.dropWhile p = input := List.takeWhile_append_dropWhile

/-! ## Blanks and words -/

/-- The blanks at the start of an input. -/
def Blank.leading (input : List Char) : Blank where
  chars := input.takeWhile isBlank
  blank := fun _ hc => isBlank_iff.1 (List.mem_takeWhile_imp hc)

/-- Blanks are skipped. -/
theorem skipBlanks_complete (space : Blank) {rest : List Char} (hrest : Stops isBlank rest) :
    skipBlanks (space.chars ++ rest) = rest :=
  dropWhile_append (fun c hc => isBlank_iff.2 (space.blank c hc)) hrest

/-- What is skipped is blank. -/
theorem skipBlanks_sound (input : List Char) :
    input = (Blank.leading input).chars ++ skipBlanks input :=
  (takeWhile_append_skip isBlank input).symm

/-- A word is read. -/
theorem word?_complete (text : Name) {rest : List Char} (hrest : Stops isWordChar rest) :
    word? (text.chars ++ rest) = some (text.chars, rest) := by
  have hplain : ∀ c ∈ text.chars, isWordChar c = true := fun c hc =>
    isWordChar_iff.2 (text.plain c hc)
  unfold word?
  rw [takeWhile_append hplain hrest, dropWhile_append hplain hrest]
  split
  · next hnil => exact absurd hnil text.nonempty
  · rfl

/-- What is read is a word. -/
theorem word?_sound {input chars rest : List Char} (h : word? input = some (chars, rest)) :
    ∃ text : Name, text.chars = chars ∧ input = text.chars ++ rest := by
  unfold word? at h
  split at h
  · contradiction
  · next hne =>
    obtain ⟨rfl, rfl⟩ := Prod.mk.inj (Option.some.inj h)
    have hplain : ∀ c ∈ input.takeWhile isWordChar,
        c.isAlphanum = true ∨ c = '_' ∨ c = '.' := fun c hc =>
      isWordChar_iff.1 (List.mem_takeWhile_imp hc)
    exact ⟨⟨input.takeWhile isWordChar, hne, hplain⟩, rfl,
      (takeWhile_append_skip isWordChar input).symm⟩

/-- No blank comes next where a word does. -/
theorem Name.stops_isBlank (text : Name) (rest : List Char) :
    Stops isBlank (text.chars ++ rest) := by
  obtain ⟨chars, hne, hplain⟩ := text
  rcases chars with _ | ⟨c, chars⟩
  · exact absurd rfl hne
  · have hc := hplain c List.mem_cons_self
    have hblank : ¬ isBlank c = true := by
      intro h
      rcases isBlank_iff.1 h with rfl | rfl
      · exact absurd hc (by decide)
      · exact absurd hc (by decide)
    exact stops_cons (Bool.eq_false_iff.2 hblank) _

/-! ## The end of a line -/

/-- A line can end where `tail` is left, and `rest` is left behind its end. -/
inductive Ends : List Char → List Char → Prop where
  /-- The input ends the line. -/
  | input : Ends [] []
  /-- A break ends the line. -/
  | broken (ending : Break) (rest : List Char) : Ends (ending.chars ++ rest) rest

/-- The end of a line is read as it stands. -/
theorem lineEnd?_eq_some_iff {tail rest : List Char} :
    lineEnd? tail = some rest ↔ Ends tail rest := by
  constructor
  · intro h
    unfold lineEnd? at h
    split at h
    · obtain rfl := Option.some.inj h
      exact .input
    · obtain rfl := Option.some.inj h
      exact .broken .newline _
    · obtain rfl := Option.some.inj h
      exact .broken .returnNewline _
    · contradiction
  · intro h
    rcases h with _ | ⟨_ | _⟩
    · rfl
    · rfl
    · rfl

/-- What stands between the body of a line and its end starts with no blank, no word character and
no comma. -/
theorem stops_comment {tail rest : List Char} (comment? : Option Comment) (h : Ends tail rest)
    {p : Char → Bool} (hp : p '#' = false ∧ p '\r' = false ∧ p '\n' = false) :
    Stops p (commentChars comment? ++ tail) := by
  obtain ⟨hhash, hreturn, hnewline⟩ := hp
  rcases comment? with _ | comment
  · rcases h with _ | ⟨_ | _⟩
    · exact stops_nil p
    · exact stops_cons hnewline _
    · exact stops_cons hreturn _
  · exact stops_cons hhash _

/-- A comment is skipped, up to the end of its line. -/
theorem skipComment_complete (comment? : Option Comment) {tail rest : List Char}
    (h : Ends tail rest) : skipComment (commentChars comment? ++ tail) = tail := by
  rcases comment? with _ | comment
  · -- What a line can end with is no comment.
    rcases h with _ | ⟨_ | _⟩
    · rfl
    · rfl
    · rfl
  · have hline : ∀ c ∈ comment.chars, (!isLineBreak c) = true := fun c hc =>
      not_isLineBreak_iff.2 (comment.unbroken c hc)
    have hstops : Stops (fun c => !isLineBreak c) tail := by
      rcases h with _ | ⟨_ | _⟩
      · exact stops_nil _
      · exact stops_cons (by decide) _
      · exact stops_cons (by decide) _
    show skipComment ('#' :: (comment.chars ++ tail)) = tail
    simp only [skipComment, dropWhile_append hline hstops]
    rcases h with _ | ⟨_ | _⟩
    · rfl
    · rfl
    · rfl

/-- What is skipped before the end of a line is a comment. -/
theorem skipComment_sound (input : List Char) :
    ∃ comment?, input = commentChars comment? ++ skipComment input := by
  unfold skipComment
  split
  · next text =>
    have hline : ∀ c ∈ text.takeWhile fun c => !isLineBreak c, c ≠ '\r' ∧ c ≠ '\n' :=
      fun c hc => not_isLineBreak_iff.1 (List.mem_takeWhile_imp (p := fun c => !isLineBreak c) hc)
    have htext := takeWhile_append_skip (fun c => !isLineBreak c) text
    have hcomment : '#' :: text = commentChars (some ⟨_, hline⟩)
        ++ text.dropWhile fun c => !isLineBreak c := by
      rw [commentChars, List.cons_append, htext]
    split
    · next hdrop => exact ⟨some ⟨_, hline⟩, by rwa [hdrop] at hcomment⟩
    · next hdrop => exact ⟨some ⟨_, hline⟩, by rwa [hdrop] at hcomment⟩
    · next hdrop => exact ⟨some ⟨_, hline⟩, by rwa [hdrop] at hcomment⟩
    · exact ⟨none, rfl⟩
  · exact ⟨none, rfl⟩

/-- Blanks, a comment and the end of the line are read. -/
theorem endOfLine_complete (space : Blank) (comment? : Option Comment) {tail rest : List Char}
    (h : Ends tail rest) :
    endOfLine (space.chars ++ (commentChars comment? ++ tail)) = .ok rest := by
  have hstops := stops_comment comment? h (p := isBlank) (by decide)
  unfold endOfLine closeLine
  rw [skipBlanks_complete space hstops, skipComment_complete comment? h,
    lineEnd?_eq_some_iff.2 h]

/-- What is read as the end of a line are blanks, a comment and the end of the line. -/
theorem endOfLine_sound {input rest : List Char} (h : endOfLine input = .ok rest) :
    ∃ (space : Blank) (comment? : Option Comment) (tail : List Char),
      input = space.chars ++ (commentChars comment? ++ tail) ∧ Ends tail rest := by
  unfold endOfLine closeLine at h
  split at h
  · next hend =>
    obtain rfl := Except.ok.inj h
    obtain ⟨comment?, hcomment⟩ := skipComment_sound (skipBlanks input)
    refine ⟨Blank.leading input, comment?, skipComment (skipBlanks input), ?_,
      lineEnd?_eq_some_iff.1 hend⟩
    rw [← hcomment]
    exact skipBlanks_sound input
  · contradiction

/-! ## Entries -/

/-- No word is read where no word character comes next. -/
theorem word?_eq_none {rest : List Char} (h : Stops isWordChar rest) : word? rest = none := by
  have hnil : ([] ++ rest).takeWhile isWordChar = [] :=
    takeWhile_append (fun c hc => (List.not_mem_nil hc).elim) h
  rw [List.nil_append] at hnil
  unfold word?
  rw [hnil]

/-- A word ends at blanks. -/
theorem Blank.stops_isWordChar (space : Blank) {rest : List Char} (h : Stops isWordChar rest) :
    Stops isWordChar (space.chars ++ rest) := by
  obtain ⟨chars, hblank⟩ := space
  rcases chars with _ | ⟨c, chars⟩
  · exact h
  · rcases hblank c List.mem_cons_self with rfl | rfl
    · exact stops_cons (by decide) _
    · exact stops_cons (by decide) _

/-- A comma with blanks around it is read. -/
theorem afterComma?_complete (left right : Blank) {rest : List Char} (h : Stops isBlank rest) :
    afterComma? (left.chars ++ ',' :: (right.chars ++ rest)) = some rest := by
  have hcomma : Stops isBlank (',' :: (right.chars ++ rest)) := stops_cons (by decide) _
  unfold afterComma?
  rw [skipBlanks_complete left hcomma]
  exact congrArg some (skipBlanks_complete right h)

/-- No comma is read where blanks and no comma come next. -/
theorem afterComma?_eq_none (space : Blank) {rest : List Char} (hblank : Stops isBlank rest)
    (hcomma : Stops (· = ',') rest) : afterComma? (space.chars ++ rest) = none := by
  unfold afterComma?
  rw [skipBlanks_complete space hblank]
  split
  · exact absurd (hcomma ',' rfl) (by decide)
  · rfl

/-- What is read as a comma is a comma with blanks around it. -/
theorem afterComma?_sound {input rest : List Char} (h : afterComma? input = some rest) :
    ∃ left right : Blank, input = left.chars ++ ',' :: (right.chars ++ rest) := by
  unfold afterComma? at h
  split at h
  · next tail htail =>
    obtain rfl := Option.some.inj h
    refine ⟨Blank.leading input, Blank.leading tail, ?_⟩
    rw [← skipBlanks_sound tail, ← htail]
    exact skipBlanks_sound input
  · contradiction

/-- What may follow the body of a line: no blank, no word character and no comma comes next. -/
structure Closing (tail : List Char) : Prop where
  /-- No blank. -/
  blank : Stops isBlank tail
  /-- No word character. -/
  word : Stops isWordChar tail
  /-- No comma. -/
  comma : Stops (· = ',') tail

/-- A comment or the end of the line may follow the body. -/
theorem closing_comment {tail rest : List Char} (comment? : Option Comment) (h : Ends tail rest) :
    Closing (commentChars comment? ++ tail) where
  blank := stops_comment comment? h (by decide)
  word := stops_comment comment? h (by decide)
  comma := stops_comment comment? h (by decide)

variable {C : Type} [NamedCode C]

/-- The entry of a body is read, if its code has a name; nothing is read of a blank body. -/
theorem readEntry_complete (body : Body) {tail : List Char} (h : Closing tail) :
    match body.occurrence? tail with
    | none => readEntry (C := C) (body.chars ++ tail) = .nothing
    | some o => ∀ item : Item C, o.Gives item →
      ∃ space : Blank, readEntry (body.chars ++ tail) = .entry item (space.chars ++ tail) := by
  rcases body with space | ⟨before, text, after⟩ | ⟨before, text, left, right, name, after⟩
  · show readEntry (space.chars ++ tail) = .nothing
    unfold readEntry entryHere entryParts?
    rw [skipBlanks_complete space h.blank, word?_eq_none h.word]
  · intro item hgives
    obtain ⟨itemText, code, source⟩ := item
    obtain ⟨rfl, hcode, rfl⟩ := hgives
    refine ⟨after, ?_⟩
    have hparts : entryParts? (text.chars ++ (after.chars ++ tail))
        = some (text.chars, text.chars, text.chars ++ (after.chars ++ tail),
          after.chars ++ tail) := by
      unfold entryParts?
      simp only [word?_complete text (after.stops_isWordChar h.word),
        afterComma?_eq_none after h.blank h.comma]
    have hchars : (Body.single before text after).chars ++ tail
        = before.chars ++ (text.chars ++ (after.chars ++ tail)) := by
      simp [Body.chars]
    unfold readEntry entryHere
    rw [hchars, skipBlanks_complete before (text.stops_isBlank _), hparts]
    simp only [hcode]
  · intro item hgives
    obtain ⟨itemText, code, source⟩ := item
    obtain ⟨rfl, hcode, rfl⟩ := hgives
    refine ⟨after, ?_⟩
    have hcomma : Stops isWordChar
        (',' :: (right.chars ++ (name.chars ++ (after.chars ++ tail)))) :=
      stops_cons (by decide) _
    have hparts : entryParts? (text.chars ++ (left.chars ++ ',' :: (right.chars ++ (name.chars
          ++ (after.chars ++ tail)))))
        = some (text.chars, name.chars, name.chars ++ (after.chars ++ tail),
          after.chars ++ tail) := by
      unfold entryParts?
      simp only [word?_complete text (left.stops_isWordChar hcomma),
        afterComma?_complete left right (name.stops_isBlank _),
        word?_complete name (after.stops_isWordChar h.word)]
    have hchars : (Body.pair before text left right name after).chars ++ tail
        = before.chars ++ (text.chars ++ (left.chars ++ ',' :: (right.chars ++ (name.chars
          ++ (after.chars ++ tail))))) := by
      simp [Body.chars]
    unfold readEntry entryHere
    rw [hchars, skipBlanks_complete before (text.stops_isBlank _), hparts]
    simp only [hcode]

/-- What is read as an entry is the entry of a body, up to the blanks behind it. -/
theorem readEntry_sound {input after : List Char} {item : Item C}
    (h : readEntry input = .entry item after) :
    ∃ body : Blank → Body, ∀ (space : Blank) (tail : List Char), after = space.chars ++ tail →
      input = (body space).chars ++ tail ∧
        ∃ o, (body space).occurrence? tail = some o ∧ o.Gives item := by
  have hinput := skipBlanks_sound input
  unfold readEntry entryHere entryParts? at h
  split at h
  · contradiction
  · next text name source rest hparts =>
    split at h
    · next code hcode =>
      obtain ⟨rfl, rfl⟩ := Reading.entry.inj h
      split at hparts
      · contradiction
      · next chars afterText hword =>
        obtain ⟨text', rfl, htext⟩ := word?_sound hword
        split at hparts
        · -- The text doubles as the name.
          cases hparts
          refine ⟨fun space => .single (Blank.leading input) text' space,
            fun space tail hafter => ?_⟩
          rw [hafter] at htext
          refine ⟨?_, _, rfl, ⟨rfl, hcode, htext⟩⟩
          rw [htext] at hinput
          simpa [Body.chars] using hinput
        · next afterComma hcomma =>
          obtain ⟨left, right, hleft⟩ := afterComma?_sound hcomma
          split at hparts
          · contradiction
          · next hname =>
            cases hparts
            obtain ⟨name', rfl, hright⟩ := word?_sound hname
            refine ⟨fun space => .pair (Blank.leading input) text' left right name' space,
              fun space tail hafter => ?_⟩
            rw [hafter] at hright
            rw [hright] at hleft
            rw [hleft] at htext
            refine ⟨?_, _, rfl, ⟨rfl, hcode, htext⟩⟩
            rw [htext] at hinput
            simpa [Body.chars] using hinput
    · contradiction

/-! ## Lines -/

/-- A line without an entry is its end. -/
theorem readLine_of_nothing {input rest : List Char}
    (hentry : readEntry (C := C) input = .nothing) (hend : endOfLine input = .ok rest) :
    readLine (C := C) input = .ok (none, rest) := by
  unfold readLine
  rw [hentry, finishLine, hend]
  rfl

/-- A line with an entry ends behind the entry. -/
theorem readLine_of_entry {input after rest : List Char} {item : Item C}
    (hentry : readEntry input = .entry item after) (hend : endOfLine after = .ok rest) :
    readLine input = .ok (some item, rest) := by
  unfold readLine
  rw [hentry, finishLine, hend]
  rfl

/-- A line is read, if the code of its entry has a name. -/
theorem readLine_complete (line : Line) {tail rest : List Char} (h : Ends tail rest)
    {item? : Option (Item C)} (hitem : Option.Rel Occurrence.Gives (line.occurrence? tail) item?) :
    readLine (line.chars ++ tail) = .ok (item?, rest) := by
  have hentry := readEntry_complete (C := C) line.body (closing_comment line.comment? h)
  have hchars : line.chars ++ tail
      = line.body.chars ++ (commentChars line.comment? ++ tail) := by
    rw [Line.chars, List.append_assoc]
  unfold Line.occurrence? at hitem
  rw [hchars]
  generalize hoccurrence : line.body.occurrence? (commentChars line.comment? ++ tail) = o?
    at hentry hitem
  rcases hitem with hgives | _
  · obtain ⟨space, hread⟩ := hentry _ hgives
    exact readLine_of_entry hread (endOfLine_complete space line.comment? h)
  · obtain ⟨space, hspace⟩ := Body.eq_blank_of_none hoccurrence
    refine readLine_of_nothing hentry ?_
    rw [hspace]
    exact endOfLine_complete space line.comment? h

/-- What is read as a line is a line. -/
theorem readLine_sound {input rest : List Char} {item? : Option (Item C)}
    (h : readLine input = .ok (item?, rest)) :
    ∃ (line : Line) (tail : List Char), input = line.chars ++ tail ∧ Ends tail rest ∧
      Option.Rel Occurrence.Gives (line.occurrence? tail) item? := by
  have hfinish : finishLine input (readEntry (C := C) input) = .ok (item?, rest) := by
    unfold readLine at h
    generalize finishLine input (readEntry (C := C) input) = result at h
    rcases result with error | line
    · contradiction
    · exact h
  unfold finishLine at hfinish
  split at hfinish
  · -- Nothing stands at the entry's place, so the body is blank.
    obtain ⟨rest', hend, hpair⟩ := eq_ok_of_map_eq_ok hfinish
    cases hpair
    obtain ⟨space, comment?, tail, hinput, hends⟩ := endOfLine_sound hend
    refine ⟨⟨.blank space, comment?⟩, tail, ?_, hends, .none⟩
    rw [hinput, Line.chars, List.append_assoc]
    rfl
  · next item after hentry =>
    obtain ⟨rest', hend, hpair⟩ := eq_ok_of_map_eq_ok hfinish
    cases hpair
    obtain ⟨space, comment?, tail, hafter, hends⟩ := endOfLine_sound hend
    obtain ⟨body, hbody⟩ := readEntry_sound hentry
    obtain ⟨hinput, o, ho, hgives⟩ := hbody space _ hafter
    refine ⟨⟨body space, comment?⟩, tail, ?_, hends, ?_⟩
    · rw [hinput, Line.chars, List.append_assoc]
    · unfold Line.occurrence?
      rw [ho]
      exact .some hgives
  · contradiction

end KeywordHash.Definition
