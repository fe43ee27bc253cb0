import KeywordHash.Proofs.Linewise
import KeywordHash.Proofs.Resolving
import KeywordHash.Proofs.Validation

/-!
# What is reported of a line in error

A file whose lines are not all read has a first line at fault: those before it follow the grammar
and name codes, and it does not (`FirstFaulty`). What is reported depends on that line alone. If it
names a code for an entry (`Names`) and there is none of that name, this is the fault, wherever else
the line goes wrong. If not, nothing but the place is reported: where the line cannot go on
(`Stuck`), behind its entry or, if no entry can be read, behind its leading blanks.
`readLine_eq_error` finds both from the readers, and `parse_diagnosis` puts together what is
reported of files.
-/

namespace KeywordHash

/-! ## What entries are rejected for -/

section

variable {C : Type} [DecidableEq C] [Code C]

/-- Entries that are rejected for a NUL or for an invalid code have this fault. -/
theorem Vocabulary.exists_faulty_of_ofEntries {entries : List (Entry C)} {error : VocabularyError}
    {text : String} (h : Vocabulary.ofEntries entries = .error error)
    (herror : error = .containsNul text ∨ error = .invalidCode text) :
    ∃ e ∈ entries, e.fault? = some error := by
  have hempty : error ≠ .empty := by
    rintro rfl
    simp at herror
  obtain ⟨j, hblames⟩ := blames_of_ofEntries h hempty
  rcases hblames with ⟨⟨e, he, hfault⟩, -⟩ | ⟨-, -, ⟨x, y, -, -, hclash⟩, -⟩
  · exact ⟨e, List.mem_of_getElem? he, hfault⟩
  · -- Two entries that clash are rejected for what they share.
    rcases Entry.clash?_eq_some hclash with ⟨-, rfl⟩ | ⟨-, rfl⟩
    · simp at herror
    · simp at herror

/-- Entries are rejected for a NUL only if one has it. -/
theorem Vocabulary.exists_nul_of_ofEntries {entries : List (Entry C)} {text : String}
    (h : Vocabulary.ofEntries entries = .error (.containsNul text)) :
    ∃ e ∈ entries, 0 ∈ e.word := by
  obtain ⟨e, he, hfault⟩ := Vocabulary.exists_faulty_of_ofEntries h (.inl rfl)
  unfold Entry.fault? at hfault
  split_ifs at hfault with hlength hnul hcode
  · cases hfault
  · exact ⟨e, he, hnul⟩
  · cases hfault

/-- Entries are rejected for an invalid code only if one has it. -/
theorem Vocabulary.exists_invalid_of_ofEntries {entries : List (Entry C)} {text : String}
    (h : Vocabulary.ofEntries entries = .error (.invalidCode text)) :
    ∃ e ∈ entries, e.code = Code.invalid := by
  obtain ⟨e, he, hfault⟩ := Vocabulary.exists_faulty_of_ofEntries h (.inr rfl)
  unfold Entry.fault? at hfault
  split_ifs at hfault with hlength hnul hcode
  · cases hfault
  · cases hfault
  · exact ⟨e, he, hcode⟩

end

namespace Definition

/-! ## The code that a line names -/

/-- What a line names as the code of its entry, what it holds from the name on, and what it holds
behind the entry. -/
inductive Names : List Char → List Char → List Char → List Char → Prop where
  /-- A word that no comma follows, with or without blanks between, names its own code. -/
  | own (before : Blank) (text : Name) (space : Blank) (rest : List Char)
    (word : Stops isWordChar (space.chars ++ rest)) (blank : Stops isBlank rest)
    (comma : Stops (· = ',') rest) :
    Names (before.chars ++ (text.chars ++ (space.chars ++ rest))) text.chars
      (text.chars ++ (space.chars ++ rest)) (space.chars ++ rest)
  /-- A word that a comma and a word follow has its code named by the latter. -/
  | given (before : Blank) (text : Name) (left right : Blank) (name : Name) (rest : List Char)
    (word : Stops isWordChar rest) :
    Names (before.chars ++ (text.chars ++ (left.chars ++ ',' :: (right.chars
      ++ (name.chars ++ rest))))) name.chars (name.chars ++ rest) rest

/-- A word goes as far as it can. -/
theorem stops_of_word? {input w rest : List Char} (h : word? input = some (w, rest)) :
    Stops isWordChar rest := by
  unfold word? at h
  split at h
  · contradiction
  · obtain ⟨-, rfl⟩ := Prod.mk.inj (Option.some.inj h)
    exact stops_dropWhile isWordChar input

/-- Where no comma is read, none comes behind the blanks. -/
theorem exists_blank_of_afterComma? {input : List Char} (h : afterComma? input = none) :
    ∃ (space : Blank) (rest : List Char), input = space.chars ++ rest ∧ Stops isBlank rest ∧
      Stops (· = ',') rest := by
  refine ⟨Blank.leading input, skipBlanks input, skipBlanks_sound input, stops_dropWhile _ _, ?_⟩
  unfold afterComma? at h
  split at h
  · contradiction
  · next hother =>
    intro c hc
    refine decide_eq_false fun hcomma => ?_
    rcases hskip : skipBlanks input with _ | ⟨d, rest⟩
    · rw [hskip] at hc
      contradiction
    · rw [hskip] at hc
      obtain rfl := Option.some.inj hc
      exact hother rest (hcomma ▸ hskip)

/-- A line names a code exactly if the parts of an entry are read of it. -/
theorem names_iff {line name source rest : List Char} :
    Names line name source rest ↔
      ∃ text, entryParts? (skipBlanks line) = some (text, name, source, rest) := by
  constructor
  · rintro (⟨before, text, space, rest, hword, hblank, hcomma⟩ |
      ⟨before, text, left, right, name, rest, hword⟩)
    · refine ⟨text.chars, ?_⟩
      rw [skipBlanks_complete before (text.stops_isBlank _)]
      unfold entryParts?
      simp only [word?_complete text hword, afterComma?_eq_none space hblank hcomma]
    · have hstop : Stops isWordChar (left.chars ++ ',' :: (right.chars ++ (name.chars ++ rest))) :=
        left.stops_isWordChar (stops_cons (by decide) _)
      refine ⟨text.chars, ?_⟩
      rw [skipBlanks_complete before (text.stops_isBlank _)]
      unfold entryParts?
      simp only [word?_complete text hstop, afterComma?_complete left right (name.stops_isBlank _),
        word?_complete name hword]
  · rintro ⟨chars, hparts⟩
    have hline := skipBlanks_sound line
    unfold entryParts? at hparts
    split at hparts
    · contradiction
    · next text afterText hword =>
      obtain ⟨text, rfl, htext⟩ := word?_sound hword
      rw [htext] at hline
      split at hparts
      · next hcomma =>
        cases hparts
        obtain ⟨space, rest, rfl, hblank, hnone⟩ := exists_blank_of_afterComma? hcomma
        rw [htext, hline]
        exact .own _ text space rest (stops_of_word? hword) hblank hnone
      · next afterComma hcomma =>
        obtain ⟨left, right, hleft⟩ := afterComma?_sound hcomma
        split at hparts
        · contradiction
        · next hname =>
          cases hparts
          obtain ⟨name, rfl, hright⟩ := word?_sound hname
          rw [hleft, hright] at hline
          rw [hline, hright]
          exact .given _ text left right name _ (stops_of_word? hname)

/-- What a line holds from the name on is an end of the line, and ends with what is behind the
entry. -/
theorem Names.suffix {line name source rest : List Char} (h : Names line name source rest) :
    source <:+ line ∧ rest <:+ source := by
  rcases h with ⟨before, text, space, rest, -, -, -⟩ | ⟨before, text, left, right, name, rest, -⟩
  · exact ⟨List.suffix_append _ _, List.suffix_append _ _⟩
  · refine ⟨⟨before.chars ++ (text.chars ++ (left.chars ++ ',' :: right.chars)), ?_⟩,
      List.suffix_append _ _⟩
    simp

/-- A line names one code. -/
theorem Names.unique {line name name' source source' rest rest' : List Char}
    (h : Names line name source rest) (h' : Names line name' source' rest') :
    name = name' ∧ source = source' ∧ rest = rest' := by
  obtain ⟨text, hparts⟩ := names_iff.1 h
  obtain ⟨text', hparts'⟩ := names_iff.1 h'
  rw [hparts] at hparts'
  cases hparts'
  exact ⟨rfl, rfl, rfl⟩

/-! ## Where a line cannot go on -/

/-- A line cannot go on here: there are no blanks to pass, and the line does not end, neither here
nor behind a comment. -/
structure Stuck (place : List Char) : Prop where
  /-- There are no blanks. -/
  blank : Stops isBlank place
  /-- The line does not end behind a comment, or here. -/
  unending : ∀ (comment? : Option Comment) (tail rest : List Char),
    place = commentChars comment? ++ tail → ¬ Ends tail rest

/-- What is left where a line cannot go on is not nothing. -/
theorem Stuck.ne_nil {place : List Char} (h : Stuck place) : place ≠ [] := by
  rintro rfl
  exact h.unending none [] [] rfl .input

/-- The error of a line that cannot go on. -/
def stuckAt (place : List Char) : ParseError :=
  (ParseError.of place (.unexpected .endOfInput)).seeking place .lineEnd

/-- A comment that is skipped goes to the end of its line. -/
theorem skipComment_cases (input : List Char) :
    skipComment input = input ∨ ∃ rest, lineEnd? (skipComment input) = some rest := by
  unfold skipComment
  split
  · split
    · exact .inr ⟨[], rfl⟩
    · exact .inr ⟨_, rfl⟩
    · exact .inr ⟨_, rfl⟩
    · exact .inl rfl
  · exact .inl rfl

/-- The end of a line is in error where the line cannot go on behind blanks. -/
theorem endOfLine_eq_error {input : List Char} {e : ParseError} (h : endOfLine input = .error e) :
    ∃ (space : Blank) (place : List Char), input = space.chars ++ place ∧ Stuck place ∧
      e = stuckAt place := by
  have hline := skipBlanks_sound input
  have hunended : ∀ rest, endOfLine input ≠ .ok rest := by
    intro rest hok
    rw [h] at hok
    contradiction
  unfold endOfLine closeLine at h
  split at h
  · contradiction
  · next hend =>
    have hskip : skipComment (skipBlanks input) = skipBlanks input := by
      rcases skipComment_cases (skipBlanks input) with hskip | ⟨rest, hrest⟩
      · exact hskip
      · rw [hend] at hrest
        contradiction
    rw [hskip] at h
    refine ⟨Blank.leading input, skipBlanks input, hline, ⟨stops_dropWhile _ _, ?_⟩,
      (Except.error.inj h).symm⟩
    intro comment? tail rest hplace hends
    rw [hplace] at hline
    apply hunended rest
    rw [hline]
    exact endOfLine_complete _ comment? hends

variable {C : Type} [NamedCode C]

variable (C) in
/-- Where a line without an unknown code cannot go on. -/
inductive Halts (line place : List Char) : Prop where
  /-- It is behind the entry and blanks, if the line names a code. -/
  | behindEntry {name source : List Char} {space : Blank} {code : C}
    (names : Names line name source (space.chars ++ place))
    (known : NamedCode.ofName? (String.ofList name) = some code) (stuck : Stuck place)
  /-- It is behind the leading blanks, if the line names none. -/
  | noEntry {space : Blank} (nameless : ∀ name source rest, ¬ Names line name source rest)
    (chars : line = space.chars ++ place) (stuck : Stuck place)

/-- The place is in the line. -/
theorem Halts.inside {line place : List Char} (h : Halts C line place) :
    place <:+ line ∧ place ≠ [] := by
  rcases h with ⟨hnames, -, hstuck⟩ | ⟨-, rfl, hstuck⟩
  · obtain ⟨hsource, hrest⟩ := hnames.suffix
    exact ⟨((List.suffix_append _ _).trans hrest).trans hsource, hstuck.ne_nil⟩
  · exact ⟨List.suffix_append _ _, hstuck.ne_nil⟩

/-- A line in error has an unknown code, which is the error, or cannot go on, which is the error. -/
theorem readLine_eq_error {line : List Char} {e : ParseError}
    (h : readLine (C := C) line = .error e) :
    (∃ name source rest, Names line name source rest ∧
        NamedCode.ofName? (C := C) (String.ofList name) = none ∧
        e = (ParseError.of source (.fault (.unknownCode (String.ofList name)))).within line
          "entry") ∨
      ∃ place, Halts C line place ∧ e = (stuckAt place).within line "entry" := by
  unfold readLine at h
  rcases hfinish : finishLine line (readEntry (C := C) line) with inner | result
  · rw [hfinish] at h
    obtain rfl := Except.error.inj h
    unfold readEntry entryHere at hfinish
    rcases hparts : entryParts? (skipBlanks line) with _ | ⟨text, name, source, rest⟩
    · -- No entry is read, so the line is to end behind its leading blanks.
      rw [hparts] at hfinish
      obtain ⟨space, place, hline, hstuck, rfl⟩ :=
        endOfLine_eq_error (eq_error_of_map_eq_error hfinish)
      refine .inr ⟨place, .noEntry (fun name source rest hnames => ?_) hline hstuck, rfl⟩
      obtain ⟨text, hsome⟩ := names_iff.1 hnames
      rw [hparts] at hsome
      contradiction
    · have hnames : Names line name source rest := names_iff.2 ⟨text, hparts⟩
      rw [hparts] at hfinish
      rcases hcode : NamedCode.ofName? (C := C) (String.ofList name) with _ | code
      · -- The end of the line is not looked at.
        simp only [hcode] at hfinish
        obtain rfl := Except.error.inj hfinish
        exact .inl ⟨name, source, rest, hnames, hcode, rfl⟩
      · simp only [hcode] at hfinish
        obtain ⟨space, place, rfl, hstuck, rfl⟩ :=
          endOfLine_eq_error (eq_error_of_map_eq_error hfinish)
        exact .inr ⟨place, .behindEntry hnames hcode hstuck, rfl⟩
  · rw [hfinish] at h
    contradiction

/-! ## The first line at fault -/

variable (C) in
/-- A text that follows the grammar and names codes. -/
def Readable (text : List Char) : Prop :=
  ∃ d : Document, d.chars = text ∧
    ∀ o ∈ d.occurrences, ∃ code : C, NamedCode.ofName? (String.ofList o.name) = some code

variable (C) in
/-- The first line of a file that does not follow the grammar or names no code, with what is before
and behind it. -/
structure FirstFaulty (front line rest : List Char) : Prop where
  /-- In front of it there is nothing, or something that ends with a newline. -/
  whole : Whole front
  /-- What is in front of it follows the grammar and names codes. -/
  readable : Readable C front
  /-- It is one line: a newline is at its end and nowhere else, or nothing comes after it. -/
  single : ∃ chars, '\n' ∉ chars ∧ (line = chars ++ ['\n'] ∨ line = chars ∧ rest = [])
  /-- It does not follow the grammar or names no code. -/
  faulty : ¬ Readable C line

/-- What follows the grammar and names codes is what is read. -/
theorem readable_iff {text : List Char} :
    Readable C text ↔ ∃ items : List (Item C), readItems text = .ok items := by
  constructor
  · rintro ⟨d, rfl, hnamed⟩
    obtain ⟨items, hgives⟩ := exists_gives_iff.2 hnamed
    exact ⟨items, readItems_complete d hgives⟩
  · rintro ⟨items, hitems⟩
    obtain ⟨d, hd, hgives⟩ := readItems_sound hitems
    exact ⟨d, hd, exists_gives_iff.1 ⟨items, hgives⟩⟩

/-- What is behind a newline of a single line is nothing. -/
theorem behind_newline_eq_nil {chars line before left : List Char} (hchars : '\n' ∉ chars)
    (hline : line = chars ++ ['\n'] ∨ line = chars) (h : line = before ++ '\n' :: left) :
    left = [] := by
  have hnot : ∀ more, chars ≠ before ++ '\n' :: more := by
    rintro more rfl
    exact hchars (List.mem_append_right _ List.mem_cons_self)
  rcases hline with rfl | rfl
  · rcases List.eq_nil_or_concat left with hnil | ⟨more, c, rfl⟩
    · exact hnil
    · -- The last character goes with the newline, and the other newline is before it.
      have hsame : chars ++ ['\n'] = (before ++ '\n' :: more) ++ [c] := by
        rw [h, List.concat_eq_append]
        simp
      exact absurd (List.append_inj' hsame rfl).1 (hnot more)
  · exact absurd h (hnot left)

/-- Reading one line leaves nothing of it. -/
theorem left_eq_nil {chars line left : List Char} {item? : Option (Item C)} (hchars : '\n' ∉ chars)
    (hline : line = chars ++ ['\n'] ∨ line = chars) (h : readLine line = .ok (item?, left)) :
    left = [] := by
  obtain ⟨read, tail, hread, hends, -⟩ := readLine_sound h
  rcases hends with _ | ⟨_ | _, left⟩
  · rfl
  · exact behind_newline_eq_nil hchars hline hread
  · have hnewline : line = (read.chars ++ ['\r']) ++ '\n' :: left := by
      rw [hread, Break.chars]
      simp
    exact behind_newline_eq_nil hchars hline hnewline

/-- The first line at fault is the line in error behind lines that are read. -/
theorem firstFaulty_iff {front line rest : List Char} :
    FirstFaulty C front line rest ↔ ∃ e, BadLine C front line rest e := by
  constructor
  · intro h
    have hne : line ≠ [] := by
      rintro rfl
      exact h.faulty (readable_iff.2 ⟨[], readItems_nil⟩)
    rcases hline : readLine (C := C) line with e | ⟨item?, left⟩
    · exact ⟨e, h.whole, readable_iff.1 h.readable, h.single, hline⟩
    · obtain ⟨chars, hchars, hsingle⟩ := h.single
      obtain rfl := left_eq_nil hchars (hsingle.imp_right And.left) hline
      refine absurd (readable_iff.2 ⟨item?.toList ++ [], ?_⟩) h.faulty
      rw [readItems_of_readLine hne hline, readItems_nil]
      rfl
  · rintro ⟨e, h⟩
    have hne : line ≠ [] := by
      rintro rfl
      exact absurd h.error (by simp [readLine_nil])
    refine ⟨h.whole, readable_iff.2 h.read, h.single, fun hreadable => ?_⟩
    obtain ⟨items, hitems⟩ := readable_iff.1 hreadable
    rw [readItems_of_readLine_error hne h.error] at hitems
    contradiction

/-! ## What is reported of the line -/

variable (C) in
/-- What is reported of a line at fault, with what is behind it. -/
structure Diagnosed (line behind : List Char) (e : ParseError) : Prop where
  /-- It is an entry that was being read. -/
  context : e.context? = some "entry"
  /-- An unknown code is the fault if the line names one. The place is its name. -/
  unknown : ∀ name source rest, Names line name source rest →
    NamedCode.ofName? (C := C) (String.ofList name) = none →
      e.fault? = some (.unknownCode (String.ofList name)) ∧ e.innermost.rest = source ++ behind
  /-- There is no fault if the line names none. The place is where the line cannot go on. -/
  halted : (∀ name source rest, Names line name source rest →
    NamedCode.ofName? (C := C) (String.ofList name) ≠ none) →
      e.fault? = none ∧ ∃ place, Halts C line place ∧ place <:+ line ∧ place ≠ [] ∧
        e.innermost.rest = place ++ behind

/-- The error of a line in error says what is to be reported of it. -/
theorem BadLine.diagnosed {front line rest : List Char} {e : ParseError}
    (h : BadLine C front line rest e) : Diagnosed C line rest (e.followedBy rest) := by
  rcases readLine_eq_error h.error with
    ⟨name, source, after, hnames, hunknown, rfl⟩ | ⟨place, hhalts, rfl⟩
  · refine ⟨rfl, fun name' source' after' hnames' _ => ?_, fun hknown => ?_⟩
    · obtain ⟨rfl, rfl, -⟩ := hnames.unique hnames'
      exact ⟨rfl, rfl⟩
    · exact absurd hunknown (hknown name source after hnames)
  · obtain ⟨hsuffix, hne⟩ := hhalts.inside
    refine ⟨rfl, fun name source after hnames hunknown => ?_,
      fun _ => ⟨rfl, place, hhalts, hsuffix, hne, rfl⟩⟩
    rcases hhalts with ⟨hnames', hknown, -⟩ | ⟨hnameless, -, -⟩
    · obtain ⟨rfl, -, -⟩ := hnames.unique hnames'
      rw [hunknown] at hknown
      contradiction
    · exact absurd hnames (hnameless name source after)

/-- The error of lines that are not read does not say that more input was expected, and has no fault
of the vocabulary. -/
theorem frames_of_readItems {input : List Char} {e : ParseError}
    (h : readItems (C := C) input = .error e) :
    e.frames ≠ [] ∧ (∀ frame ∈ e.frames, frame.cause ≠ .incomplete) ∧
      ∀ error, e.fault? ≠ some (.vocabulary error) := by
  obtain ⟨front, line, rest, inner, -, hbad, rfl⟩ := exists_badLine h
  rcases readLine_eq_error hbad.error with ⟨name, source, after, -, -, rfl⟩ | ⟨place, -, rfl⟩
  · refine ⟨List.cons_ne_nil _ _, ?_, fun error => ?_⟩
    · simp [ParseError.followedBy, ParseError.within, ParseError.of, Frame.followedBy]
    · simp [ParseError.fault?, ParseError.followedBy, ParseError.within, ParseError.of,
        Frame.followedBy]
  · refine ⟨List.cons_ne_nil _ _, ?_, fun error => ?_⟩
    · simp [ParseError.followedBy, ParseError.within, ParseError.of, Frame.followedBy, stuckAt,
        ParseError.seeking]
    · simp [ParseError.fault?, ParseError.followedBy, ParseError.within, ParseError.of,
        Frame.followedBy, stuckAt, ParseError.seeking]

/-! ## Errors of the vocabulary -/

/-- The texts of entries are words. -/
theorem exists_name_of_mem {d : Document} {o : Occurrence} (ho : o ∈ d.occurrences) :
    ∃ text : Name, text.chars = o.text := by
  have hline : ∀ (line : Line) (tail : List Char), o ∈ (line.occurrence? tail).toList →
      ∃ text : Name, text.chars = o.text := by
    rintro ⟨body, comment?⟩ tail hmem
    have hoccurrence : body.occurrence? (commentChars comment? ++ tail) = some o :=
      Option.mem_toList.1 hmem
    rcases body with space | ⟨before, text, after⟩ | ⟨before, text, left, right, name, after⟩
    · contradiction
    · cases hoccurrence
      exact ⟨text, rfl⟩
    · cases hoccurrence
      exact ⟨text, rfl⟩
  induction d with
  | empty => contradiction
  | last line _ => exact hline line [] ho
  | cons line ending rest ih =>
    rcases List.mem_append.1 ho with hfirst | hrest
    · exact hline line _ hfirst
    · exact ih hrest

/-- A word has no NUL. -/
theorem nul_not_mem_ofText (text : Name) : 0 ∉ Word.ofText (String.ofList text.chars) := by
  rw [Word.zero_mem_ofText_iff, String.toList_ofList]
  intro hnul
  exact absurd (text.plain _ hnul) (by decide)

/-- Each item is what an entry gives. -/
theorem exists_gives_of_mem {occurrences : List Occurrence} {items : List (Item C)}
    (h : List.Forall₂ Occurrence.Gives occurrences items) {item : Item C} (hitem : item ∈ items) :
    ∃ o ∈ occurrences, o.Gives item := by
  induction h with
  | nil => contradiction
  | cons hgives _ ih =>
    rcases List.mem_cons.1 hitem with rfl | hlater
    · exact ⟨_, List.mem_cons_self, hgives⟩
    · obtain ⟨o, ho, hgives⟩ := ih hlater
      exact ⟨o, List.mem_cons_of_mem _ ho, hgives⟩

/-- Codes that are read have names. -/
theorem exists_ofName?_eq_some {input : List Char} {items : List (Item C)}
    (h : readItems input = .ok items) {item : Item C} (hitem : item ∈ items) :
    ∃ name, NamedCode.ofName? name = some item.code := by
  obtain ⟨d, -, hall⟩ := readItems_sound h
  obtain ⟨o, -, hgives⟩ := exists_gives_of_mem hall hitem
  exact ⟨_, hgives.code⟩

/-- No text that is read has a NUL. -/
theorem nul_not_mem_word {input : List Char} {items : List (Item C)}
    (h : readItems input = .ok items) {item : Item C} (hitem : item ∈ items) :
    0 ∉ item.entry.word := by
  obtain ⟨d, -, hall⟩ := readItems_sound h
  obtain ⟨o, ho, hgives⟩ := exists_gives_of_mem hall hitem
  obtain ⟨text, hname⟩ := exists_name_of_mem ho
  have hword : item.entry.word = Word.ofText (String.ofList text.chars) := by
    rw [hname, ← hgives.text]
    rfl
  rw [hword]
  exact nul_not_mem_ofText text

section

variable [DecidableEq C] [Code C]

/-- The error of a file does not say that more input was expected, nor that a text has a NUL. -/
theorem frames_of_parse {source : String} {e : ParseError} (h : parse (C := C) source = .error e) :
    e.frames ≠ [] ∧ (∀ frame ∈ e.frames, frame.cause ≠ .incomplete) ∧
      ∀ text, e.fault? ≠ some (.vocabulary (.containsNul text)) := by
  rcases parse_eq_error h with hread | ⟨items, error, hread, hentries, rfl⟩
  · obtain ⟨hne, hcauses, hfault⟩ := frames_of_readItems hread
    exact ⟨hne, hcauses, fun text => hfault (.containsNul text)⟩
  · refine ⟨List.cons_ne_nil _ _, by simp [ParseError.of], fun text hfault => ?_⟩
    obtain rfl : error = .containsNul text := by
      cases hfault
      rfl
    obtain ⟨entry, hentry, hnul⟩ := Vocabulary.exists_nul_of_ofEntries hentries
    obtain ⟨item, hitem, rfl⟩ := List.mem_map.1 hentry
    exact nul_not_mem_word hread hitem hnul

/-- The error of a file that names mnemonics does not say that one is invalid. -/
theorem fault?_ne_invalidCode {source : String} {e : ParseError}
    (h : parse (C := Mnemonic) source = .error e) (text : String) :
    e.fault? ≠ some (.vocabulary (.invalidCode text)) := by
  rcases parse_eq_error h with hread | ⟨items, error, hread, hentries, rfl⟩
  · obtain ⟨-, -, hfault⟩ := frames_of_readItems hread
    exact hfault (.invalidCode text)
  · intro hfault
    obtain rfl : error = .invalidCode text := by
      cases hfault
      rfl
    obtain ⟨entry, hentry, hinvalid⟩ := Vocabulary.exists_invalid_of_ofEntries hentries
    obtain ⟨item, hitem, rfl⟩ := List.mem_map.1 hentry
    obtain ⟨name, hname⟩ := exists_ofName?_eq_some hread hitem
    exact (Mnemonic.ofName?_eq_some_iff.1 hname).2 hinvalid

/-- What is reported of definition files. Their lines are not all read exactly if there is a first
line at fault. The error then is the diagnosis of that line, with what is behind it. If the lines
are read but their entries rejected, this is the fault, and no construct was being read. No error
says that more input was expected or that a text has a NUL; none says that a mnemonic is invalid. -/
theorem parse_diagnosis :
    (∀ input : List Char, (∃ e, readItems (C := C) input = .error e) ↔
        ∃ front line rest, input = front ++ (line ++ rest) ∧ FirstFaulty C front line rest) ∧
      (∀ front line rest : List Char, FirstFaulty C front line rest →
        ∃ e, readItems (C := C) (front ++ (line ++ rest)) = .error e ∧
          parse (C := C) (String.ofList (front ++ (line ++ rest))) = .error e ∧
          Diagnosed C line rest e) ∧
      (∀ (source : String) (items : List (Item C)) (error : VocabularyError),
        readItems source.toList = .ok items →
        Vocabulary.ofEntries (items.map Item.entry) = .error error →
          ∃ e, parse (C := C) source = .error e ∧ e.fault? = some (.vocabulary error) ∧
            e.context? = none) ∧
      (∀ (source : String) (e : ParseError), parse (C := C) source = .error e →
        e.frames ≠ [] ∧ (∀ frame ∈ e.frames, frame.cause ≠ .incomplete) ∧
          ∀ text, e.fault? ≠ some (.vocabulary (.containsNul text))) ∧
      ∀ (source : String) (e : ParseError), parse (C := Mnemonic) source = .error e →
        ∀ text, e.fault? ≠ some (.vocabulary (.invalidCode text)) := by
  refine ⟨fun input => ⟨?_, ?_⟩, fun front line rest hfaulty => ?_,
    fun source items error hread hentries => ?_, fun source e => frames_of_parse,
    fun source e => fault?_ne_invalidCode⟩
  · rintro ⟨e, he⟩
    obtain ⟨front, line, rest, inner, hinput, hbad, -⟩ := exists_badLine he
    exact ⟨front, line, rest, hinput, firstFaulty_iff.2 ⟨inner, hbad⟩⟩
  · rintro ⟨front, line, rest, rfl, hfaulty⟩
    obtain ⟨e, hbad⟩ := firstFaulty_iff.1 hfaulty
    exact ⟨_, hbad.readItems_eq⟩
  · obtain ⟨e, hbad⟩ := firstFaulty_iff.1 hfaulty
    refine ⟨_, hbad.readItems_eq, parse_of_readItems_error ?_, hbad.diagnosed⟩
    rw [String.toList_ofList]
    exact hbad.readItems_eq
  · have hparse : parse (C := C) source = .error (.of ((offender? items error).getD [])
        (.fault (.vocabulary error))) := by
      rw [parse_of_readItems hread, hentries]
      rfl
    exact ⟨_, hparse, rfl, rfl⟩

end

end Definition

end KeywordHash
