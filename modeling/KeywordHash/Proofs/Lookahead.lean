import KeywordHash.Proofs.Parsing

/-!
# No reader looks past the newline

A line is read the same whatever comes after its newline: with more input behind, the same is read
and the more is left over (`readLine_append`). So each reader is compared with itself on an input
that goes on, `followedBy` being what the input that is left, an item or an error then is.

What is left of an input while a line is read keeps two properties, that it is an end of the input
and that the newline is in it. Both last as long as only other characters are read (`Lasting`).

More input behind is one way to change an input. Whatever the change, if the readers of blanks,
words, commas, comments and line ends read the same of the changed input and leave what they left,
changed (`Carries`), the reader of lines does so too (`Carries.readLine`).
-/

namespace KeywordHash

namespace Definition

variable {C : Type}

/-! ## Changed inputs -/

/-- An item when the input is changed. -/
def Item.mapRest (f : List Char → List Char) (item : Item C) : Item C :=
  { item with source := f item.source }

/-- A frame when the input is changed. -/
def Frame.mapRest (f : List Char → List Char) (frame : Frame) : Frame :=
  { frame with rest := f frame.rest }

/-- An error when the input is changed. -/
def ParseError.mapRest (f : List Char → List Char) (e : ParseError) : ParseError :=
  ⟨e.frames.map (Frame.mapRest f)⟩

/-- What stands where an entry may stand when the input is changed. -/
def Reading.mapRest (f : List Char → List Char) : Reading C → Reading C
  | .nothing => .nothing
  | .entry item rest => .entry (item.mapRest f) (f rest)
  | .unknownCode name source => .unknownCode name (f source)

/-- What a line is read as when the input is changed. -/
def lineMapRest (f : List Char → List Char)
    (result : Except ParseError (Option (Item C) × List Char)) :
    Except ParseError (Option (Item C) × List Char) :=
  (result.map fun line => (line.1.map (Item.mapRest f), f line.2)).mapError (ParseError.mapRest f)

/-! ## More input behind -/

/-- An item when more input follows. -/
def Item.followedBy (more : List Char) (item : Item C) : Item C :=
  { item with source := item.source ++ more }

/-- A frame when more input follows. -/
def Frame.followedBy (more : List Char) (frame : Frame) : Frame :=
  { frame with rest := frame.rest ++ more }

/-- An error when more input follows. -/
def ParseError.followedBy (more : List Char) (e : ParseError) : ParseError :=
  ⟨e.frames.map (Frame.followedBy more)⟩

/-- What a line is read as when more input follows. -/
def lineFollowedBy (more : List Char) (result : Except ParseError (Option (Item C) × List Char)) :
    Except ParseError (Option (Item C) × List Char) :=
  (result.map fun line => (line.1.map (Item.followedBy more), line.2 ++ more)).mapError
    (ParseError.followedBy more)

/-- An error that nothing follows. -/
theorem ParseError.followedBy_nil (e : ParseError) : e.followedBy [] = e := by
  have hframe : Frame.followedBy [] = id := by
    funext frame
    simp [Frame.followedBy]
  rw [followedBy, hframe, List.map_id]

/-- A computation in `Except` that is mapped to an error was in error. -/
theorem eq_error_of_map_eq_error {ε α β : Type} {f : α → β} {x : Except ε α} {e : ε}
    (h : x.map f = .error e) : x = .error e := by
  rcases x with e' | a
  · obtain rfl := Except.error.inj h
    rfl
  · contradiction

/-! ## What is left while a line is read -/

/-- A property of inputs that lasts when a character other than the newline is read. -/
def Lasting (P : List Char → Prop) : Prop := ∀ c rest, c ≠ '\n' → P (c :: rest) → P rest

/-- That there is a newline lasts. -/
theorem lasting_newline_mem : Lasting fun input => '\n' ∈ input :=
  fun _ _ hc hmem => List.mem_of_ne_of_mem hc.symm hmem

/-- To be an end of a text lasts. -/
theorem lasting_suffix (text : List Char) : Lasting fun input => input <:+ text :=
  fun c rest _ hsuffix => (List.suffix_cons c rest).trans hsuffix

section

variable {P : List Char → Prop} (hP : Lasting P) {input : List Char} (h : P input)
include hP h

/-- It lasts when characters other than the newline are dropped. -/
theorem Lasting.dropWhile {p : Char → Bool} (hp : p '\n' = false) : P (input.dropWhile p) := by
  induction input with
  | nil => exact h
  | cons c rest ih =>
    rw [List.dropWhile_cons]
    split_ifs with hc
    · have hne : c ≠ '\n' := by
        rintro rfl
        rw [hp] at hc
        contradiction
      exact ih (hP c rest hne h)
    · exact h

/-- It lasts when blanks are skipped. -/
theorem Lasting.skipBlanks : P (skipBlanks input) := hP.dropWhile h (by decide)

/-- It lasts when a word is read. -/
theorem Lasting.word? {w rest : List Char} (hw : word? input = some (w, rest)) : P rest := by
  unfold Definition.word? at hw
  split at hw
  · contradiction
  · obtain ⟨-, rfl⟩ := Prod.mk.inj (Option.some.inj hw)
    exact hP.dropWhile h (by decide)

/-- It lasts when a comma is read. -/
theorem Lasting.afterComma? {rest : List Char} (hcomma : afterComma? input = some rest) :
    P rest := by
  have hblanks := hP.skipBlanks h
  unfold Definition.afterComma? at hcomma
  split at hcomma
  · next tail hskip =>
    obtain rfl := Option.some.inj hcomma
    rw [hskip] at hblanks
    exact hP.skipBlanks (hP ',' tail (by decide) hblanks)
  · contradiction

/-- It lasts when the parts of an entry are read, for what is left from the name on and for what is
left behind the entry. -/
theorem Lasting.entryParts? {text name source rest : List Char}
    (hparts : entryParts? input = some (text, name, source, rest)) : P source ∧ P rest := by
  unfold Definition.entryParts? at hparts
  split at hparts
  · contradiction
  · next hword =>
    have hafter := hP.word? h hword
    split at hparts
    · cases hparts
      exact ⟨h, hafter⟩
    · next hcomma =>
      have hsource := hP.afterComma? hafter hcomma
      split at hparts
      · contradiction
      · next hname =>
        cases hparts
        exact ⟨hsource, hP.word? hsource hname⟩

/-- It lasts when a comment is skipped. -/
theorem Lasting.skipComment : P (skipComment input) := by
  unfold Definition.skipComment
  split
  · next text =>
    have hdrop : P (text.dropWhile fun c => !isLineBreak c) :=
      hP.dropWhile (hP '#' text (by decide) h) (by decide)
    split
    · next heq => rwa [heq] at hdrop
    · next heq => rwa [heq] at hdrop
    · next heq => rwa [heq] at hdrop
    · exact h
  · exact h

/-- It lasts when an entry is read. -/
theorem Lasting.entry [NamedCode C] {item : Item C} {rest : List Char}
    (hentry : readEntry input = .entry item rest) : P rest := by
  unfold readEntry entryHere at hentry
  split at hentry
  · contradiction
  · next hparts =>
    split at hentry
    · obtain ⟨-, rfl⟩ := Reading.entry.inj hentry
      exact (hP.entryParts? (hP.skipBlanks h) hparts).2
    · contradiction

/-- It lasts up to the name of an unknown code. -/
theorem Lasting.unknownCode [NamedCode C] {name : String} {source : List Char}
    (hentry : readEntry (C := C) input = .unknownCode name source) : P source := by
  unfold readEntry entryHere at hentry
  split at hentry
  · contradiction
  · next hparts =>
    split at hentry
    · contradiction
    · obtain ⟨-, rfl⟩ := Reading.unknownCode.inj hentry
      exact (hP.entryParts? (hP.skipBlanks h) hparts).1

/-- It lasts up to where the end of a line is in error. -/
theorem Lasting.endOfLine {e : ParseError} (hend : endOfLine input = .error e) :
    e = (ParseError.of (Definition.skipComment (Definition.skipBlanks input))
        (.unexpected .endOfInput)).seeking
      (Definition.skipComment (Definition.skipBlanks input)) .lineEnd ∧
      P (Definition.skipComment (Definition.skipBlanks input)) := by
  refine ⟨?_, hP.skipComment (hP.skipBlanks h)⟩
  unfold Definition.endOfLine closeLine at hend
  split at hend
  · contradiction
  · exact (Except.error.inj hend).symm

/-- It lasts up to where a line is in error. -/
theorem Lasting.readLine [NamedCode C] {e : ParseError}
    (hline : readLine (C := C) input = .error e) : P e.innermost.rest := by
  unfold Definition.readLine at hline
  rcases hfinish : finishLine input (readEntry (C := C) input) with inner | line
  · rw [hfinish] at hline
    obtain rfl := Except.error.inj hline
    unfold finishLine at hfinish
    split at hfinish
    · obtain ⟨rfl, hstop⟩ := hP.endOfLine h (eq_error_of_map_eq_error hfinish)
      exact hstop
    · next hentry =>
      obtain ⟨rfl, hstop⟩ := hP.endOfLine (hP.entry h hentry) (eq_error_of_map_eq_error hfinish)
      exact hstop
    · next hentry =>
      obtain rfl := Except.error.inj hfinish
      exact hP.unknownCode h hentry
  · rw [hfinish] at hline
    contradiction

end

/-! ## Reading a line of a changed input -/

/-- Of inputs with a property, the readers of the parts of a line read the same when the input is
changed, and leave what they left, changed. -/
structure Carries (P : List Char → Prop) (f : List Char → List Char) : Prop where
  /-- The property lasts. -/
  lasting : Lasting P
  /-- Blanks are skipped the same. -/
  skipBlanks : ∀ {input}, P input → skipBlanks (f input) = f (skipBlanks input)
  /-- A word is read the same. -/
  word? : ∀ {input}, P input → word? (f input) = (word? input).map fun p => (p.1, f p.2)
  /-- A comma with blanks around it is read the same. -/
  afterComma? : ∀ {input}, P input → afterComma? (f input) = (afterComma? input).map f
  /-- A comment is skipped the same. -/
  skipComment : ∀ {input}, P input → skipComment (f input) = f (skipComment input)
  /-- The end of a line is found the same. -/
  lineEnd? : ∀ {input}, P input → lineEnd? (f input) = (lineEnd? input).map f

section

variable {P : List Char → Prop} {f : List Char → List Char} (hf : Carries P f)
variable {input : List Char} (h : P input)
include hf h

/-- The end of a line is read the same. -/
theorem Carries.endOfLine : endOfLine (f input)
    = ((endOfLine input).map f).mapError (ParseError.mapRest f) := by
  have hblanks := hf.lasting.skipBlanks h
  have hcomment := hf.lasting.skipComment hblanks
  unfold Definition.endOfLine closeLine
  rw [hf.skipBlanks h, hf.skipComment hblanks, hf.lineEnd? hcomment]
  rcases Definition.lineEnd? (Definition.skipComment (Definition.skipBlanks input)) with _ | rest
  · rfl
  · rfl

/-- The parts of an entry are read the same. -/
theorem Carries.entryParts? : entryParts? (f input)
    = (entryParts? input).map fun p => (p.1, p.2.1, f p.2.2.1, f p.2.2.2) := by
  unfold Definition.entryParts?
  rw [hf.word? h]
  rcases hword : Definition.word? input with _ | ⟨text, afterText⟩
  · rfl
  have hafter := hf.lasting.word? h hword
  simp only [Option.map_some, hf.afterComma? hafter]
  rcases hcomma : Definition.afterComma? afterText with _ | source
  · rfl
  have hsource := hf.lasting.afterComma? hafter hcomma
  simp only [Option.map_some, hf.word? hsource]
  rcases Definition.word? source with _ | ⟨name, rest⟩
  · rfl
  · rfl

variable [NamedCode C]

/-- An entry is read the same. -/
theorem Carries.readEntry : readEntry (C := C) (f input) = (readEntry input).mapRest f := by
  unfold Definition.readEntry entryHere
  rw [hf.skipBlanks h, hf.entryParts? (hf.lasting.skipBlanks h)]
  rcases Definition.entryParts? (Definition.skipBlanks input) with _ | ⟨text, name, source, rest⟩
  · rfl
  simp only [Option.map_some]
  rcases NamedCode.ofName? (C := C) (String.ofList name) with _ | code
  · rfl
  · rfl

/-- A line is read the same. -/
theorem Carries.readLine : readLine (C := C) (f input) = lineMapRest f (readLine input) := by
  have hfinish : finishLine (f input) ((Definition.readEntry (C := C) input).mapRest f)
      = lineMapRest f (finishLine input (Definition.readEntry input)) := by
    rcases hentry : Definition.readEntry (C := C) input with _ | ⟨item, rest⟩ | ⟨name, source⟩
    · simp only [Reading.mapRest, finishLine, hf.endOfLine h]
      rcases Definition.endOfLine input with e | rest
      · rfl
      · rfl
    · -- The line goes on behind the entry, where the property still holds.
      have hrest := hf.lasting.entry h hentry
      simp only [Reading.mapRest, finishLine, hf.endOfLine hrest]
      rcases Definition.endOfLine rest with e | rest'
      · rfl
      · rfl
    · rfl
  unfold Definition.readLine
  rw [hf.readEntry h, hfinish]
  rcases finishLine input (Definition.readEntry (C := C) input) with e | line
  · simp [lineMapRest, Except.map, Except.mapError, ParseError.within, ParseError.mapRest,
      Frame.mapRest]
  · rfl

end

/-! ## Reading a line with more behind it -/

section

variable {input : List Char} (h : '\n' ∈ input) (more : List Char)
include h

/-- Characters other than the newline are dropped without looking at what follows. -/
theorem dropWhile_append_more {p : Char → Bool} (hp : p '\n' = false) :
    (input ++ more).dropWhile p = input.dropWhile p ++ more := by
  have hmem : '\n' ∈ input.dropWhile p := lasting_newline_mem.dropWhile h hp
  -- The newline is left, so nothing is dropped of what follows.
  rw [List.dropWhile_append, if_neg]
  rw [List.isEmpty_iff]
  exact List.ne_nil_of_mem hmem

/-- Characters other than the newline are taken without looking at what follows. -/
theorem takeWhile_append_more {p : Char → Bool} (hp : p '\n' = false) :
    (input ++ more).takeWhile p = input.takeWhile p := by
  have hmem : '\n' ∈ input.dropWhile p := lasting_newline_mem.dropWhile h hp
  have hpos := List.length_pos_of_mem hmem
  have hlength := congrArg List.length (takeWhile_append_skip p input)
  rw [List.length_append] at hlength
  -- The newline is left, so not all of the input is taken.
  rw [List.takeWhile_append, if_neg (by omega)]

/-- Blanks are skipped without looking at what follows. -/
theorem skipBlanks_append : skipBlanks (input ++ more) = skipBlanks input ++ more :=
  dropWhile_append_more h more (by decide)

/-- A word is read without looking at what follows. -/
theorem word?_append : word? (input ++ more) = (word? input).map fun p => (p.1, p.2 ++ more) := by
  unfold word?
  rw [takeWhile_append_more h more (by decide), dropWhile_append_more h more (by decide)]
  rcases input.takeWhile isWordChar with _ | ⟨c, w⟩
  · rfl
  · rfl

/-- A comma with blanks around it is read without looking at what follows. -/
theorem afterComma?_append :
    afterComma? (input ++ more) = (afterComma? input).map (· ++ more) := by
  have hmem : '\n' ∈ skipBlanks input := lasting_newline_mem.skipBlanks h
  unfold afterComma?
  rw [skipBlanks_append h]
  generalize skipBlanks input = left at hmem
  rcases left with _ | ⟨c, rest⟩
  · contradiction
  by_cases hc : c = ','
  · subst hc
    have hrest : '\n' ∈ rest := lasting_newline_mem ',' rest (by decide) hmem
    exact congrArg some (skipBlanks_append hrest more)
  · simp [hc]

/-- A comment is skipped without looking at what follows. -/
theorem skipComment_append : skipComment (input ++ more) = skipComment input ++ more := by
  rcases input with _ | ⟨c, text⟩
  · contradiction
  by_cases hc : c = '#'
  · subst hc
    have htext : '\n' ∈ text := lasting_newline_mem '#' text (by decide) h
    have hmem : '\n' ∈ text.dropWhile fun c => !isLineBreak c :=
      lasting_newline_mem.dropWhile htext (by decide)
    have hdrop := dropWhile_append_more htext more (p := fun c => !isLineBreak c) (by decide)
    unfold skipComment
    simp only [List.cons_append, hdrop]
    generalize text.dropWhile (fun c => !isLineBreak c) = left at hmem
    rcases left with _ | ⟨d, rest⟩
    · contradiction
    by_cases hnewline : d = '\n'
    · subst hnewline
      rfl
    by_cases hreturn : d = '\r'
    · subst hreturn
      -- The newline is further on, so the return is not the last character that is known.
      rcases rest with _ | ⟨e, rest⟩
      · exact absurd hmem (by decide)
      by_cases he : e = '\n'
      · subst he
        rfl
      · simp [he]
    · simp [hnewline, hreturn]
  · simp [skipComment, hc]

/-- The end of a line is found without looking at what follows. -/
theorem lineEnd?_append : lineEnd? (input ++ more) = (lineEnd? input).map (· ++ more) := by
  rcases input with _ | ⟨c, rest⟩
  · contradiction
  by_cases hnewline : c = '\n'
  · subst hnewline
    rfl
  by_cases hreturn : c = '\r'
  · subst hreturn
    rcases rest with _ | ⟨d, rest⟩
    · exact absurd h (by decide)
    by_cases hd : d = '\n'
    · subst hd
      rfl
    · simp [lineEnd?, hd]
  · simp [lineEnd?, hnewline, hreturn]

end

/-- No reader looks at what follows a newline. -/
theorem carries_append (more : List Char) : Carries ('\n' ∈ ·) (· ++ more) where
  lasting := lasting_newline_mem
  skipBlanks h := skipBlanks_append h more
  word? h := word?_append h more
  afterComma? h := afterComma?_append h more
  skipComment h := skipComment_append h more
  lineEnd? h := lineEnd?_append h more

/-- A line is read without looking at what follows: more input behind it is left over. -/
theorem readLine_append [NamedCode C] {input : List Char} (h : '\n' ∈ input) (more : List Char) :
    readLine (C := C) (input ++ more) = lineFollowedBy more (readLine input) :=
  (carries_append more).readLine h

end Definition

end KeywordHash
