import KeywordHash.Proofs.Blame
import KeywordHash.Proofs.Linewise

/-!
# Lines that end with a return

A definition file in which every newline gets a return in front of it is read as before. For the
parts of a line this is said by `carries_withReturns`. Blanks and words stop at either of the two
characters, whatever the input (`dropWhile_withReturns`); comments and the ends of lines tell a
return with a newline from one without, so there the input must have no returns of its own. That it
has none lasts while it is read.

With returns, an error has another rest but the place that it had, as a return is the last character
of its line (`foldl_advance_withReturns`). `parse_withReturns` puts this together.
-/

namespace KeywordHash

/-! ## Returns in front of newlines -/

/-- A text with a return in front of every newline. -/
def withReturns (chars : List Char) : List Char :=
  chars.flatMap fun c => if c = '\n' then ['\r', '\n'] else [c]

/-- Nothing has no newlines. -/
@[simp] theorem withReturns_nil : withReturns [] = [] := rfl

/-- A newline gets a return. -/
@[simp] theorem withReturns_newline (rest : List Char) :
    withReturns ('\n' :: rest) = '\r' :: '\n' :: withReturns rest := rfl

/-- Other characters stay as they are. -/
theorem withReturns_cons {c : Char} (hc : c ≠ '\n') (rest : List Char) :
    withReturns (c :: rest) = c :: withReturns rest := by
  rw [withReturns, List.flatMap_cons, if_neg hc]
  rfl

/-- The newlines of two parts get their returns apart. -/
theorem withReturns_append (before rest : List Char) :
    withReturns (before ++ rest) = withReturns before ++ withReturns rest :=
  List.flatMap_append

/-- A text is nothing with returns only if it is nothing. -/
theorem withReturns_eq_nil_iff {chars : List Char} : withReturns chars = [] ↔ chars = [] := by
  rcases chars with _ | ⟨c, rest⟩
  · simp
  · by_cases hc : c = '\n'
    · subst hc
      simp
    · simp [withReturns_cons hc]

/-- Returns at the ends of lines do not move the place behind a text. -/
theorem Location.foldl_advance_withReturns (chars : List Char) (p : Location) :
    (withReturns chars).foldl advance p = chars.foldl advance p := by
  induction chars generalizing p with
  | nil => rfl
  | cons c rest ih =>
    by_cases hc : c = '\n'
    · -- The newline sets the column that the return has moved on.
      subst hc
      exact ih ((p.advance '\r').advance '\n')
    · rw [withReturns_cons hc, List.foldl_cons, List.foldl_cons, ih]

namespace Definition

variable {C : Type}

/-! ## Blanks and words -/

section

variable {p : Char → Bool} (hnewline : p '\n' = false) (hreturn : p '\r' = false)
include hnewline hreturn

/-- Where a newline would not be dropped, nor is its return. -/
theorem dropWhile_withReturns (input : List Char) :
    (withReturns input).dropWhile p = withReturns (input.dropWhile p) := by
  induction input with
  | nil => rfl
  | cons c rest ih =>
    by_cases hc : c = '\n'
    · subst hc
      rw [withReturns_newline, List.dropWhile_cons_of_neg (by simp [hreturn]),
        List.dropWhile_cons_of_neg (by simp [hnewline]), withReturns_newline]
    · rw [withReturns_cons hc, List.dropWhile_cons, List.dropWhile_cons, ih]
      split_ifs with hp
      · rfl
      · rw [withReturns_cons hc]

/-- Where a newline would not be taken, nor is its return. -/
theorem takeWhile_withReturns (input : List Char) :
    (withReturns input).takeWhile p = input.takeWhile p := by
  induction input with
  | nil => rfl
  | cons c rest ih =>
    by_cases hc : c = '\n'
    · subst hc
      rw [withReturns_newline, List.takeWhile_cons_of_neg (by simp [hreturn]),
        List.takeWhile_cons_of_neg (by simp [hnewline])]
    · rw [withReturns_cons hc, List.takeWhile_cons, List.takeWhile_cons, ih]

end

/-- Blanks are skipped as they were. -/
theorem skipBlanks_withReturns (input : List Char) :
    skipBlanks (withReturns input) = withReturns (skipBlanks input) :=
  dropWhile_withReturns (by decide) (by decide) input

/-- A word is read as it was. -/
theorem word?_withReturns (input : List Char) :
    word? (withReturns input) = (word? input).map fun p => (p.1, withReturns p.2) := by
  unfold word?
  rw [takeWhile_withReturns (by decide) (by decide), dropWhile_withReturns (by decide) (by decide)]
  rcases input.takeWhile isWordChar with _ | ⟨c, w⟩
  · rfl
  · rfl

/-- A comma with blanks around it is read as it was. -/
theorem afterComma?_withReturns (input : List Char) :
    afterComma? (withReturns input) = (afterComma? input).map withReturns := by
  unfold afterComma?
  rw [skipBlanks_withReturns]
  rcases skipBlanks input with _ | ⟨c, rest⟩
  · rfl
  by_cases hcomma : c = ','
  · subst hcomma
    exact congrArg some (skipBlanks_withReturns rest)
  by_cases hnewline : c = '\n'
  · subst hnewline
    rfl
  · simp [withReturns_cons hnewline, hcomma]

/-! ## Comments and the ends of lines -/

/-- That there is no return lasts. -/
theorem lasting_return_not_mem : Lasting fun input => '\r' ∉ input :=
  fun _ _ _ hnone hmem => hnone (List.mem_cons_of_mem _ hmem)

section

variable {input : List Char} (h : '\r' ∉ input)
include h

/-- A comment is skipped as it was. -/
theorem skipComment_withReturns :
    skipComment (withReturns input) = withReturns (skipComment input) := by
  rcases input with _ | ⟨c, text⟩
  · rfl
  by_cases hnewline : c = '\n'
  · subst hnewline
    rfl
  by_cases hhash : c = '#'
  · subst hhash
    have htext : '\r' ∉ text := lasting_return_not_mem '#' text (by decide) h
    have hnone : '\r' ∉ text.dropWhile fun c => !isLineBreak c :=
      lasting_return_not_mem.dropWhile htext (by decide)
    have hdrop := dropWhile_withReturns (p := fun c => !isLineBreak c) (by decide) (by decide) text
    rw [withReturns_cons (by decide)]
    unfold skipComment
    simp only [hdrop]
    have hstop := stops_dropWhile (fun c => !isLineBreak c) text
    generalize text.dropWhile (fun c => !isLineBreak c) = left at hnone hstop
    rcases left with _ | ⟨d, rest⟩
    · rfl
    -- The comment stops at a newline, as there are no returns.
    obtain rfl : d = '\n' := by
      have hbreak : isLineBreak d = true := by simpa using hstop d rfl
      have hd : d ≠ '\r' := fun hd => hnone (hd ▸ List.mem_cons_self)
      simpa [isLineBreak, hd] using hbreak
    rfl
  · rw [withReturns_cons hnewline]
    simp [skipComment, hhash, withReturns_cons hnewline]

/-- The end of a line is found as it was. -/
theorem lineEnd?_withReturns : lineEnd? (withReturns input) = (lineEnd? input).map withReturns := by
  rcases input with _ | ⟨c, rest⟩
  · rfl
  by_cases hnewline : c = '\n'
  · subst hnewline
    rfl
  · have hreturn : c ≠ '\r' := fun hc => h (hc ▸ List.mem_cons_self)
    simp [withReturns_cons hnewline, lineEnd?, hnewline, hreturn]

end

/-- No reader minds returns at the ends of lines where there are no others. -/
theorem carries_withReturns : Carries ('\r' ∉ ·) withReturns where
  lasting := lasting_return_not_mem
  skipBlanks _ := skipBlanks_withReturns _
  word? _ := word?_withReturns _
  afterComma? _ := afterComma?_withReturns _
  skipComment := skipComment_withReturns
  lineEnd? := lineEnd?_withReturns

/-! ## Files -/

/-- The lines of a file are read as they were. -/
theorem readItems_withReturns [NamedCode C] {input : List Char} (h : '\r' ∉ input) :
    readItems (C := C) (withReturns input)
      = ((readItems input).map (List.map (Item.mapRest withReturns))).mapError
          (ParseError.mapRest withReturns) := by
  -- Line by line; what a line leaves has no returns either.
  induction hlength : input.length using Nat.strong_induction_on generalizing input with
  | _ n ih =>
    by_cases hne : input = []
    · subst hne
      rw [withReturns_nil, readItems_nil]
      rfl
    have hne' : withReturns input ≠ [] := mt withReturns_eq_nil_iff.1 hne
    have hreturns := carries_withReturns.readLine (C := C) h
    rcases hline : readLine (C := C) input with e | ⟨item?, rest⟩
    · rw [hline] at hreturns
      rw [readItems_of_readLine_error hne hline, readItems_of_readLine_error hne' hreturns]
      rfl
    · rw [hline] at hreturns
      obtain ⟨hsuffix, hshorter⟩ := readLine_suffix hne hline
      have hrest : '\r' ∉ rest := fun hmem => h (hsuffix.mem hmem)
      rw [readItems_of_readLine hne hline, readItems_of_readLine hne' hreturns,
        ih rest.length (hlength ▸ hshorter) hrest rfl]
      rcases readItems (C := C) rest with e | items
      · rfl
      · rcases item? with _ | item
        · rfl
        · rfl

/-! ## Errors -/

/-- The item that a fault is about is the same when the input is changed. -/
theorem offender?_mapRest (f : List Char → List Char) (items : List (Item C))
    (error : VocabularyError) :
    offender? (items.map (Item.mapRest f)) error = (offender? items error).map f := by
  have hnamed : ∀ text : String,
      ((items.map (Item.mapRest f)).filter fun item => item.text = text).map Item.source
        = ((items.filter fun item => item.text = text).map Item.source).map f := by
    intro text
    rw [List.filter_map, List.map_map, List.map_map]
    rfl
  unfold offender?
  rcases error with _ | _ | _ | _ | _ | _
  all_goals simp only [hnamed, List.head?_map, List.getElem?_map, Option.map_none]

/-- What is left from the item on that a fault is about is left from an item on. -/
theorem exists_item_of_offender? {items : List (Item C)} {error : VocabularyError}
    {rest : List Char} (h : offender? items error = some rest) :
    ∃ item ∈ items, item.source = rest := by
  have hnamed : ∀ text : String,
      rest ∈ (items.filter fun item => item.text = text).map Item.source →
        ∃ item ∈ items, item.source = rest := by
    intro text hmem
    obtain ⟨item, hitem, hsource⟩ := List.mem_map.1 hmem
    exact ⟨item, List.mem_of_mem_filter hitem, hsource⟩
  unfold offender? at h
  rcases error with _ | text | text | text | ⟨first, second⟩ | text
  · contradiction
  · exact hnamed text (List.mem_of_head? h)
  · exact hnamed text (List.mem_of_head? h)
  · exact hnamed text (List.mem_of_getElem? h)
  · exact hnamed second (List.mem_of_head? h)
  · exact hnamed text (List.mem_of_head? h)

namespace ParseError

section

variable (f : List Char → List Char) (e : ParseError)

/-- An error tells of the same fault when the input is changed. -/
theorem fault?_mapRest : (e.mapRest f).fault? = e.fault? := by
  unfold fault? mapRest
  rw [List.findSome?_map]
  rfl

/-- It tells of the same construct. -/
theorem context?_mapRest : (e.mapRest f).context? = e.context? := by
  unfold context? mapRest
  rw [← List.map_reverse, List.findSome?_map]
  rfl

/-- It has the same cause. -/
theorem cause_mapRest : (e.mapRest f).innermost.cause = e.innermost.cause := by
  obtain ⟨frames⟩ := e
  rcases frames with _ | ⟨frame, frames⟩
  · rfl
  · rfl

end

/-- The innermost rest of an error gets returns too. -/
theorem rest_mapRest_withReturns (e : ParseError) :
    (e.mapRest withReturns).innermost.rest = withReturns e.innermost.rest := by
  obtain ⟨frames⟩ := e
  rcases frames with _ | ⟨frame, frames⟩
  · rfl
  · rfl

/-- An error is placed where it was. -/
theorem location_mapRest_withReturns {e : ParseError} {source : List Char}
    (h : e.innermost.rest <:+ source) :
    ((e.mapRest withReturns).locate (withReturns source)).location
      = (e.locate source).location := by
  obtain ⟨before, rfl⟩ := h
  have hreturns : withReturns (before ++ e.innermost.rest)
      = withReturns before ++ (e.mapRest withReturns).innermost.rest := by
    rw [withReturns_append, rest_mapRest_withReturns]
  rw [location_of_suffix hreturns, location_of_suffix rfl]
  exact Location.foldl_advance_withReturns before Location.origin

end ParseError

section

variable [NamedCode C] [DecidableEq C] [Code C]

/-- The rest of an error is an end of the file. -/
theorem rest_suffix_of_parse {source : String} {e : ParseError}
    (h : parse (C := C) source = .error e) : e.innermost.rest <:+ source.toList := by
  rcases parse_eq_error h with hread | ⟨items, error, hread, -, rfl⟩
  · exact rest_suffix_of_readItems hread
  · show (offender? items error).getD [] <:+ source.toList
    rcases hoffender : offender? items error with _ | rest
    · exact List.nil_suffix
    · obtain ⟨item, hitem, rfl⟩ := exists_item_of_offender? hoffender
      exact source_suffix_of_mem hread hitem

/-- A file is read as it was, to the same vocabulary or to the error with returns. -/
theorem parse_ofList_withReturns {source : String} (h : '\r' ∉ source.toList) :
    parse (C := C) (String.ofList (withReturns source.toList))
      = (parse source).mapError (ParseError.mapRest withReturns) := by
  have hreturns := readItems_withReturns (C := C) h
  rw [← String.toList_ofList (l := withReturns source.toList)] at hreturns
  rcases hread : readItems (C := C) source.toList with e | items
  · rw [hread] at hreturns
    rw [parse_of_readItems_error hread, parse_of_readItems_error hreturns]
    rfl
  · rw [hread] at hreturns
    -- Entries do not depend on what is left of the file.
    have hentries : (items.map (Item.mapRest withReturns)).map Item.entry
        = items.map Item.entry := by
      rw [List.map_map]
      rfl
    rw [parse_of_readItems hread, parse_of_readItems hreturns, hentries]
    rcases Vocabulary.ofEntries (items.map Item.entry) with error | v
    · simp only [Except.mapError, offender?_mapRest]
      rcases offender? items error with _ | rest
      · rfl
      · rfl
    · rfl

/-- How lines end does not matter. A file without returns and the one that has a return in front of
every newline are the same vocabulary, or both are in error, for the same fault, in the same
construct, and at the same line and column. -/
theorem parse_withReturns (source : String) (h : '\r' ∉ source.toList) :
    (∀ v : Vocabulary C, parse source = .ok v ↔
        parse (String.ofList (withReturns source.toList)) = .ok v) ∧
      ∀ e, parse (C := C) source = .error e →
        ∃ e', parse (C := C) (String.ofList (withReturns source.toList)) = .error e' ∧
          e'.fault? = e.fault? ∧ e'.context? = e.context? ∧
          e'.innermost.cause = e.innermost.cause ∧
          (e'.locate (withReturns source.toList)).location
            = (e.locate source.toList).location := by
  rw [parse_ofList_withReturns h]
  refine ⟨fun v => ?_, fun e he => ⟨e.mapRest withReturns, ?_, e.fault?_mapRest withReturns,
    e.context?_mapRest withReturns, e.cause_mapRest withReturns,
    ParseError.location_mapRest_withReturns (rest_suffix_of_parse he)⟩⟩
  · rcases parse (C := C) source with e | v'
    · simp [Except.mapError]
    · rfl
  · rw [he]
    rfl

end

/-- A second line with something behind its entry is in error there, also when the lines end with
returns. -/
theorem withReturns_secondLine :
    ∃ e, parse (C := IntCode) "a, 1\r\nb, 2 c\r\n" = .error e ∧ e.fault? = none ∧
      e.context? = some "entry" ∧ (e.locate "a, 1\r\nb, 2 c\r\n".toList).location = ⟨2, 6⟩ := by
  have hlater : readItems (C := IntCode) "b, 2 c\n".toList = .error _ :=
    readItems_of_readLine_error (by decide) rfl
  have hread : readItems (C := IntCode) "a, 1\nb, 2 c\n".toList = .error _ :=
    (readItems_of_readLine (by decide) rfl).trans (congrArg (Except.map _) hlater)
  obtain ⟨-, herror⟩ := parse_withReturns (C := IntCode) "a, 1\nb, 2 c\n" (by decide)
  obtain ⟨e, he, hfault, hcontext, -, hplace⟩ := herror _ (parse_of_readItems_error hread)
  exact ⟨e, he, hfault, hcontext, hplace⟩

end Definition

end KeywordHash
