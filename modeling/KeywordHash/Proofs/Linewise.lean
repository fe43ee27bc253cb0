import KeywordHash.Proofs.Location
import KeywordHash.Proofs.Lookahead

/-!
# Definition files line by line

As no reader of a line looks past the newline, lines that are read do not matter to how the file
goes on (`readItems_append`): the items of both parts come one after the other, and an error in the
second part is the error of the file, as many lines further down as the first part has
(`locate_append`). A file therefore is in error exactly if it has a line that is, and the error is
that of the first one (`readItems_eq_error_iff`); `parse_linewise` puts this together.
-/

namespace KeywordHash

namespace Definition

variable {C : Type}

/-! ## Lines in front -/

/-- A text that is empty or ends with a newline. -/
def Whole (text : List Char) : Prop := text = [] ∨ ∃ lines, text = lines ++ ['\n']

/-- An end of such a text is such a text. -/
theorem Whole.of_suffix {text rest : List Char} (h : Whole text) (hrest : rest <:+ text) :
    Whole rest := by
  rcases h with rfl | ⟨lines, rfl⟩
  · exact .inl (List.suffix_nil.1 hrest)
  · rcases List.suffix_concat_iff.1 hrest with rfl | ⟨lines', rfl, -⟩
    · exact .inl rfl
    · exact .inr ⟨lines', rfl⟩

/-- Two such texts, one behind the other, are such a text. -/
theorem Whole.append {text text' : List Char} (h : Whole text) (h' : Whole text') :
    Whole (text ++ text') := by
  rcases h' with rfl | ⟨lines, rfl⟩
  · rwa [List.append_nil]
  · exact .inr ⟨text ++ lines, (List.append_assoc _ _ _).symm⟩

/-- Such a text has a newline, unless it is empty. -/
theorem Whole.newline_mem {text : List Char} (h : Whole text) (hne : text ≠ []) :
    '\n' ∈ text := by
  obtain ⟨lines, rfl⟩ := h.resolve_left hne
  exact List.mem_append_right lines List.mem_cons_self

section

variable [NamedCode C]

/-- Nothing is read of the line that the end of the input is. -/
theorem readLine_nil : readLine (C := C) [] = .ok (none, []) := rfl

/-- A file is in error where its first line is. -/
theorem readItems_of_readLine_error {input : List Char} {e : ParseError} (hne : input ≠ [])
    (h : readLine (C := C) input = .error e) : readItems (C := C) input = .error e := by
  rw [readItems, dif_neg hne]
  split
  · next heq =>
    obtain rfl := Except.error.inj (h.symm.trans heq)
    rfl
  · next heq => exact absurd (h.symm.trans heq) (by simp)

/-- A file is read by reading its first line and then the others. -/
theorem readItems_eq_ok {input : List Char} {items : List (Item C)} (hne : input ≠ [])
    (h : readItems input = .ok items) :
    ∃ item? rest later, readLine input = .ok (item?, rest) ∧ readItems rest = .ok later ∧
      items = item?.toList ++ later := by
  rcases hline : readLine (C := C) input with e | ⟨item?, rest⟩
  · rw [readItems_of_readLine_error hne hline] at h
    contradiction
  · rw [readItems_of_readLine hne hline] at h
    obtain ⟨later, hlater, rfl⟩ := eq_ok_of_map_eq_ok h
    exact ⟨item?, rest, later, rfl, hlater, rfl⟩

/-- Lines that are read do not matter to how the file goes on. -/
theorem readItems_append {front : List Char} {items : List (Item C)} (hfront : Whole front)
    (h : readItems front = .ok items) (back : List Char) :
    readItems (front ++ back)
      = (readItems back).map fun later => items.map (Item.followedBy back) ++ later := by
  -- Line by line; what a line of the front leaves is a front again.
  induction hlength : front.length using Nat.strong_induction_on generalizing front items with
  | _ n ih =>
    by_cases hne : front = []
    · subst hne
      rw [readItems_nil] at h
      obtain rfl := Except.ok.inj h
      rw [List.nil_append]
      rcases readItems (C := C) back with e | later
      · rfl
      · rfl
    · obtain ⟨item?, rest, later, hline, hlater, rfl⟩ := readItems_eq_ok hne h
      obtain ⟨hsuffix, hshorter⟩ := readLine_suffix hne hline
      have hmore : readLine (front ++ back)
          = .ok (item?.map (Item.followedBy back), rest ++ back) := by
        rw [readLine_append (hfront.newline_mem hne), hline]
        rfl
      have hrest := ih rest.length (hlength ▸ hshorter) (hfront.of_suffix hsuffix) hlater rfl
      rw [readItems_of_readLine (by simp [hne]) hmore, hrest]
      rcases readItems (C := C) back with e | later'
      · rfl
      · rcases item? with _ | item
        · rfl
        · rfl

/-! ## The first line in error -/

/-- An error of a line has a frame. -/
theorem frames_ne_nil_of_readLine {input : List Char} {e : ParseError}
    (h : readLine (C := C) input = .error e) : e.frames ≠ [] := by
  unfold readLine at h
  rcases hfinish : finishLine input (readEntry (C := C) input) with inner | line
  · rw [hfinish] at h
    obtain rfl := Except.error.inj h
    exact List.append_ne_nil_of_right_ne_nil _ (List.cons_ne_nil _ _)
  · rw [hfinish] at h
    contradiction

/-- More input behind an error is more input behind its innermost frame. -/
theorem ParseError.rest_followedBy {e : ParseError} (h : e.frames ≠ []) (more : List Char) :
    (e.followedBy more).innermost.rest = e.innermost.rest ++ more := by
  obtain ⟨frame, frames, hframes⟩ := List.exists_cons_of_ne_nil h
  simp [innermost, followedBy, hframes, Frame.followedBy]

variable (C) in
/-- A line that is in error, behind lines that are read. -/
structure BadLine (front line rest : List Char) (e : ParseError) : Prop where
  /-- In front of it there is nothing, or something that ends with a newline. -/
  whole : Whole front
  /-- What is in front of it is read. -/
  read : ∃ items : List (Item C), readItems front = .ok items
  /-- It is one line: a newline is at its end and nowhere else, or nothing comes after it. -/
  single : ∃ chars, '\n' ∉ chars ∧ (line = chars ++ ['\n'] ∨ line = chars ∧ rest = [])
  /-- Read alone it gives the error. -/
  error : readLine (C := C) line = .error e

/-- The error of a line in error, behind lines that are read, is the error of the file. -/
theorem BadLine.readItems_eq {front line rest : List Char} {e : ParseError}
    (h : BadLine C front line rest e) :
    readItems (C := C) (front ++ (line ++ rest)) = .error (e.followedBy rest) := by
  obtain ⟨items, hitems⟩ := h.read
  have hne : line ≠ [] := by
    rintro rfl
    exact absurd h.error (by simp [readLine_nil])
  have hline : readLine (C := C) (line ++ rest) = .error (e.followedBy rest) := by
    obtain ⟨chars, -, rfl | ⟨rfl, rfl⟩⟩ := h.single
    · have hmem : '\n' ∈ chars ++ ['\n'] := List.mem_append_right _ List.mem_cons_self
      rw [readLine_append hmem, h.error]
      rfl
    · rw [List.append_nil, e.followedBy_nil]
      exact h.error
  rw [readItems_append h.whole hitems, readItems_of_readLine_error (by simp [hne]) hline]
  rfl

/-- A line that is read and leaves something that is in error ends with a newline, and read alone it
leaves nothing. -/
theorem exists_first {input left : List Char} {item? : Option (Item C)} {e : ParseError}
    (hline : readLine input = .ok (item?, left)) (hleft : readItems (C := C) left = .error e) :
    ∃ first, Whole first ∧ input = first ++ left ∧
      ∃ items : List (Item C), readItems first = .ok items := by
  obtain ⟨line, tail, hinput, hends, -⟩ := readLine_sound hline
  rcases hends with _ | ⟨ending, left⟩
  · -- At the end of the input nothing is left that could be in error.
    rw [readItems_nil] at hleft
    contradiction
  · have hwhole : Whole (line.chars ++ ending.chars) := by
      rcases ending with _ | _
      · exact .inr ⟨line.chars, rfl⟩
      · exact .inr ⟨line.chars ++ ['\r'], by simp [Break.chars]⟩
    have hne : line.chars ++ ending.chars ≠ [] := by
      rcases ending with _ | _
      · simp [Break.chars]
      · simp [Break.chars]
    rw [← List.append_assoc] at hinput
    rw [hinput, readLine_append (hwhole.newline_mem hne)] at hline
    rcases halone : readLine (C := C) (line.chars ++ ending.chars) with inner | ⟨alone?, nothing⟩
    · rw [halone] at hline
      contradiction
    · rw [halone] at hline
      have hnothing : nothing ++ left = left := (Prod.mk.inj (Except.ok.inj hline)).2
      obtain rfl := List.append_left_eq_self.1 hnothing
      refine ⟨line.chars ++ ending.chars, hwhole, hinput, alone?.toList ++ [], ?_⟩
      rw [readItems_of_readLine hne halone, readItems_nil]
      rfl

/-- An input whose first line is in error starts with that line. -/
theorem exists_badLine_of_readLine {input : List Char} {e : ParseError}
    (h : readLine (C := C) input = .error e) :
    ∃ line rest inner, input = line ++ rest ∧ BadLine C [] line rest inner ∧
      e = inner.followedBy rest := by
  have hnone : ∃ items : List (Item C), readItems [] = .ok items := ⟨[], readItems_nil⟩
  by_cases hmem : '\n' ∈ input
  · obtain ⟨chars, rest, rfl, hchars⟩ := List.eq_append_cons_of_mem hmem
    have hsplit : chars ++ '\n' :: rest = chars ++ ['\n'] ++ rest := by simp
    have hend : '\n' ∈ chars ++ ['\n'] := List.mem_append_right _ List.mem_cons_self
    rw [hsplit, readLine_append hend] at h
    rcases halone : readLine (C := C) (chars ++ ['\n']) with inner | line
    · rw [halone] at h
      exact ⟨chars ++ ['\n'], rest, inner, hsplit,
        ⟨.inl rfl, hnone, ⟨chars, hchars, .inl rfl⟩, halone⟩, (Except.error.inj h).symm⟩
    · rw [halone] at h
      contradiction
  · exact ⟨input, [], e, (List.append_nil input).symm,
      ⟨.inl rfl, hnone, ⟨input, hmem, .inr ⟨rfl, rfl⟩⟩, h⟩, e.followedBy_nil.symm⟩

/-- A line in error is so behind more lines that are read. -/
theorem BadLine.behind {first front line rest : List Char} {e : ParseError}
    (h : BadLine C front line rest e) {items : List (Item C)} (hfirst : Whole first)
    (hitems : readItems first = .ok items) : BadLine C (first ++ front) line rest e := by
  obtain ⟨later, hlater⟩ := h.read
  have hread : readItems (first ++ front)
      = .ok (items.map (Item.followedBy front) ++ later) := by
    rw [readItems_append hfirst hitems, hlater]
    rfl
  exact ⟨hfirst.append h.whole, ⟨_, hread⟩, h.single, h.error⟩

/-- Every error of a file is the one of a line in error behind lines that are read. -/
theorem exists_badLine {input : List Char} {e : ParseError}
    (h : readItems (C := C) input = .error e) :
    ∃ front line rest inner, input = front ++ (line ++ rest) ∧ BadLine C front line rest inner ∧
      e = inner.followedBy rest := by
  -- Line by line, up to the first that is in error.
  induction hlength : input.length using Nat.strong_induction_on generalizing input with
  | _ n ih =>
    have hne : input ≠ [] := by
      rintro rfl
      exact absurd h (by simp [readItems_nil])
    rcases hline : readLine (C := C) input with inner | ⟨item?, left⟩
    · obtain rfl := Except.error.inj ((readItems_of_readLine_error hne hline).symm.trans h)
      obtain ⟨line, rest, alone, hinput, hbad, halone⟩ := exists_badLine_of_readLine hline
      exact ⟨[], line, rest, alone, hinput, hbad, halone⟩
    · have hshorter := readLine_shorter hne hline
      have hleft : readItems (C := C) left = .error e := by
        rw [readItems_of_readLine hne hline] at h
        exact eq_error_of_map_eq_error h
      obtain ⟨front, line, rest, inner, hrest, hbad, he⟩ :=
        ih left.length (hlength ▸ hshorter) hleft rfl
      obtain ⟨first, hfirst, hinput, items, hitems⟩ := exists_first hline hleft
      refine ⟨first ++ front, line, rest, inner, ?_, hbad.behind hfirst hitems, he⟩
      rw [hinput, hrest, List.append_assoc]

/-- A file is in error exactly if a line of it is, behind lines that are read; the error is that of
the line. -/
theorem readItems_eq_error_iff {input : List Char} {e : ParseError} :
    readItems (C := C) input = .error e ↔
      ∃ front line rest inner, input = front ++ (line ++ rest) ∧ BadLine C front line rest inner ∧
        e = inner.followedBy rest := by
  constructor
  · exact exists_badLine
  · rintro ⟨front, line, rest, inner, rfl, hbad, rfl⟩
    exact hbad.readItems_eq

/-- The rest of an error of a file is an end of the file. -/
theorem rest_suffix_of_readItems {input : List Char} {e : ParseError}
    (h : readItems (C := C) input = .error e) : e.innermost.rest <:+ input := by
  obtain ⟨front, line, rest, inner, rfl, hbad, rfl⟩ := exists_badLine h
  obtain ⟨before, hbefore⟩ : inner.innermost.rest <:+ line :=
    (lasting_suffix line).readLine List.suffix_rfl hbad.error
  rw [ParseError.rest_followedBy (frames_ne_nil_of_readLine hbad.error)]
  exact ⟨front ++ before, by rw [← hbefore]; simp⟩

end

/-! ## Places -/

/-- The place behind lines is the start of the next one. -/
theorem Whole.after_eq {text : List Char} (h : Whole text) :
    Location.after text = ⟨text.count '\n' + 1, 1⟩ := by
  rcases h with rfl | ⟨lines, rfl⟩
  · rfl
  · have hline : (Location.after lines).line = lines.count '\n' + 1 := by
      rw [Location.after, Location.line_foldl, Nat.add_comm]
      rfl
    have hcount : (lines ++ ['\n']).count '\n' = lines.count '\n' + 1 := by simp
    calc Location.after (lines ++ ['\n'])
        = (Location.after lines).advance '\n' := by
          rw [Location.after, List.foldl_append]
          rfl
      _ = ⟨(Location.after lines).line + 1, 1⟩ := by rw [Location.advance, if_pos rfl]
      _ = ⟨(lines ++ ['\n']).count '\n' + 1, 1⟩ := by rw [hline, hcount]

/-- Lines in front of a text move all its places down. -/
theorem Whole.after_append {front : List Char} (h : Whole front) (before : List Char) :
    Location.after (front ++ before)
      = ⟨(Location.after before).line + front.count '\n', (Location.after before).column⟩ := by
  have hfront := h.after_eq
  have hshift := Location.foldl_advance_below before Location.origin (front.count '\n')
  unfold Location.after at *
  rw [List.foldl_append, hfront, ← hshift, Nat.add_comm]
  rfl

/-- Lines in front of the text that an error arose in move its place down and change nothing else of
what is reported. -/
theorem ParseError.locate_append {e : ParseError} {front back : List Char} (hfront : Whole front)
    (h : e.innermost.rest <:+ back) :
    e.locate (front ++ back)
      = { e.locate back with
          location := ⟨(e.locate back).location.line + front.count '\n',
            (e.locate back).location.column⟩ } := by
  obtain ⟨before, hbefore⟩ := h
  have hsplit : front ++ back = (front ++ before) ++ e.innermost.rest := by
    rw [← hbefore, List.append_assoc]
  rw [locate_of_suffix hsplit, locate_of_suffix hbefore.symm, hfront.after_append]

section

variable [NamedCode C]

/-- The newline of a line in error is not in front of its error. -/
theorem BadLine.newline_not_mem {front line rest before : List Char} {e : ParseError}
    (h : BadLine C front line rest e) (hbefore : before ++ e.innermost.rest = line) :
    '\n' ∉ before := by
  obtain ⟨chars, hchars, rfl | ⟨rfl, -⟩⟩ := h.single
  · have hmem : '\n' ∈ e.innermost.rest :=
      lasting_newline_mem.readLine (List.mem_append_right _ List.mem_cons_self) h.error
    have hsuffix : e.innermost.rest <:+ chars ++ ['\n'] := ⟨before, hbefore⟩
    obtain ⟨last, hlast, -⟩ :=
      (List.suffix_concat_iff.1 hsuffix).resolve_left (List.ne_nil_of_mem hmem)
    rw [hlast, ← List.append_assoc] at hbefore
    rw [← List.append_cancel_right hbefore] at hchars
    exact fun hbad => hchars (List.mem_append_left _ hbad)
  · rw [← hbefore] at hchars
    exact fun hbad => hchars (List.mem_append_left _ hbad)

/-- The error of a line in error is placed in that line, whatever comes after it. -/
theorem BadLine.location_eq {front line rest : List Char} {e : ParseError}
    (h : BadLine C front line rest e) :
    ∃ before, line = before ++ e.innermost.rest ∧
      ((e.followedBy rest).locate (front ++ (line ++ rest))).location
        = ⟨front.count '\n' + 1, before.length + 1⟩ := by
  obtain ⟨before, hbefore⟩ : e.innermost.rest <:+ line :=
    (lasting_suffix line).readLine List.suffix_rfl h.error
  have hrest := ParseError.rest_followedBy (frames_ne_nil_of_readLine h.error) rest
  have hsource : front ++ (line ++ rest)
      = (front ++ before) ++ (e.followedBy rest).innermost.rest := by
    rw [hrest, ← hbefore]
    simp
  refine ⟨before, hbefore.symm, ?_⟩
  rw [ParseError.locate_of_suffix hsource, h.whole.after_append,
    Location.after_of_not_mem (h.newline_not_mem hbefore), Nat.add_comm]

variable [DecidableEq C] [Code C]

/-- A file whose lines are not all read is in error as they are, whatever its entries are. -/
theorem parse_of_readItems_error {source : String} {e : ParseError}
    (h : readItems (C := C) source.toList = .error e) : parse (C := C) source = .error e := by
  unfold parse
  rw [h]

/-- A file is in error as its lines are or, if they are read, as its entries are. -/
theorem parse_eq_error {source : String} {e : ParseError} (h : parse (C := C) source = .error e) :
    readItems (C := C) source.toList = .error e ∨
      ∃ items error, readItems (C := C) source.toList = .ok items ∧
        Vocabulary.ofEntries (items.map Item.entry) = .error error ∧
        e = .of ((offender? items error).getD []) (.fault (.vocabulary error)) := by
  rcases hread : readItems (C := C) source.toList with inner | items
  · rw [parse_of_readItems_error hread] at h
    obtain rfl := Except.error.inj h
    exact .inl rfl
  · rw [parse_of_readItems hread] at h
    rcases hentries : Vocabulary.ofEntries (items.map Item.entry) with error | v
    · rw [hentries] at h
      exact .inr ⟨items, error, rfl, hentries, (Except.error.inj h).symm⟩
    · rw [hentries] at h
      contradiction

/-- Definition files compose line by line. Behind lines that are read, a text is read as alone: its
items come after those of the lines, or its error is the error of the whole, as many lines further
down. A file is in error exactly if a line of it is, behind lines that are read. The error is then
that of the line and in the line, whatever lines come after it and whether or not the entries before
it form a vocabulary. -/
theorem parse_linewise :
    (∀ (front back : List Char) (items : List (Item C)), Whole front →
        readItems front = .ok items →
          (∀ later : List (Item C), readItems back = .ok later →
            readItems (front ++ back) = .ok (items.map (Item.followedBy back) ++ later) ∧
              (items.map (Item.followedBy back) ++ later).map Item.entry
                = items.map Item.entry ++ later.map Item.entry) ∧
          ∀ e, readItems (C := C) back = .error e →
            readItems (C := C) (front ++ back) = .error e ∧
              e.locate (front ++ back)
                = { e.locate back with
                    location := ⟨(e.locate back).location.line + front.count '\n',
                      (e.locate back).location.column⟩ }) ∧
      (∀ (input : List Char) (e : ParseError), readItems (C := C) input = .error e ↔
        ∃ front line rest inner, input = front ++ (line ++ rest) ∧
          BadLine C front line rest inner ∧ e = inner.followedBy rest) ∧
      ∀ (front line rest : List Char) (inner : ParseError), BadLine C front line rest inner →
        parse (C := C) (String.ofList (front ++ (line ++ rest))) = .error (inner.followedBy rest) ∧
          ∃ before, line = before ++ inner.innermost.rest ∧
            ((inner.followedBy rest).locate (front ++ (line ++ rest))).location
              = ⟨front.count '\n' + 1, before.length + 1⟩ := by
  refine ⟨fun front back items hfront hitems =>
      ⟨fun later hlater => ⟨?_, ?_⟩, fun e he => ⟨?_, ?_⟩⟩,
    fun input e => readItems_eq_error_iff, fun front line rest inner hbad => ⟨?_, ?_⟩⟩
  · rw [readItems_append hfront hitems, hlater]
    rfl
  · rw [List.map_append, List.map_map]
    rfl
  · rw [readItems_append hfront hitems, he]
    rfl
  · exact ParseError.locate_append hfront (rest_suffix_of_readItems he)
  · apply parse_of_readItems_error
    rw [String.toList_ofList]
    exact hbad.readItems_eq
  · exact hbad.location_eq

end

/-- A second line with something behind its entry is in error there, behind a first line that is
read; so is the file, whatever the third line is. -/
theorem linewise_secondLine :
    (∃ items : List (Item IntCode), readItems "a, 1\n".toList = .ok items) ∧
      ∃ e : ParseError, readItems (C := IntCode) "b, 1 c\n?\n".toList = .error e ∧
        readItems (C := IntCode) ("a, 1\n".toList ++ "b, 1 c\n?\n".toList) = .error e ∧
        (e.locate "b, 1 c\n?\n".toList).location = ⟨1, 6⟩ ∧
        (e.locate ("a, 1\n".toList ++ "b, 1 c\n?\n".toList)).location = ⟨2, 6⟩ := by
  have hfront : readItems (C := IntCode) "a, 1\n".toList
      = .ok [⟨"a", ⟨1⟩, "a, 1\n".toList⟩] :=
    readItems_cons (by decide) rfl readItems_nil
  have hwhole : Whole "a, 1\n".toList := .inr ⟨"a, 1".toList, rfl⟩
  have hback : readItems (C := IntCode) "b, 1 c\n?\n".toList = .error _ :=
    readItems_of_readLine_error (by decide) rfl
  obtain ⟨hcompose, -, -⟩ := parse_linewise (C := IntCode)
  obtain ⟨-, herror⟩ := hcompose _ _ _ hwhole hfront
  obtain ⟨hsame, hplace⟩ := herror _ hback
  refine ⟨⟨_, hfront⟩, _, hback, hsame, rfl, ?_⟩
  rw [hplace]
  rfl

end Definition

end KeywordHash
