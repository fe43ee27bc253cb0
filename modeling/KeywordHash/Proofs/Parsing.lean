import KeywordHash.Proofs.Reading

/-!
# Definition files are what the grammar says

`readItems_complete` and `readItems_sound` say that reading a file finds the entries of a document
that spells it out, and that there is such a document whenever reading succeeds. What names are
codes does not matter to the form of a file: read for their names alone, two documents with the same
characters have the same entries (`occurrences_unique`). `parse_exact` puts this together for
`parse`.
-/

namespace KeywordHash.Definition

section

variable {C : Type} [NamedCode C]

/-- Nothing is read of nothing. -/
theorem readItems_nil : readItems (C := C) [] = .ok [] := by
  rw [readItems, dif_pos rfl]

/-- The lines of a file are read one after the other. -/
theorem readItems_of_readLine {input rest : List Char} {item? : Option (Item C)}
    (hne : input ≠ []) (h : readLine input = .ok (item?, rest)) :
    readItems input = (readItems rest).map fun items => item?.toList ++ items := by
  rw [readItems, dif_neg hne]
  split
  · next heq => exact absurd (h.symm.trans heq) (by simp)
  · next heq =>
    obtain ⟨rfl, rfl⟩ := Prod.mk.inj (Except.ok.inj (h.symm.trans heq))
    rfl

/-- An item is read in front of those of the lines after it. -/
theorem readItems_cons {input rest : List Char} {item : Item C} {items : List (Item C)}
    (hne : input ≠ []) (h : readLine input = .ok (some item, rest))
    (hrest : readItems rest = .ok items) : readItems input = .ok (item :: items) := by
  rw [readItems_of_readLine hne h, hrest]
  rfl

/-- What is related to the entries from a line on is related to the entry of the line, if it has
one, and to the entries after it. -/
theorem forall₂_toList_append_iff {o? : Option Occurrence} {rest : List Occurrence}
    {items : List (Item C)} :
    List.Forall₂ Occurrence.Gives (o?.toList ++ rest) items ↔
      ∃ (item? : Option (Item C)) (items' : List (Item C)),
        Option.Rel Occurrence.Gives o? item? ∧ List.Forall₂ Occurrence.Gives rest items' ∧
          items = item?.toList ++ items' := by
  constructor
  · intro h
    rcases o? with _ | o
    · exact ⟨none, items, .none, h, rfl⟩
    · obtain ⟨item, items', hgives, hrest, rfl⟩ := List.forall₂_cons_left_iff.1 h
      exact ⟨some item, items', .some hgives, hrest, rfl⟩
  · intro h
    obtain ⟨item?, items', hitem, hrest, rfl⟩ := h
    rcases hitem with hgives | _
    · exact .cons hgives hrest
    · exact hrest

/-- The entries of a document are read, if all their names are those of codes. -/
theorem readItems_complete (d : Document) {items : List (Item C)}
    (h : List.Forall₂ Occurrence.Gives d.occurrences items) :
    readItems d.chars = .ok items := by
  induction d generalizing items with
  | empty =>
    cases h
    exact readItems_nil
  | last line hne =>
    have happend : List.Forall₂ Occurrence.Gives ((line.occurrence? []).toList ++ []) items := by
      rwa [List.append_nil]
    obtain ⟨item?, items', hitem, hrest, rfl⟩ := forall₂_toList_append_iff.1 happend
    have hline := readLine_complete line .input hitem
    rw [List.append_nil] at hline
    cases hrest
    show readItems line.chars = _
    rw [readItems_of_readLine hne hline, readItems_nil]
    rfl
  | cons line ending rest ih =>
    obtain ⟨item?, items', hitem, hrest, rfl⟩ := forall₂_toList_append_iff.1 h
    have hline := readLine_complete line (.broken ending rest.chars) hitem
    have hne : line.chars ++ (ending.chars ++ rest.chars) ≠ [] := by
      rcases ending with _ | _
      · simp [Break.chars]
      · simp [Break.chars]
    show readItems (line.chars ++ (ending.chars ++ rest.chars)) = _
    rw [readItems_of_readLine hne hline, ih hrest]
    rfl

/-- What is read as a file is a document, and its entries are those that are read. -/
theorem readItems_sound {input : List Char} {items : List (Item C)}
    (h : readItems input = .ok items) :
    ∃ d : Document, d.chars = input ∧ List.Forall₂ Occurrence.Gives d.occurrences items := by
  induction hlength : input.length using Nat.strong_induction_on generalizing input items with
  | _ n ih =>
    by_cases hne : input = []
    · subst hne
      rw [readItems_nil] at h
      cases h
      exact ⟨.empty, rfl, .nil⟩
    · generalize hread : readLine (C := C) input = result
      rcases result with error | ⟨item?, rest⟩
      · rw [readItems, dif_neg hne] at h
        split at h
        · contradiction
        · next hok => exact absurd (hread.symm.trans hok) (by simp)
      · rw [readItems_of_readLine hne hread] at h
        obtain ⟨items', hrest, rfl⟩ := eq_ok_of_map_eq_ok h
        have hshorter : rest.length < n := hlength ▸ readLine_shorter hne hread
        obtain ⟨d, hd, hitems⟩ := ih rest.length hshorter hrest rfl
        obtain ⟨line, tail, hinput, hends, hitem⟩ := readLine_sound hread
        rcases hends with _ | ⟨ending, rest⟩
        · -- The input ends the line, so nothing is left and no item comes after.
          rw [readItems_nil] at hrest
          cases hrest
          rw [List.append_nil] at hinput
          refine ⟨.last line (hinput ▸ hne), hinput.symm, ?_⟩
          have happend := forall₂_toList_append_iff.2 ⟨item?, [], hitem, .nil, rfl⟩
          rwa [List.append_nil (line.occurrence? []).toList] at happend
        · refine ⟨.cons line ending d, ?_, ?_⟩
          · rw [hinput, ← hd]
            rfl
          · rw [← hd] at hitem
            exact forall₂_toList_append_iff.2 ⟨item?, items', hitem, hitems, rfl⟩

end

/-! ## Documents with the same characters -/

/-- A name that stands for itself. -/
structure Spelled where
  /-- The name. -/
  name : String

instance : NamedCode Spelled where
  ofName? name := some ⟨name⟩

/-- Every entry gives an item when names stand for themselves, and the item determines it. -/
def Occurrence.spelled (o : Occurrence) : Item Spelled :=
  ⟨String.ofList o.text, ⟨String.ofList o.name⟩, o.source⟩

/-- Documents with the same characters have the same entries. -/
theorem occurrences_unique {d d' : Document} (h : d.chars = d'.chars) :
    d.occurrences = d'.occurrences := by
  have hread : ∀ d : Document,
      readItems d.chars = .ok (d.occurrences.map Occurrence.spelled) := by
    intro d
    refine readItems_complete d (List.forall₂_map_right_iff.2 (List.forall₂_same.2 ?_))
    exact fun o _ => ⟨rfl, rfl, rfl⟩
  have hmap : d.occurrences.map Occurrence.spelled = d'.occurrences.map Occurrence.spelled := by
    have heq := hread d
    rw [h, hread d'] at heq
    exact (Except.ok.inj heq).symm
  refine List.map_injective_iff.2 (fun o p heq => ?_) hmap
  obtain ⟨text, name, source⟩ := o
  obtain ⟨htext, hname, hsource⟩ := Item.mk.inj heq
  have hname' := Spelled.mk.inj hname
  rw [String.ofList_inj] at htext hname'
  simp_all

/-! ## Definition files -/

variable {C : Type} [NamedCode C]

/-- What a line leaves is the end of its input, and shorter. -/
theorem readLine_suffix {input rest : List Char} {item? : Option (Item C)} (hne : input ≠ [])
    (h : readLine input = .ok (item?, rest)) :
    rest <:+ input ∧ rest.length < input.length := by
  obtain ⟨line, tail, hinput, hends, -⟩ := readLine_sound h
  refine ⟨?_, readLine_shorter hne h⟩
  rw [hinput]
  rcases hends with _ | ⟨ending, rest⟩
  · exact List.nil_suffix
  · exact (List.suffix_append _ _).trans (List.suffix_append _ _)

/-- There are items for entries exactly if all their names are those of codes. -/
theorem exists_gives_iff {occurrences : List Occurrence} :
    (∃ items : List (Item C), List.Forall₂ Occurrence.Gives occurrences items) ↔
      ∀ o ∈ occurrences, ∃ code : C, NamedCode.ofName? (String.ofList o.name) = some code := by
  induction occurrences with
  | nil => exact ⟨fun _ _ ho => (List.not_mem_nil ho).elim, fun _ => ⟨[], .nil⟩⟩
  | cons o rest ih =>
    rw [List.forall_mem_cons, ← ih]
    constructor
    · intro h
      obtain ⟨items, hitems⟩ := h
      obtain ⟨item, items', hgives, hrest, -⟩ := List.forall₂_cons_left_iff.1 hitems
      exact ⟨⟨item.code, hgives.code⟩, items', hrest⟩
    · intro h
      obtain ⟨⟨code, hcode⟩, items, hrest⟩ := h
      exact ⟨⟨String.ofList o.text, code, o.source⟩ :: items, .cons ⟨rfl, hcode, rfl⟩ hrest⟩

/-- The entries that are read of a file are those of any document that spells it out. -/
theorem gives_of_readItems {d : Document} {items : List (Item C)}
    (h : readItems d.chars = .ok items) : List.Forall₂ Occurrence.Gives d.occurrences items := by
  obtain ⟨d', hd', hitems⟩ := readItems_sound h
  rwa [occurrences_unique hd'] at hitems

variable [DecidableEq C] [Code C]

/-- A file whose lines are read is the vocabulary of its entries, or in error as they are. -/
theorem parse_of_readItems {source : String} {items : List (Item C)}
    (h : readItems source.toList = .ok items) :
    parse source = (Vocabulary.ofEntries (items.map Item.entry)).mapError fun error =>
      ParseError.of ((offender? items error).getD []) (.fault (.vocabulary error)) := by
  unfold parse
  rw [h]

/-- The lines of a file are read exactly if it is a document whose names are all those of codes.
Then the items are the entries of the document, in order, each with what the file holds from its
text on, and the file is the vocabulary of these entries or in error as they are. Reading comes to
an end: every line leaves a shorter end of its input. -/
theorem parse_exact (source : String) :
    ((∃ items : List (Item C), readItems source.toList = .ok items) ↔
        ∃ d : Document, d.chars = source.toList ∧
          ∀ o ∈ d.occurrences, ∃ code : C, NamedCode.ofName? (String.ofList o.name) = some code) ∧
      (∀ (d : Document) (items : List (Item C)), d.chars = source.toList →
        readItems source.toList = .ok items →
          List.Forall₂ Occurrence.Gives d.occurrences items ∧
          (∀ o ∈ d.occurrences, o.text <+: o.source ∧ o.source <:+ source.toList) ∧
          match Vocabulary.ofEntries (items.map Item.entry) with
          | .ok v => parse source = .ok v
          | .error error =>
            ∃ rest, parse (C := C) source = .error (.of rest (.fault (.vocabulary error)))) ∧
      ∀ (input rest : List Char) (item? : Option (Item C)), input ≠ [] →
        readLine input = .ok (item?, rest) → rest <:+ input ∧ rest.length < input.length := by
  refine ⟨⟨?_, ?_⟩, ?_, fun _ _ _ => readLine_suffix⟩
  · intro h
    obtain ⟨items, hitems⟩ := h
    obtain ⟨d, hd, hgives⟩ := readItems_sound hitems
    exact ⟨d, hd, exists_gives_iff.1 ⟨items, hgives⟩⟩
  · intro h
    obtain ⟨d, hd, hnamed⟩ := h
    obtain ⟨items, hgives⟩ := exists_gives_iff.2 hnamed
    exact ⟨items, hd ▸ readItems_complete d hgives⟩
  · intro d items hd hitems
    have hparse := parse_of_readItems hitems
    refine ⟨gives_of_readItems (hd ▸ hitems), fun o ho => hd ▸ Document.source_suffix ho, ?_⟩
    rw [hparse]
    rcases Vocabulary.ofEntries (items.map Item.entry) with error | v
    · exact ⟨_, rfl⟩
    · rfl

end KeywordHash.Definition
