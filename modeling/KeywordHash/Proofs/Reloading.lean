import KeywordHash.Proofs.ReadBack
import KeywordHash.Proofs.Generation

/-!
# Reloading a listed table

The weights that a listing gives are read back as they were (`readWeights?_source`), and placing the
vocabulary with them makes the same table again. What stands before the name of the weights has no
`C`, so the name is found where it stands (`not_mem_heading`); what follows it up to the brackets is
fixed, and the rows between them hold digits, commas, spaces and newlines only. The path of the
codes comes after the weights and can be anything. A piece between commas is the decimal form of a
weight, with the blanks before it; the newline of a row goes to the first piece of the next row
(`pieces_rows`).
-/

namespace KeywordHash

/-! ## The text of a listing -/

namespace Listing

/-- The characters of lines, each ended by a newline. -/
def textOf (lines : List String) : List Char := lines.flatMap fun line => line.toList ++ ['\n']

/-- No lines have no text. -/
@[simp] theorem textOf_nil : textOf [] = [] := rfl

/-- The text of a line and more lines. -/
@[simp] theorem textOf_cons (line : String) (lines : List String) :
    textOf (line :: lines) = line.toList ++ '\n' :: textOf lines := by
  simp [textOf]

/-- The text of lines and more lines. -/
@[simp] theorem textOf_append (lines lines' : List String) :
    textOf (lines ++ lines') = textOf lines ++ textOf lines' := List.flatMap_append

/-- The source of a table is the text of its lines. -/
theorem toList_source {C : Type} [Code C] (t : Table C) (codePath : String) :
    (source t codePath).toList = textOf (lines t codePath) := by
  rw [source, String.toList_join, List.flatMap_map, textOf]
  simp only [String.toList_append]
  rfl

/-- The characters of the decimal form of a number. -/
theorem toList_toString (n : Nat) : (toString n).toList = Nat.toDigits 10 n := Nat.toList_repr

/-- The lines before the weights. -/
def headingLines {C : Type} (t : Table C) : List String :=
  [ "// Generated by `mnemonic table --rust`.", "// " ++ t.stats.rangeText, "" ]
    ++ figureLines t.stats ++ [""]

/-- A text lacks a character that none of its lines has, other than the newline. -/
theorem not_mem_textOf {c : Char} (hc : c ≠ '\n') {lines : List String}
    (h : ∀ line ∈ lines, c ∉ line.toList) : c ∉ textOf lines := by
  intro hmem
  obtain ⟨line, hline, hchar⟩ := List.mem_flatMap.1 hmem
  rcases List.mem_append.1 hchar with hchar | hnewline
  · exact h line hline hchar
  · exact hc (List.mem_singleton.1 hnewline)

/-- A number in a line adds digits only. -/
theorem not_mem_numbered {c : Char} (hc : c.isDigit = false) {before after : String} (n : Nat)
    (hbefore : c ∉ before.toList) (hafter : c ∉ after.toList) :
    c ∉ (before ++ toString n ++ after).toList := by
  rw [String.toList_append, String.toList_append, toList_toString, List.mem_append, List.mem_append]
  rintro ((hmem | hmem) | hmem)
  · exact hbefore hmem
  · exact not_mem_toDigits hc n hmem
  · exact hafter hmem

/-- There is no `C` before the name of the weights. -/
theorem not_mem_heading {C : Type} (t : Table C) :
    'C' ∉ textOf (headingLines t) ++ "pub static ".toList := by
  have hlines : ∀ line ∈ headingLines t, 'C' ∉ line.toList := by
    have hrange : 'C' ∉ ("// " ++ t.stats.rangeText).toList := by
      rw [String.toList_append, List.mem_append, not_or]
      exact ⟨by decide +kernel, not_mem_numbered rfl _ (by decide +kernel) (by decide +kernel)⟩
    simp only [headingLines, figureLines, List.cons_append, List.nil_append, List.forall_mem_cons]
    refine ⟨by decide +kernel, hrange, by decide +kernel, ?_, ?_, ?_, ?_, ?_, by decide +kernel,
      fun _ hmem => absurd hmem List.not_mem_nil⟩
    all_goals exact not_mem_numbered rfl _ (by decide +kernel) (by decide +kernel)
  rw [List.mem_append, not_or]
  exact ⟨not_mem_textOf (by decide) hlines, by decide +kernel⟩

/-! ## Rows of weights -/

/-- The rows hold the elements of the list in order. -/
theorem flatten_rows {α : Type} (n : Nat) (list : List α) : (rows n list).flatten = list := by
  induction list using rows.induct n with
  | case1 => simp [rows]
  | case2 x rest ih => rw [rows, List.flatten_cons, ih, List.cons_append, List.take_append_drop]

/-- No row is empty. -/
theorem ne_nil_of_mem_rows {α : Type} {n : Nat} {list row : List α} (h : row ∈ rows n list) :
    row ≠ [] := by
  induction list using rows.induct n with
  | case1 => simp [rows] at h
  | case2 x rest ih =>
    rw [rows, List.mem_cons] at h
    rcases h with rfl | h
    · exact List.cons_ne_nil _ _
    · exact ih h

/-- The characters of the decimal form of a weight. -/
def digits (weight : UInt16) : List Char := Nat.toDigits 10 weight.toNat

/-- A row shows a weight by its digits. -/
theorem toList_weight (weight : UInt16) : (toString weight).toList = digits weight :=
  Nat.toList_repr

/-- All characters of a piece are white space. -/
def IsBlank (text : List Char) : Prop := ∀ c ∈ text, isWhiteSpace c = true

/-- A piece is blank if a check of its characters says so. -/
theorem isBlank_of_all {text : List Char} (h : text.all isWhiteSpace = true) : IsBlank text :=
  List.all_eq_true.1 h

/-- Blank text after blank text is blank. -/
theorem IsBlank.append {text text' : List Char} (h : IsBlank text) (h' : IsBlank text') :
    IsBlank (text ++ text') := fun c hc => (List.mem_append.1 hc).elim (h c) (h' c)

/-- A newline is blank. -/
theorem isBlank_newline : IsBlank ['\n'] := isBlank_of_all rfl

/-- A digit is no white space. -/
theorem isWhiteSpace_of_isDigit {c : Char} (h : c.isDigit = true) : isWhiteSpace c = false := by
  simp only [Char.isDigit, Bool.and_eq_true, decide_eq_true_eq, ge_iff_le, UInt32.le_iff_toNat_le]
    at h
  have hlow : 48 ≤ c.toNat := h.1
  have hhigh : c.toNat ≤ 57 := h.2
  simp [isWhiteSpace]
  omega

/-- The digits of a weight are found between white space and a comma. -/
theorem trim_digits {blank : List Char} (hblank : IsBlank blank) (weight : UInt16) :
    trim (blank ++ digits weight) = digits weight := by
  have hstop : ∀ c ∈ digits weight, isWhiteSpace c = false := fun c hc =>
    isWhiteSpace_of_isDigit (Nat.isDigit_of_mem_toDigits (by omega) (Nat.le_refl 10) hc)
  have hkeep : ∀ list : List Char, (∀ c ∈ list, isWhiteSpace c = false) →
      list.dropWhile isWhiteSpace = list := by
    intro list hlist
    rcases list with _ | ⟨c, rest⟩
    · rfl
    · exact List.dropWhile_cons_of_neg (by simp [hlist c List.mem_cons_self])
  unfold trim
  rw [List.dropWhile_append_of_pos hblank, hkeep _ hstop,
    hkeep _ fun c hc => hstop c (List.mem_reverse.1 hc), List.reverse_reverse]

/-- A comma ends a piece, which is the digits of the weight before it. -/
theorem pieces_cons {blank : List Char} (hblank : IsBlank blank) (weight : UInt16)
    (rest : List Char) :
    pieces (blank ++ digits weight ++ ',' :: rest) = digits weight :: pieces rest := by
  have hcomma : ',' ∉ blank ++ digits weight := by
    rw [List.mem_append, not_or]
    refine ⟨fun hmem => ?_, not_mem_toDigits rfl _⟩
    exact absurd (hblank _ hmem) (by decide)
  have hne : digits weight ≠ [] := Nat.toDigits_ne_nil
  unfold pieces
  rw [List.splitOn_append_cons_self_of_not_mem hcomma, List.map_cons, trim_digits hblank]
  simp [hne]

/-- White space without a comma gives no piece. -/
theorem pieces_blank {blank : List Char} (hblank : IsBlank blank) : pieces blank = [] := by
  have hcomma : ',' ∉ blank := fun hmem => absurd (hblank _ hmem) (by decide)
  have htrim : trim blank = [] := by
    have hdrop : (blank ++ []).dropWhile isWhiteSpace = [] := List.dropWhile_append_of_pos hblank
    rw [List.append_nil] at hdrop
    rw [trim, hdrop]
    rfl
  simp [pieces, List.splitOn_eq_singleton hcomma, htrim]

/-- The pieces of a row are the digits of its weights. -/
theorem pieces_row {row : List UInt16} (hrow : row ≠ []) {blank : List Char}
    (hblank : IsBlank blank) (rest : List Char) :
    pieces (blank ++ [',', ' '].intercalate (row.map digits) ++ ',' :: rest)
      = row.map digits ++ pieces rest := by
  induction row generalizing blank with
  | nil => contradiction
  | cons weight row ih =>
    rcases row with _ | ⟨next, row⟩
    · simpa using pieces_cons hblank weight rest
    · -- The comma and the space after it end this piece and start the next.
      have hspace : IsBlank [' '] := isBlank_of_all rfl
      have hnext := ih (List.cons_ne_nil next row) hspace
      have htext : blank ++ [',', ' '].intercalate ((weight :: next :: row).map digits)
            ++ ',' :: rest
          = blank ++ digits weight ++ ','
            :: ([' '] ++ [',', ' '].intercalate ((next :: row).map digits) ++ ',' :: rest) := by
        simp [List.intercalate_cons_cons]
      rw [htext, pieces_cons hblank, hnext]
      rfl

/-- The line of a row. -/
theorem toList_rowLine (row : List UInt16) :
    (rowLine row).toList
      = "    ".toList ++ [',', ' '].intercalate (row.map digits) ++ [','] := by
  have hdigits : String.toList ∘ (toString : UInt16 → String) = digits := funext toList_weight
  rw [rowLine, String.toList_append, String.toList_append, String.toList_intercalate, List.map_map,
    hdigits]
  rfl

/-- The pieces of rows are the digits of all their weights. The newline of a row is white space in
front of the next. -/
theorem pieces_rows {rows : List (List UInt16)} (hrows : ∀ row ∈ rows, row ≠ []) :
    ∀ {blank : List Char}, IsBlank blank →
      pieces (blank ++ textOf (rows.map rowLine)) = rows.flatten.map digits := by
  induction rows with
  | nil =>
    intro blank hblank
    simpa using pieces_blank hblank
  | cons row rest ih =>
    intro blank hblank
    obtain ⟨hrow, hrest⟩ := List.forall_mem_cons.1 hrows
    have hindent : IsBlank (blank ++ "    ".toList) :=
      hblank.append (isBlank_of_all (by decide +kernel))
    have htext : blank ++ textOf ((row :: rest).map rowLine)
        = blank ++ "    ".toList ++ [',', ' '].intercalate (row.map digits) ++ ','
          :: (['\n'] ++ textOf (rest.map rowLine)) := by
      simp [toList_rowLine]
    rw [htext, pieces_row hrow hindent, ih hrest isBlank_newline, List.flatten_cons,
      List.map_append]

/-- The digits of a weight are read as the weight. -/
theorem readWeight?_digits (weight : UInt16) : readWeight? (digits weight) = some weight := by
  have hmax : weight.toNat ≤ UInt16.size - 1 := Nat.le_pred_of_lt weight.toNat_lt
  rw [readWeight?, digits, Number.readNat?_toDigits hmax, Option.map_some, UInt16.ofNat_toNat]

/-- What separated pieces hold is in the separator or in a piece. -/
theorem mem_of_mem_intercalate {separator : List Char} {parts : List (List Char)} {c : Char}
    (h : c ∈ separator.intercalate parts) : c ∈ separator ∨ ∃ part ∈ parts, c ∈ part := by
  induction parts with
  | nil => simp at h
  | cons part rest ih =>
    rcases rest with _ | ⟨next, rest⟩
    · exact .inr ⟨part, List.mem_cons_self, by simpa using h⟩
    · rw [List.intercalate_cons_cons, List.mem_append, List.mem_append] at h
      rcases h with (hpart | hseparator) | hrest
      · exact .inr ⟨part, List.mem_cons_self, hpart⟩
      · exact .inl hseparator
      · rcases ih hrest with hseparator | ⟨other, hother, hmem⟩
        · exact .inl hseparator
        · exact .inr ⟨other, List.mem_cons_of_mem _ hother, hmem⟩

/-- The digits of weights are read as the weights. -/
theorem mapM_readWeight? (weights : List UInt16) :
    (weights.map digits).mapM readWeight? = some weights := by
  induction weights with
  | nil => rfl
  | cons weight rest ih =>
    rw [List.map_cons, List.mapM_cons, readWeight?_digits, ih]
    rfl

/-- The rows hold no bracket. -/
theorem not_mem_rows (rows : List (List UInt16)) : ']' ∉ '\n' :: textOf (rows.map rowLine) := by
  have hrow : ∀ row : List UInt16, ']' ∉ [',', ' '].intercalate (row.map digits) := by
    intro row hmem
    rcases mem_of_mem_intercalate hmem with hseparator | ⟨part, hpart, hbracket⟩
    · exact absurd hseparator (by decide)
    · obtain ⟨weight, -, rfl⟩ := List.mem_map.1 hpart
      exact not_mem_toDigits rfl _ hbracket
  rw [List.mem_cons, not_or]
  refine ⟨by decide, not_mem_textOf (by decide) fun line hline => ?_⟩
  obtain ⟨row, -, rfl⟩ := List.mem_map.1 hline
  rw [toList_rowLine, List.mem_append, List.mem_append, not_or, not_or]
  exact ⟨⟨by decide +kernel, hrow row⟩, by decide⟩

/-! ## Reading the weights -/

/-- The line that opens the weights. -/
theorem toList_opening (a : Association) :
    ("pub static ASSOCIATION_VALUES: [u16; " ++ toString a.weights.size ++ "] = [").toList
      = "pub static ".toList ++ (weightsName ++ (": [u16; 257] ".toList ++ "= [".toList)) := by
  have hclosed : ("pub static ASSOCIATION_VALUES: [u16; " ++ toString associationLength
      ++ "] = [").toList
        = "pub static ".toList ++ (weightsName ++ (": [u16; 257] ".toList ++ "= [".toList)) := by
    decide +kernel
  exact hclosed

variable {C : Type} [Code C]

/-- The text of a listing from its heading to the end of its weights. -/
theorem exists_toList_source (t : Table C) (codePath : String) :
    ∃ after, (source t codePath).toList
      = textOf (headingLines t) ++ "pub static ".toList ++ (weightsName
        ++ (": [u16; 257] ".toList ++ ("= [".toList
        ++ ('\n' :: textOf ((rows (rowLength - 1) t.association.weights.toList).map rowLine)
        ++ ("];".toList ++ after))))) := by
  have hlines : lines t codePath = headingLines t ++ weightLines t.association
      ++ "" :: slotLines codePath t.slots.toList := by
    simp [lines, headingLines]
  refine ⟨'\n' :: textOf ("" :: slotLines codePath t.slots.toList), ?_⟩
  rw [toList_source, hlines, weightLines]
  simp only [textOf_append, textOf_cons, List.cons_append, toList_opening, List.append_assoc,
    List.nil_append]

/-- The pieces between the brackets of a listing are the digits of its weights. -/
theorem pieces_weights (a : Association) :
    pieces ('\n' :: textOf ((rows (rowLength - 1) a.weights.toList).map rowLine))
      = a.weights.toList.map digits := by
  have hrows : ∀ row ∈ rows (rowLength - 1) a.weights.toList, row ≠ [] :=
    fun row hrow => ne_nil_of_mem_rows hrow
  have hpieces := pieces_rows hrows isBlank_newline
  rwa [flatten_rows] at hpieces

/-- The weights of a listing are read back, whatever follows them. -/
theorem readWeights?_source (t : Table C) (codePath : String) :
    readWeights? (source t codePath) = some t.association.weights.toList := by
  obtain ⟨after, htext⟩ := exists_toList_source t codePath
  have hpieces := pieces_weights t.association
  have hbracket := not_mem_rows (rows (rowLength - 1) t.association.weights.toList)
  generalize '\n' :: textOf ((rows (rowLength - 1) t.association.weights.toList).map rowLine)
    = inside at htext hpieces hbracket
  have hname : cut? weightsName (source t codePath).toList
      = some (textOf (headingLines t) ++ "pub static ".toList,
          ": [u16; 257] ".toList ++ ("= [".toList ++ (inside ++ ("];".toList ++ after)))) := by
    have hsplit : weightsName = "ASSO".toList ++ 'C' :: "IATION_VALUES".toList := by
      decide +kernel
    rw [htext, hsplit]
    exact cut?_eq_some _ _ (not_mem_heading t) (by decide +kernel)
  have hopening : cut? "= [".toList (weightsName
        ++ (": [u16; 257] ".toList ++ ("= [".toList ++ (inside ++ ("];".toList ++ after)))))
      = some (weightsName ++ ": [u16; 257] ".toList, inside ++ ("];".toList ++ after)) := by
    have hsplit : "= [".toList = [] ++ '=' :: " [".toList := by decide +kernel
    rw [← List.append_assoc, hsplit]
    exact cut?_eq_some _ _ (by decide +kernel) List.not_mem_nil
  have hclosing : cut? "];".toList (inside ++ ("];".toList ++ after)) = some (inside, after) := by
    have hsplit : "];".toList = [] ++ ']' :: [';'] := by decide +kernel
    rw [hsplit]
    exact cut?_eq_some _ _ hbracket List.not_mem_nil
  simp only [readWeights?, hname, hopening, hclosing, hpieces, mapM_readWeight?,
    Option.bind_eq_bind, Option.bind_some]

/-- The association of a listing is read back. -/
theorem readAssociation?_source (t : Table C) (codePath : String) :
    readAssociation? (source t codePath) = some t.association := by
  rw [readAssociation?, readWeights?_source, Option.bind_some, Association.ofWeights?,
    dif_pos t.association.weights.length_toList]
  rfl

end Listing

namespace Table

variable {C : Type} [Code C] {v : Vocabulary C} {t : Table C}

/-- Listing a table and reading its weights back loses nothing: whatever the path of the codes is,
the weights that are read are those of the table, and placing the vocabulary with them makes the
table again, in all its parts. -/
theorem reload_exact (v : Vocabulary C) (t : Table C)
    (h : (∃ a, place v a = .ok t) ∨ ∃ config : SearchConfig, (generate config v).1 = .ok t)
    (codePath : String) :
    Listing.readWeights? (Listing.source t codePath) = some t.association.weights.toList ∧
      Listing.readAssociation? (Listing.source t codePath) = some t.association ∧
      place v t.association = .ok t := by
  have hplaced : ∃ a, place v a = .ok t := by
    rcases h with hplace | ⟨config, hgenerate⟩
    · exact hplace
    · obtain ⟨a, -, hplace⟩ := exists_run_of_generateFrom hgenerate
      exact ⟨a, hplace⟩
  obtain ⟨a, ha⟩ := hplaced
  refine ⟨Listing.readWeights?_source t codePath, Listing.readAssociation?_source t codePath, ?_⟩
  rw [association_place ha]
  exact ha

/-- A code path that imitates the weights does not get in the way. -/
theorem reload_fourWords :
    ∃ t, place fourWords fourWeights = .ok t ∧
      Listing.readAssociation? (Listing.source t "ASSOCIATION_VALUES = [1];")
        = some t.association ∧
      place fourWords t.association = .ok t := by
  have hseparates : fourWeights.Separates fourWords.entries := by decide +kernel
  obtain ⟨t, ht⟩ := place_ok_iff.2 hseparates
  obtain ⟨-, hread, hplace⟩ :=
    reload_exact fourWords t (.inl ⟨fourWeights, ht⟩) "ASSOCIATION_VALUES = [1];"
  exact ⟨t, ht, hread, hplace⟩

end Table

end KeywordHash
