import KeywordHash.Proofs.ReadBack
import KeywordHash.Proofs.Reloading

/-!
# The listing of a table determines the table

The word list of a listing declares its length and shows each slot by one element (`ShowsSlots`):
`None`, or the text as a string literal with the path of the code. Although texts and the path of
the codes are arbitrary, the elements cannot be mistaken for one another: a literal is read up to
its closing quote and gives the text, the path is the same everywhere, and the name of a code has no
newline, so the first one ends the element (`slot_append_inj`). Together with the figures, which end
at the first character that is no digit, and with the weights, which are read back, the source
determines the table (`eq_of_source_eq`).
-/

namespace KeywordHash.Listing

open Literal

variable {C : Type} [Code C]

/-! ## Elements -/

/-- How the word list shows a slot. -/
inductive ShowsSlot (codePath : String) : Option (Entry C) → String → Prop where
  /-- An empty slot. -/
  | empty : ShowsSlot codePath none "    None,"
  /-- An occupied slot: a literal that reads as the text of the entry, and the path of its code. -/
  | held {e : Entry C} {literal : String} (h : readLiteral? literal.toList = some (e.text, [])) :
    ShowsSlot codePath (some e)
      ("    Some((" ++ literal ++ ", " ++ codePath ++ "::" ++ Code.name e.code ++ ")),")

/-- A source ends with a word list that declares as many elements as there are slots and shows the
slots in their order, each by a line. -/
def ShowsSlots (codePath : String) (slots : List (Option (Entry C))) (source : String) : Prop :=
  ∃ (before : String) (elements : List String),
    source = before
        ++ ("pub static WORDLIST: [Option<(&str, " ++ codePath ++ ")>; " ++ toString slots.length
          ++ "] = [\n")
        ++ String.join (elements.map (· ++ "\n")) ++ "];\n" ∧
      List.Forall₂ (ShowsSlot codePath) slots elements

/-- The line of a slot shows the slot. -/
theorem showsSlot_slotLine (codePath : String) (slot : Option (Entry C)) :
    ShowsSlot codePath slot (slotLine codePath slot) := by
  rcases slot with _ | e
  · exact .empty
  · have hread := readLiteral?_quoted e.text []
    rw [List.append_nil] at hread
    exact .held hread

/-- The text of lines that are joined. -/
theorem toList_join_lines (lines : List String) :
    (String.join (lines.map (· ++ "\n"))).toList = textOf lines := by
  rw [String.toList_join, List.flatMap_map, textOf]
  simp only [String.toList_append]
  rfl

/-- The lines of a table are those up to its weights and those of its slots. -/
theorem lines_eq (t : Table C) (codePath : String) :
    lines t codePath = headingLines t ++ weightLines t.association ++ [""]
      ++ slotLines codePath t.slots.toList := by
  simp [lines, headingLines]

/-- The source of a table shows its slots. -/
theorem showsSlots_source (t : Table C) (codePath : String) :
    ShowsSlots codePath t.slots.toList (source t codePath) := by
  refine ⟨String.ofList (textOf (headingLines t ++ weightLines t.association ++ [""])),
    t.slots.toList.map (slotLine codePath), ?_, ?_⟩
  · have hopening : "] = [\n".toList = "] = [".toList ++ ['\n'] := by decide +kernel
    have hclosing : "];\n".toList = "];".toList ++ ['\n'] := by decide +kernel
    apply String.toList_inj.1
    rw [toList_source, lines_eq, textOf_append, slotLines]
    simp only [String.toList_append, String.toList_ofList, toList_join_lines, List.cons_append,
      textOf_cons, textOf_append, textOf_nil, hopening, hclosing, List.append_assoc,
      List.nil_append]
  · exact List.forall₂_map_right_iff.2
      (List.forall₂_same.2 fun slot _ => showsSlot_slotLine codePath slot)

/-! ## What ends an element -/

/-- A number in a line and what comes after the line are determined by the text from the line on. -/
theorem numbered_append_inj {before after : String} {m n : Nat} {c : Char}
    {tail rest rest' : List Char} (hafter : after.toList = c :: tail) (hc : c.isDigit = false)
    (h : (before ++ toString m ++ after).toList ++ '\n' :: rest
      = (before ++ toString n ++ after).toList ++ '\n' :: rest') : m = n ∧ rest = rest' := by
  simp only [String.toList_append, toList_toString, List.append_assoc, hafter,
    List.cons_append] at h
  obtain ⟨hnumber, htail⟩ := toDigits_append_inj hc (List.append_cancel_left h)
  exact ⟨hnumber, (List.cons.inj (List.append_cancel_left htail)).2⟩

/-- A slot and what comes after its line are determined by the text from the line on. -/
theorem slot_append_inj (hname : Function.Injective (Code.name : C → String))
    (hline : ∀ c : C, '\n' ∉ (Code.name c).toList) {codePath : String}
    {slot slot' : Option (Entry C)} {rest rest' : List Char}
    (h : (slotLine codePath slot).toList ++ '\n' :: rest
      = (slotLine codePath slot').toList ++ '\n' :: rest') : slot = slot' ∧ rest = rest' := by
  have hheld : ∀ (e : Entry C) (rest : List Char),
      (slotLine codePath (some e)).toList ++ '\n' :: rest
        = "    Some((".toList ++ ((EscapeStyle.quoted e.text).toList ++ (", ".toList
          ++ codePath.toList ++ "::".toList ++ ((Code.name e.code).toList
          ++ (")),".toList ++ '\n' :: [] ++ rest)))) := by
    intro e rest
    simp [slotLine]
  have hempty : ∀ (e : Entry C) (rest rest' : List Char),
      (slotLine codePath (none : Option (Entry C))).toList ++ '\n' :: rest
        ≠ (slotLine codePath (some e)).toList ++ '\n' :: rest' := by
    intro e rest rest' heq
    -- The fifth characters differ.
    have hnone : (slotLine codePath (none : Option (Entry C))).toList = "    None,".toList := rfl
    rw [hheld, hnone] at heq
    have hfive := congrArg (List.take 5) heq
    rw [List.take_append_of_le_length (by decide +kernel),
      List.take_append_of_le_length (by decide +kernel)] at hfive
    exact absurd hfive (by decide +kernel)
  rcases slot with _ | e
  · rcases slot' with _ | e'
    · exact ⟨rfl, (List.cons.inj (List.append_cancel_left h)).2⟩
    · exact absurd h (hempty e' rest rest')
  · rcases slot' with _ | e'
    · exact absurd h.symm (hempty e rest' rest)
    · rw [hheld, hheld] at h
      have hread := congrArg readLiteral? (List.append_cancel_left h)
      rw [readLiteral?_quoted, readLiteral?_quoted] at hread
      obtain ⟨htext, hafter⟩ := Prod.mk.inj (Option.some.inj hread)
      obtain ⟨hcode, hrest⟩ := append_pattern_inj _ _ (hline e.code) (hline e'.code)
        (by decide +kernel) (List.append_cancel_left hafter)
      have hentry : e = e' := by
        obtain ⟨text, code⟩ := e
        obtain ⟨text', code'⟩ := e'
        obtain rfl : text = text' := htext
        obtain rfl : code = code' := hname (String.toList_inj.1 hcode)
        rfl
      exact ⟨congrArg some hentry, hrest⟩

/-- As many slots and what comes after their lines are determined by the text from the lines on. -/
theorem slots_append_inj (hname : Function.Injective (Code.name : C → String))
    (hline : ∀ c : C, '\n' ∉ (Code.name c).toList) {codePath : String}
    {slots slots' : List (Option (Entry C))} (hlength : slots.length = slots'.length)
    {rest rest' : List Char}
    (h : textOf (slots.map (slotLine codePath)) ++ rest
      = textOf (slots'.map (slotLine codePath)) ++ rest') : slots = slots' ∧ rest = rest' := by
  induction slots generalizing slots' with
  | nil =>
    obtain rfl := List.eq_nil_of_length_eq_zero hlength.symm
    exact ⟨rfl, h⟩
  | cons slot slots ih =>
    rcases slots' with _ | ⟨slot', slots'⟩
    · contradiction
    · rw [List.map_cons, List.map_cons, textOf_cons, textOf_cons, List.append_assoc,
        List.append_assoc, List.cons_append, List.cons_append] at h
      obtain ⟨rfl, htail⟩ := slot_append_inj hname hline h
      obtain ⟨rfl, hrest⟩ := ih (Nat.succ.inj hlength) htail
      exact ⟨rfl, hrest⟩

/-- The figures and what comes after their lines are determined by the text from the lines on. -/
theorem figures_append_inj {stats stats' : TableStats} {rest rest' : List Char}
    (h : textOf (figureLines stats) ++ rest = textOf (figureLines stats') ++ rest') :
    stats = stats' ∧ rest = rest' := by
  have hend : ";".toList = ';' :: [] := by decide +kernel
  simp only [figureLines, textOf_cons, textOf_nil, List.append_assoc, List.cons_append,
    List.nil_append] at h
  obtain ⟨htotal, h⟩ := numbered_append_inj hend rfl h
  obtain ⟨hminLength, h⟩ := numbered_append_inj hend rfl h
  obtain ⟨hmaxLength, h⟩ := numbered_append_inj hend rfl h
  obtain ⟨hminHash, h⟩ := numbered_append_inj hend rfl h
  obtain ⟨hmaxHash, hrest⟩ := numbered_append_inj hend rfl h
  obtain ⟨total, minLength, maxLength, minHash, maxHash⟩ := stats
  obtain ⟨total', minLength', maxLength', minHash', maxHash'⟩ := stats'
  obtain rfl : total = total' := htotal
  obtain rfl : minLength = minLength' := hminLength
  obtain rfl : maxLength = maxLength' := hmaxLength
  obtain rfl : minHash = minHash' := hminHash
  obtain rfl : maxHash = maxHash' := hmaxHash
  exact ⟨rfl, hrest⟩

omit [Code C] in
/-- The figures of a table and what comes after the heading are determined by the source. -/
theorem heading_append_inj {t t' : Table C} {rest rest' : List Char}
    (h : textOf (headingLines t) ++ rest = textOf (headingLines t') ++ rest') :
    t.stats = t'.stats ∧ rest = rest' := by
  have hend : ", duplicates = 0".toList = ',' :: " duplicates = 0".toList := by decide +kernel
  simp only [headingLines, textOf_append, textOf_cons, textOf_nil, List.append_assoc,
    List.cons_append, List.nil_append] at h
  have hrange := (List.cons.inj (List.append_cancel_left h)).2
  rw [String.toList_append, String.toList_append, List.append_assoc, List.append_assoc] at hrange
  obtain ⟨-, hblank⟩ := numbered_append_inj hend rfl (List.append_cancel_left hrange)
  obtain ⟨hstats, hrest⟩ :=
    figures_append_inj (List.cons.inj (List.append_cancel_left hblank)).2
  exact ⟨hstats, (List.cons.inj (List.append_cancel_left hrest)).2⟩

/-- Tables with the same source under the same code path have the same parts. -/
theorem eq_of_source_eq (hname : Function.Injective (Code.name : C → String))
    (hline : ∀ c : C, '\n' ∉ (Code.name c).toList) {codePath : String} {t t' : Table C}
    (h : source t codePath = source t' codePath) :
    t.association = t'.association ∧ t.slots = t'.slots ∧ t.stats = t'.stats := by
  have hassociation : t.association = t'.association := by
    have hread := congrArg readAssociation? h
    rw [readAssociation?_source, readAssociation?_source] at hread
    exact Option.some.inj hread
  have htext := congrArg String.toList h
  rw [toList_source, toList_source, lines_eq, lines_eq] at htext
  simp only [textOf_append, List.append_assoc, slotLines, textOf_cons, textOf_nil,
    List.cons_append, List.nil_append] at htext
  obtain ⟨hstats, htail⟩ := heading_append_inj htext
  rw [hassociation] at htail
  have hslots := List.append_cancel_left (List.append_cancel_left htail)
  have hend : "] = [".toList = ']' :: " = [".toList := by decide +kernel
  obtain ⟨hlength, hrest⟩ := numbered_append_inj hend rfl (List.cons.inj hslots).2
  obtain ⟨hsame, -⟩ := slots_append_inj hname hline hlength hrest
  exact ⟨hassociation, Array.toList_inj.1 hsame, hstats⟩

/-- The word list of a listing shows the slots of the table, and the source determines the table:
its association, its slots and its figures. -/
theorem wordlist_exact (hname : Function.Injective (Code.name : C → String))
    (hline : ∀ c : C, '\n' ∉ (Code.name c).toList) :
    (∀ (t : Table C) codePath, ShowsSlots codePath t.slots.toList (source t codePath)) ∧
      ∀ (t t' : Table C) codePath, source t codePath = source t' codePath →
        t.association = t'.association ∧ t.slots = t'.slots ∧ t.stats = t'.stats :=
  ⟨showsSlots_source, fun _ _ _ => eq_of_source_eq hname hline⟩

/-- A table of a quote and of a backslash with a newline, for given codes. -/
def escapedTexts (first second : Mnemonic) : Table Mnemonic where
  association := .filled 0
  slots := #[none, some ⟨"\"", first⟩, some ⟨"\\\n", second⟩]
  minWordLength := 1
  maxWordLength := 2
  minHashValue := 1
  totalKeywords := 2

/-- The names of the mnemonics are different and none has a newline. So a listing tells which of two
texts has which code, even if the path of the codes looks like the end of an element. -/
theorem wordlist_escapedTexts :
    Function.Injective (Code.name : Mnemonic → String) ∧
      (∀ m : Mnemonic, '\n' ∉ (Code.name m).toList) ∧
      ShowsSlots ")),\n];" (escapedTexts .b .bl).slots.toList
        (source (escapedTexts .b .bl) ")),\n];") ∧
      source (escapedTexts .b .bl) ")),\n];" ≠ source (escapedTexts .bl .b) ")),\n];" := by
  have hlisted : ∀ m, m ∈ Mnemonic.invalid :: Mnemonic.all := by
    intro m
    cases m <;> decide
  have hnodup : ((Mnemonic.invalid :: Mnemonic.all).map (Code.name : Mnemonic → String)).Nodup := by
    decide +kernel
  have hlines : ∀ m ∈ Mnemonic.invalid :: Mnemonic.all, '\n' ∉ (Code.name m).toList := by
    decide +kernel
  have hname : Function.Injective (Code.name : Mnemonic → String) := fun m m' h =>
    List.inj_on_of_nodup_map hnodup (hlisted m) (hlisted m') h
  have hline : ∀ m : Mnemonic, '\n' ∉ (Code.name m).toList := fun m => hlines m (hlisted m)
  obtain ⟨hshows, hsame⟩ := wordlist_exact hname hline
  refine ⟨hname, hline, hshows _ _, fun h => ?_⟩
  obtain ⟨-, hslots, -⟩ := hsame _ _ _ h
  exact absurd hslots (by decide +kernel)

end KeywordHash.Listing
