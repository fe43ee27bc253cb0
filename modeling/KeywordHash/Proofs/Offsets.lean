import Mathlib.Data.List.DropRight
import Mathlib.Order.Bounds.Basic
import KeywordHash.Proofs.Location

/-!
# Errors placed by byte offsets

An error knows how many bytes were left, so its place is found from a number of bytes, which may be
inside a character of the text that is looked at. `locateBytes?` does it with offsets throughout: it
goes back from the offset to the start of a character, cuts the text there, and cuts the excerpt off
at an offset of its own, and every cut inside a character is refused. `locateBytes?_eq` says that no
cut ever is, and that the outcome is `locate`. What that reports is told without offsets by
`isGreatest_splitAtSize` (the cut is at the last boundary that is not too far), `after_eq_behind`
(lines and columns count) and `shows_excerpt`; `locate_exact` puts them together.
-/

namespace KeywordHash

/-! ## Bytes of a text -/

/-- The bytes of a text are those of its characters. -/
theorem utf8ByteSize_eq (text : String) : text.utf8ByteSize = utf8Size text.toList := by
  obtain ⟨chars, rfl⟩ := text.exists_eq_ofList
  rw [String.toList_ofList]
  induction chars with
  | nil => rfl
  | cons c rest ih =>
    rw [String.ofList_cons, String.utf8ByteSize_append, String.utf8ByteSize_singleton, ih, utf8Size]

/-- An offset is a boundary exactly if it is behind a start of the text. -/
theorem isValid_iff {text : String} {offset : Nat} :
    (⟨offset⟩ : String.Pos.Raw).IsValid text ↔
      ∃ before here, text.toList = before ++ here ∧ offset = utf8Size before := by
  rw [String.Pos.Raw.isValid_iff_exists_append]
  constructor
  · rintro ⟨s, t, rfl, hoffset⟩
    refine ⟨s.toList, t.toList, String.toList_append, ?_⟩
    rw [← utf8ByteSize_eq]
    exact congrArg String.Pos.Raw.byteIdx hoffset
  · rintro ⟨before, here, htext, rfl⟩
    refine ⟨String.ofList before, String.ofList here, ?_, ?_⟩
    · rw [← String.ofList_append, ← htext, String.ofList_toList]
    · ext
      rw [String.byteIdx_rawEndPos, utf8ByteSize_eq, String.toList_ofList]

/-- The parts of a text before and from an offset on, unless that is inside a character. -/
def cutAt? (text : String) (offset : Nat) : Option (String × String) :=
  if h : (⟨offset⟩ : String.Pos.Raw).IsValid text then
    some ((text.sliceTo (text.pos _ h)).copy, (text.sliceFrom (text.pos _ h)).copy)
  else none

/-- The last boundary that is not behind an offset, found byte by byte. -/
def boundaryBefore (text : String) : Nat → Nat
  | 0 => 0
  | offset + 1 =>
    if String.Pos.Raw.isValid text ⟨offset + 1⟩ then offset + 1 else boundaryBefore text offset

/-- A text is cut behind its start. -/
theorem cutAt?_append (s t : String) : cutAt? (s ++ t) s.utf8ByteSize = some (s, t) := by
  have hvalid : (⟨s.utf8ByteSize⟩ : String.Pos.Raw).IsValid (s ++ t) :=
    String.Pos.Raw.isValid_rawEndPos.append_right t
  have hsplits : ((s ++ t).pos _ hvalid).Splits s t := String.Pos.splits_append_rawEndPos
  unfold cutAt?
  rw [dif_pos hvalid, hsplits.copy_sliceTo_eq, hsplits.copy_sliceFrom_eq]

/-- Going back finds the last boundary. -/
theorem isGreatest_boundaryBefore (text : String) (offset : Nat) :
    IsGreatest {i | (⟨i⟩ : String.Pos.Raw).IsValid text ∧ i ≤ offset}
      (boundaryBefore text offset) := by
  induction offset with
  | zero => exact ⟨⟨String.Pos.Raw.isValid_zero, Nat.le_refl 0⟩, fun i hi => hi.2⟩
  | succ offset ih =>
    rw [boundaryBefore]
    split_ifs with hvalid
    · rw [String.Pos.Raw.isValid_eq_true_iff] at hvalid
      exact ⟨⟨hvalid, Nat.le_refl _⟩, fun i hi => hi.2⟩
    · rw [String.Pos.Raw.isValid_eq_true_iff] at hvalid
      refine ⟨⟨ih.1.1, Nat.le_succ_of_le ih.1.2⟩, fun i hi => ?_⟩
      obtain ⟨hboundary, hle⟩ := hi
      have hne : i ≠ offset + 1 := by
        rintro rfl
        exact hvalid hboundary
      exact ih.2 ⟨hboundary, by omega⟩

/-! ## The cut -/

/-- A cut loses nothing. -/
theorem splitAtSize_join (size : Nat) (chars : List Char) :
    (splitAtSize size chars).1 ++ (splitAtSize size chars).2 = chars := by
  induction chars generalizing size with
  | nil => rfl
  | cons c rest ih =>
    rw [splitAtSize]
    split_ifs with hfits
    · exact congrArg (c :: ·) (ih (size - c.utf8Size))
    · rfl

/-- What is before a cut is within the size. -/
theorem utf8Size_splitAtSize_le (size : Nat) (chars : List Char) :
    utf8Size (splitAtSize size chars).1 ≤ size := by
  induction chars generalizing size with
  | nil => exact Nat.zero_le size
  | cons c rest ih =>
    rw [splitAtSize]
    split_ifs with hfits
    · have hrest := ih (size - c.utf8Size)
      show c.utf8Size + utf8Size (splitAtSize (size - c.utf8Size) rest).1 ≤ size
      omega
    · exact Nat.zero_le size

/-- Every other start of the text that is within the size is no longer than what is before the
cut. -/
theorem utf8Size_le_splitAtSize {size : Nat} {chars before here : List Char}
    (h : chars = before ++ here) (hsize : utf8Size before ≤ size) :
    utf8Size before ≤ utf8Size (splitAtSize size chars).1 := by
  induction before generalizing size chars with
  | nil => exact Nat.zero_le _
  | cons c before ih =>
    subst h
    rw [utf8Size] at hsize
    have hfits : c.utf8Size ≤ size := by omega
    have hsize' : utf8Size before ≤ size - c.utf8Size := by omega
    have hrest := ih rfl hsize'
    rw [List.cons_append, splitAtSize, if_pos hfits]
    exact Nat.add_le_add_left hrest c.utf8Size

/-- The cut is at the last boundary that is within the size. -/
theorem isGreatest_splitAtSize (text : String) (size : Nat) :
    IsGreatest {i | (⟨i⟩ : String.Pos.Raw).IsValid text ∧ i ≤ size}
      (utf8Size (splitAtSize size text.toList).1) := by
  refine ⟨⟨isValid_iff.2 ⟨_, _, (splitAtSize_join size _).symm, rfl⟩,
    utf8Size_splitAtSize_le size _⟩, fun i hi => ?_⟩
  obtain ⟨hboundary, hle⟩ := hi
  obtain ⟨before, here, htext, rfl⟩ := isValid_iff.1 hboundary
  exact utf8Size_le_splitAtSize htext hle

/-! ## The excerpt -/

/-- The characters of a text, each with its offset. -/
def withOffsets (offset : Nat) : List Char → List (Nat × Char)
  | [] => []
  | c :: rest => (offset, c) :: withOffsets (offset + c.utf8Size) rest

/-- The offset behind the last of at most 20 characters of the first line. -/
def excerptEnd (text : String) : Nat :=
  let shown := ((withOffsets 0 text.toList).takeWhile fun p => p.2 ≠ '\n').take 20
  (shown.getLast?.map fun p => p.1 + p.2.utf8Size).getD 0

/-- Characters are taken with their offsets. -/
theorem takeWhile_withOffsets (p : Char → Bool) (offset : Nat) (chars : List Char) :
    (withOffsets offset chars).takeWhile (fun q => p q.2)
      = withOffsets offset (chars.takeWhile p) := by
  induction chars generalizing offset with
  | nil => rfl
  | cons c rest ih =>
    rw [withOffsets, List.takeWhile_cons, List.takeWhile_cons, ih]
    split_ifs
    · rfl
    · rfl

/-- So are the first characters. -/
theorem take_withOffsets (n offset : Nat) (chars : List Char) :
    (withOffsets offset chars).take n = withOffsets offset (chars.take n) := by
  induction chars generalizing n offset with
  | nil => rw [withOffsets, List.take_nil, List.take_nil, withOffsets]
  | cons c rest ih =>
    rcases n with _ | n
    · rfl
    · rw [withOffsets, List.take_succ_cons, List.take_succ_cons, ih, withOffsets]

/-- The offset behind the last character is the offset of the first and the size of all. -/
theorem getLast?_withOffsets (offset : Nat) (chars : List Char) :
    ((withOffsets offset chars).getLast?.map fun p => p.1 + p.2.utf8Size).getD offset
      = offset + utf8Size chars := by
  induction chars generalizing offset with
  | nil => rfl
  | cons c rest ih =>
    have hrest := ih (offset + c.utf8Size)
    rw [withOffsets, utf8Size, ← Nat.add_assoc, ← hrest]
    rcases rest with _ | ⟨d, rest⟩
    · rfl
    · rw [withOffsets, List.getLast?_cons_cons]
      rfl

/-- The excerpt ends at the offset. -/
theorem excerptEnd_eq (text : String) : excerptEnd text = utf8Size (excerpt text.toList) := by
  have hlast := getLast?_withOffsets 0 (excerpt text.toList)
  unfold excerptEnd
  rw [takeWhile_withOffsets (fun c => c ≠ '\n'), take_withOffsets]
  rw [Nat.zero_add] at hlast
  exact hlast

/-- What is shown of the text at a place. -/
structure Shows (shown here : List Char) : Prop where
  /-- It is what comes there. -/
  start : shown <+: here
  /-- It has at most 20 characters. -/
  short : shown.length ≤ 20
  /-- It does not go on behind the line. -/
  line : '\n' ∉ shown
  /-- It is the longest such. -/
  longest : ∀ other, other <+: here → other.length ≤ 20 → '\n' ∉ other → other <+: shown

/-- The excerpt is what is to be shown. -/
theorem shows_excerpt (here : List Char) : Shows (excerpt here) here where
  start := (List.take_prefix 20 _).trans (List.takeWhile_prefix _)
  short := List.length_take_le _ _
  line := by
    intro hmem
    have hline := List.mem_takeWhile_imp (List.mem_of_mem_take hmem)
    simp at hline
  longest := by
    rintro other ⟨rest, rfl⟩ hlength hline
    have hall : ∀ c ∈ other, (c ≠ '\n' : Bool) = true := fun c hc =>
      decide_eq_true fun heq => hline (heq ▸ hc)
    refine List.prefix_take_iff.2 ⟨?_, hlength⟩
    rw [List.takeWhile_append_of_pos hall]
    exact List.prefix_append _ _

/-! ## The place -/

/-- The place behind a text, by counting: its line counts the newlines and its column the characters
behind the last of them, both from 1. -/
def Location.behind (chars : List Char) : Location :=
  ⟨chars.count '\n' + 1, (chars.rtakeWhile fun c => c ≠ '\n').length + 1⟩

/-- Walking over a text leads to the place behind it. -/
theorem Location.after_eq_behind (chars : List Char) :
    Location.after chars = Location.behind chars := by
  unfold behind
  induction chars using List.reverseRecOn with
  | nil => rfl
  | append_singleton chars c ih =>
    have hstep : Location.after (chars ++ [c]) = (Location.after chars).advance c := by
      rw [Location.after, List.foldl_append]
      rfl
    rw [hstep, ih, List.rtakeWhile_concat, List.count_append, Location.advance]
    by_cases hc : c = '\n'
    · subst hc
      rfl
    · simp [hc]

namespace Definition

namespace ParseError

/-- Finds the place of an error as `locate` does, with offsets and refused cuts. -/
def locateBytes? (e : ParseError) (source : String) : Option LocatedError := do
  let offset := source.utf8ByteSize - utf8Size e.innermost.rest
  let (before, here) ← cutAt? source (boundaryBefore source offset)
  let (shown, _) ← cutAt? here (excerptEnd here)
  return {
    location := Location.after before.toList
    context? := e.context?
    cause := e.innermost.cause
    excerpt := shown.toList }

/-- No cut is inside a character, and what is found is the place of the error. -/
theorem locateBytes?_eq (e : ParseError) (source : String) :
    e.locateBytes? source = some (e.locate source.toList) := by
  generalize hoffset : source.utf8ByteSize - utf8Size e.innermost.rest = offset
  generalize hcut : splitAtSize offset source.toList = cut
  obtain ⟨before, here⟩ := cut
  have hjoin : before ++ here = source.toList := by
    have hjoin := splitAtSize_join offset source.toList
    rwa [hcut] at hjoin
  -- Both cuts turn out to be behind a start of the text that is cut.
  have hboundary : boundaryBefore source offset = (String.ofList before).utf8ByteSize := by
    have hgreatest := isGreatest_splitAtSize source offset
    rw [hcut] at hgreatest
    rw [(isGreatest_boundaryBefore source offset).unique hgreatest, utf8ByteSize_eq,
      String.toList_ofList]
  have hsource : source = String.ofList before ++ String.ofList here := by
    rw [← String.ofList_append, hjoin, String.ofList_toList]
  have hfirst : cutAt? source (boundaryBefore source offset)
      = some (String.ofList before, String.ofList here) := by
    rw [hboundary]
    conv_lhs => rw [hsource]
    exact cutAt?_append _ _
  obtain ⟨more, hmore⟩ := (shows_excerpt here).start
  have hend : excerptEnd (String.ofList here) = (String.ofList (excerpt here)).utf8ByteSize := by
    rw [excerptEnd_eq, utf8ByteSize_eq, String.toList_ofList, String.toList_ofList]
  have hsecond : cutAt? (String.ofList here) (excerptEnd (String.ofList here))
      = some (String.ofList (excerpt here), String.ofList more) := by
    rw [hend]
    conv_lhs => rw [← hmore, String.ofList_append]
    rw [hmore]
    exact cutAt?_append _ _
  have hlocate : e.locate source.toList
      = ⟨Location.after before, e.context?, e.innermost.cause, excerpt here⟩ := by
    unfold locate
    rw [← utf8ByteSize_eq, hoffset, hcut]
  unfold locateBytes?
  simp only [hoffset, hfirst, hsecond, hlocate, Option.bind_eq_bind, Option.bind_some,
    String.toList_ofList]
  rfl

/-- An error is placed in any text without a cut inside a character: at the last boundary that has
as many bytes behind it as were left, or at the start of a text that has fewer. The line counts the
newlines before and the column the characters behind the last of them, so no two places of a text
have the same; the excerpt is the longest start of what comes there that has at most 20 characters
and no newline. If what was left ends the text, the place is right in front of it. -/
theorem locate_exact (e : ParseError) (source : String) :
    e.locateBytes? source = some (e.locate source.toList) ∧
      (∃ before here, source.toList = before ++ here ∧
        IsGreatest {i | (⟨i⟩ : String.Pos.Raw).IsValid source ∧
          i ≤ source.utf8ByteSize - utf8Size e.innermost.rest} (utf8Size before) ∧
        (e.locate source.toList).location = Location.behind before ∧
        Shows (e.locate source.toList).excerpt here ∧
        ∀ front, source.toList = front ++ e.innermost.rest → before = front) ∧
      ∀ before before' here here', source.toList = before ++ here →
        source.toList = before' ++ here' → Location.behind before = Location.behind before' →
          before = before' := by
  refine ⟨e.locateBytes?_eq source, ?_, ?_⟩
  · have hsize := utf8ByteSize_eq source
    refine ⟨(splitAtSize (utf8Size source.toList - utf8Size e.innermost.rest) source.toList).1,
      (splitAtSize (utf8Size source.toList - utf8Size e.innermost.rest) source.toList).2,
      (splitAtSize_join _ _).symm, ?_, Location.after_eq_behind _, shows_excerpt _, ?_⟩
    · rw [hsize]
      exact isGreatest_splitAtSize source _
    · intro front hfront
      have hfits : utf8Size source.toList - utf8Size e.innermost.rest = utf8Size front := by
        rw [hfront, utf8Size_append]
        omega
      rw [hfits, hfront, splitAtSize_append]
  · intro before before' here here' h h' hplace
    rw [← Location.after_eq_behind, ← Location.after_eq_behind] at hplace
    have hjoin : before ++ here = before' ++ here' := h.symm.trans h'
    have hhere : here = here' := (Location.after_eq_after_iff hjoin).1 hplace
    rw [hhere] at hjoin
    exact List.append_cancel_right hjoin

end ParseError

end Definition

end KeywordHash
