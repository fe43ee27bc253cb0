import KeywordHash.Definition.ParseError

/-!
# Where a suffix starts

An error is placed by the size of what was left. If that is the end of the text, the cut at this
distance from the end is right in front of it (`splitAtSize_append`), so the place of the error is
the one behind what stands before (`location_of_suffix`). Places behind more and more of a text come
one after the other (`precedes_foldl`), so an error with another rest is at another place
(`after_eq_after_iff`). The line of a place counts the newlines before it (`line_foldl`).
-/

namespace KeywordHash

/-! ## Cuts -/

/-- Sizes add up. -/
theorem utf8Size_append (before rest : List Char) :
    utf8Size (before ++ rest) = utf8Size before + utf8Size rest := by
  induction before with
  | nil => exact (Nat.zero_add _).symm
  | cons c before ih =>
    rw [List.cons_append, utf8Size, utf8Size, ih, Nat.add_assoc]

/-- A cut by the size of what stands first is right behind it. -/
theorem splitAtSize_append (before rest : List Char) :
    splitAtSize (utf8Size before) (before ++ rest) = (before, rest) := by
  induction before with
  | nil =>
    rcases rest with _ | ⟨c, rest⟩
    · rfl
    · have hpos : ¬ c.utf8Size ≤ utf8Size [] := Nat.not_le_of_lt c.utf8Size_pos
      rw [List.nil_append, splitAtSize, if_neg hpos]
  | cons c before ih =>
    have hsize : utf8Size (c :: before) = c.utf8Size + utf8Size before := rfl
    have hle : c.utf8Size ≤ utf8Size (c :: before) := by omega
    have hrest : utf8Size (c :: before) - c.utf8Size = utf8Size before := by omega
    rw [List.cons_append, splitAtSize, if_pos hle, hrest, ih]

/-- An error whose innermost rest ends a text is reported behind what stands before the rest, with
the start of the rest. -/
theorem Definition.ParseError.locate_of_suffix {e : Definition.ParseError}
    {before source : List Char} (h : source = before ++ e.innermost.rest) :
    e.locate source
      = ⟨Location.after before, e.context?, e.innermost.cause, excerpt e.innermost.rest⟩ := by
  have hsize : utf8Size source - utf8Size e.innermost.rest = utf8Size before := by
    rw [h, utf8Size_append]
    omega
  have hsplit : splitAtSize (utf8Size source - utf8Size e.innermost.rest) source
      = (before, e.innermost.rest) := by
    calc splitAtSize (utf8Size source - utf8Size e.innermost.rest) source
        = splitAtSize (utf8Size before) (before ++ e.innermost.rest) := by rw [hsize, ← h]
      _ = (before, e.innermost.rest) := splitAtSize_append before e.innermost.rest
  unfold locate
  rw [hsplit]

/-- An error whose innermost rest ends a text is placed behind what stands before the rest. -/
theorem Definition.ParseError.location_of_suffix {e : Definition.ParseError}
    {before source : List Char} (h : source = before ++ e.innermost.rest) :
    (e.locate source).location = Location.after before := by
  rw [locate_of_suffix h]

/-! ## The order of places -/

namespace Location

/-- One place comes before another: on an earlier line, or in an earlier column of one line. -/
def Precedes (p q : Location) : Prop :=
  p.line < q.line ∨ p.line = q.line ∧ p.column < q.column

/-- A place comes before the one behind the next character. -/
theorem precedes_advance (p : Location) (c : Char) : p.Precedes (p.advance c) := by
  unfold Precedes advance
  by_cases hc : c = '\n'
  · rw [if_pos hc]
    exact .inl (Nat.lt_succ_self p.line)
  · rw [if_neg hc]
    exact .inr ⟨rfl, Nat.lt_succ_self p.column⟩

/-- A place comes before those that come after a later one. -/
theorem Precedes.trans {p q r : Location} (h : p.Precedes q) (h' : q.Precedes r) :
    p.Precedes r := by
  unfold Precedes at *
  omega

/-- A place comes before the one behind some more characters. -/
theorem precedes_foldl (p : Location) {chars : List Char} (hne : chars ≠ []) :
    p.Precedes (chars.foldl advance p) := by
  induction chars generalizing p with
  | nil => exact absurd rfl hne
  | cons c rest ih =>
    rw [List.foldl_cons]
    by_cases hrest : rest = []
    · rw [hrest]
      exact precedes_advance p c
    · exact (precedes_advance p c).trans (ih (p.advance c) hrest)

/-- More characters lead to another place. -/
theorem after_append_eq_iff {before more : List Char} :
    after (before ++ more) = after before ↔ more = [] := by
  constructor
  · intro h
    by_cases hne : more = []
    · exact hne
    · have hprecedes := precedes_foldl (after before) hne
      unfold after at h hprecedes
      rw [← List.foldl_append, h] at hprecedes
      unfold Precedes at hprecedes
      omega
  · intro h
    rw [h, List.append_nil]

/-- Two ends of one text start at one place exactly if they are the same. -/
theorem after_eq_after_iff {before before' rest rest' : List Char}
    (h : before ++ rest = before' ++ rest') : after before = after before' ↔ rest = rest' := by
  rcases List.append_eq_append_iff.1 h with ⟨more, rfl, rfl⟩ | ⟨more, rfl, rfl⟩
  · rw [@eq_comm _ (after before), after_append_eq_iff, List.append_left_eq_self]
  · rw [after_append_eq_iff, List.self_eq_append_left]

/-! ## Lines and columns -/

/-- Every newline opens a line. -/
theorem line_foldl (chars : List Char) (p : Location) :
    (chars.foldl advance p).line = p.line + chars.count '\n' := by
  induction chars generalizing p with
  | nil => rfl
  | cons c rest ih =>
    rw [List.foldl_cons, ih, List.count_cons]
    by_cases hc : c = '\n'
    · rw [advance, if_pos hc, hc, if_pos (beq_self_eq_true _), Nat.add_assoc, Nat.add_comm 1]
    · rw [advance, if_neg hc, if_neg (by rwa [beq_iff_eq])]
      rfl

/-- From a place further down, the same characters lead to a place as much further down. -/
theorem foldl_advance_below (chars : List Char) (p : Location) (lines : Nat) :
    chars.foldl advance ⟨p.line + lines, p.column⟩
      = ⟨(chars.foldl advance p).line + lines, (chars.foldl advance p).column⟩ := by
  induction chars generalizing p with
  | nil => rfl
  | cons c rest ih =>
    have hstep : advance ⟨p.line + lines, p.column⟩ c
        = ⟨(p.advance c).line + lines, (p.advance c).column⟩ := by
      by_cases hc : c = '\n'
      · rw [advance, advance, if_pos hc, if_pos hc, Nat.add_right_comm]
      · rw [advance, advance, if_neg hc, if_neg hc]
    rw [List.foldl_cons, List.foldl_cons, hstep, ih]

/-- Characters without a newline stay on the first line. -/
theorem after_of_not_mem {chars : List Char} (h : '\n' ∉ chars) :
    after chars = ⟨1, chars.length + 1⟩ := by
  have hcolumn : ∀ column, chars.foldl advance ⟨1, column⟩ = ⟨1, chars.length + column⟩ := by
    induction chars with
    | nil =>
      intro column
      rw [List.foldl_nil, List.length_nil, Nat.zero_add]
    | cons c rest ih =>
      intro column
      obtain ⟨hc, hrest⟩ := not_or.1 (mt List.mem_cons.2 h)
      rw [List.foldl_cons, advance, if_neg fun heq => hc heq.symm, ih hrest, List.length_cons,
        Nat.add_assoc, Nat.add_comm 1]
  exact hcolumn 1

end Location

end KeywordHash
