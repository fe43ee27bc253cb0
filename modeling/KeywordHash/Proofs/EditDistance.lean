import Mathlib.Order.Bounds.Basic
import Mathlib.Order.MinMax
import KeywordHash.Vocabulary

/-!
# The edit distance counts edits

An edit inserts, deletes or replaces one character, and `Edits n` is to make `n` of them one after
the other. `fewest` follows the table of the distance, whose entries obey the usual recursion
(`fewest_cons_cons`): a row ends with the row of the shorter text, so that each step of the table
only adds an entry in front. As many edits as `fewest` counts lead from one text to the other
(`edits_fewest`), and one edit lowers it by at most one whatever the other text is
(`fewest_le_succ`), so no fewer do. `isLeast_distance` is the outcome.
-/

namespace KeywordHash.Levenshtein

/-! ## Edits -/

/-- One edit. -/
inductive Edit : List Char → List Char → Prop where
  /-- A character is inserted. -/
  | insert (before after : List Char) (c : Char) : Edit (before ++ after) (before ++ c :: after)
  /-- A character is deleted. -/
  | delete (before after : List Char) (c : Char) : Edit (before ++ c :: after) (before ++ after)
  /-- A character is replaced. -/
  | replace (before after : List Char) (c d : Char) :
    Edit (before ++ c :: after) (before ++ d :: after)

/-- A number of edits, one after the other. -/
inductive Edits : Nat → List Char → List Char → Prop where
  /-- No edit. -/
  | none (xs : List Char) : Edits 0 xs xs
  /-- An edit in front of others. -/
  | more {n : Nat} {xs ys zs : List Char} (first : Edit xs ys) (rest : Edits n ys zs) :
    Edits (n + 1) xs zs

/-- An edit behind a character is an edit. -/
theorem Edit.cons {xs ys : List Char} (h : Edit xs ys) (c : Char) : Edit (c :: xs) (c :: ys) := by
  rcases h with ⟨before, after, d⟩ | ⟨before, after, d⟩ | ⟨before, after, d, d'⟩
  · exact .insert (c :: before) after d
  · exact .delete (c :: before) after d
  · exact .replace (c :: before) after d d'

/-- Edits behind a character are edits. -/
theorem Edits.cons {n : Nat} {xs ys : List Char} (h : Edits n xs ys) (c : Char) :
    Edits n (c :: xs) (c :: ys) := by
  induction h with
  | none xs => exact .none (c :: xs)
  | more first rest ih => exact .more (first.cons c) ih

/-- Of two numbers of edits that lead from one text to another, the smaller one does. -/
theorem Edits.min {m n : Nat} {xs ys : List Char} (h : Edits m xs ys) (h' : Edits n xs ys) :
    Edits (min m n) xs ys := by
  rcases min_choice m n with hmin | hmin
  · rwa [hmin]
  · rwa [hmin]

/-! ## The recursion -/

/-- The entry of the table for two texts. -/
def fewest (xs ys : List Char) : Nat := (distances xs ys).headD 0

/-- The row of a text ends with the row of the text without its first character. -/
theorem distances_cons (x : Char) (xs ys : List Char) :
    distances (x :: xs) ys = fewest (x :: xs) ys :: distances xs ys := by
  induction ys with
  | nil => rfl
  | cons y ys ih =>
    have hstep : ∀ xs, distances xs (y :: ys) = extend y xs (distances xs ys) := fun _ => rfl
    unfold fewest
    rw [hstep, hstep, ih]
    rfl

/-- Every row has an entry. -/
theorem exists_distances (xs ys : List Char) :
    ∃ later, distances xs ys = fewest xs ys :: later := by
  rcases xs with _ | ⟨x, xs⟩
  · induction ys with
    | nil => exact ⟨[], rfl⟩
    | cons y ys ih =>
      obtain ⟨later, hrow⟩ := ih
      have hstep : distances [] (y :: ys) = extend y [] (distances [] ys) := rfl
      refine ⟨[], ?_⟩
      unfold fewest
      rw [hstep, hrow]
      rfl
  · exact ⟨distances xs ys, distances_cons x xs ys⟩

/-- To come to the empty text, everything is deleted. -/
theorem fewest_nil_right (xs : List Char) : fewest xs [] = xs.length := by
  rcases xs with _ | _
  · rfl
  · rfl

/-- To start from the empty text, everything is inserted. -/
theorem fewest_nil_cons (y : Char) (ys : List Char) : fewest [] (y :: ys) = fewest [] ys + 1 := by
  obtain ⟨later, hrow⟩ := exists_distances [] ys
  have hstep : distances [] (y :: ys) = extend y [] (distances [] ys) := rfl
  conv_lhs => unfold fewest
  rw [hstep, hrow]
  rfl

/-- Of two texts with a first character, the first is deleted, the second inserted in front of it,
or the second put in the place of the first. -/
theorem fewest_cons_cons (x y : Char) (xs ys : List Char) :
    fewest (x :: xs) (y :: ys)
      = min (min (fewest xs (y :: ys) + 1) (fewest (x :: xs) ys + 1))
          (fewest xs ys + if x = y then 0 else 1) := by
  have hstep : ∀ xs, distances xs (y :: ys) = extend y xs (distances xs ys) := fun _ => rfl
  conv_lhs => unfold fewest
  rw [hstep, distances_cons]
  rfl

/-! ## Enough edits -/

/-- The edits that the table counts lead from one text to the other. -/
theorem edits_fewest (xs ys : List Char) : Edits (fewest xs ys) xs ys := by
  induction xs generalizing ys with
  | nil =>
    induction ys with
    | nil => exact .none []
    | cons y ys ih =>
      rw [fewest_nil_cons]
      exact .more (.insert [] [] y) (ih.cons y)
  | cons x xs ihxs =>
    induction ys with
    | nil =>
      have hrest := ihxs []
      rw [fewest_nil_right] at hrest ⊢
      exact .more (.delete [] xs x) hrest
    | cons y ys ihys =>
      have hdelete : Edits (fewest xs (y :: ys) + 1) (x :: xs) (y :: ys) :=
        .more (.delete [] xs x) (ihxs (y :: ys))
      have hinsert : Edits (fewest (x :: xs) ys + 1) (x :: xs) (y :: ys) :=
        .more (.insert [] (x :: xs) y) (ihys.cons y)
      have hreplace : Edits (fewest xs ys + if x = y then 0 else 1) (x :: xs) (y :: ys) := by
        split_ifs with hxy
        · rw [hxy]
          exact (ihxs ys).cons y
        · exact .more (.replace [] xs x y) ((ihxs ys).cons y)
      rw [fewest_cons_cons]
      exact (hdelete.min hinsert).min hreplace

/-! ## No fewer edits -/

/-- From a text to itself there is nothing to edit. -/
theorem fewest_self (xs : List Char) : fewest xs xs = 0 := by
  induction xs with
  | nil => rfl
  | cons x xs ih =>
    rw [fewest_cons_cons, if_pos rfl, ih]
    exact Nat.min_zero _

/-- One character more in the second text is one edit more at most. -/
theorem fewest_cons_right_le (xs : List Char) (y : Char) (ys : List Char) :
    fewest xs (y :: ys) ≤ fewest xs ys + 1 := by
  rcases xs with _ | ⟨x, xs⟩
  · exact (fewest_nil_cons y ys).le
  · rw [fewest_cons_cons]
    omega

/-- One character more in the first text is one edit more at most. -/
theorem fewest_cons_left_le (x : Char) (xs ys : List Char) :
    fewest (x :: xs) ys ≤ fewest xs ys + 1 := by
  rcases ys with _ | ⟨y, ys⟩
  · rw [fewest_nil_right, fewest_nil_right, List.length_cons]
  · rw [fewest_cons_cons]
    omega

/-- One character less in the first text is one edit more at most. -/
theorem fewest_le_cons_left (x : Char) (xs ys : List Char) :
    fewest xs ys ≤ fewest (x :: xs) ys + 1 := by
  induction ys with
  | nil =>
    rw [fewest_nil_right, fewest_nil_right, List.length_cons]
    omega
  | cons y ys ih =>
    have hright := fewest_cons_right_le xs y ys
    rw [fewest_cons_cons]
    omega

/-- Another character in the first text is one edit more at most. -/
theorem fewest_replace_le (x x' : Char) (xs ys : List Char) :
    fewest (x :: xs) ys ≤ fewest (x' :: xs) ys + 1 := by
  induction ys with
  | nil =>
    rw [fewest_nil_right, fewest_nil_right, List.length_cons, List.length_cons]
    omega
  | cons y ys ih =>
    rw [fewest_cons_cons x, fewest_cons_cons x']
    split_ifs
    all_goals omega

/-- Texts that are one edit apart at most are so behind a character in common. -/
theorem fewest_cons_le {xs xs' : List Char} (h : ∀ ys, fewest xs ys ≤ fewest xs' ys + 1)
    (x : Char) (ys : List Char) : fewest (x :: xs) ys ≤ fewest (x :: xs') ys + 1 := by
  induction ys with
  | nil =>
    have hnil := h []
    rw [fewest_nil_right, fewest_nil_right] at hnil ⊢
    rw [List.length_cons, List.length_cons]
    omega
  | cons y ys ih =>
    have hdelete := h (y :: ys)
    have hreplace := h ys
    rw [fewest_cons_cons, fewest_cons_cons]
    omega

/-- Texts that are one edit apart at most are so behind a start in common. -/
theorem fewest_append_le {xs xs' : List Char} (h : ∀ ys, fewest xs ys ≤ fewest xs' ys + 1)
    (before ys : List Char) : fewest (before ++ xs) ys ≤ fewest (before ++ xs') ys + 1 := by
  induction before generalizing ys with
  | nil => exact h ys
  | cons x before ih => exact fewest_cons_le ih x ys

/-- One edit of the first text lowers the number by one at most. -/
theorem fewest_le_succ {xs ys : List Char} (h : Edit xs ys) (zs : List Char) :
    fewest xs zs ≤ fewest ys zs + 1 := by
  rcases h with ⟨before, after, c⟩ | ⟨before, after, c⟩ | ⟨before, after, c, d⟩
  · exact fewest_append_le (fewest_le_cons_left c after) before zs
  · exact fewest_append_le (fewest_cons_left_le c after) before zs
  · exact fewest_append_le (fewest_replace_le c d after) before zs

/-- No fewer edits than the table counts lead from one text to another. -/
theorem fewest_le {n : Nat} {xs ys : List Char} (h : Edits n xs ys) : fewest xs ys ≤ n := by
  induction h with
  | none xs => exact (fewest_self xs).le
  | more first rest ih => exact (fewest_le_succ first _).trans (Nat.succ_le_succ ih)

/-! ## The distance -/

/-- The distance of two texts is the least number of edits that lead from one to the other. -/
theorem isLeast_distance (s t : String) :
    IsLeast {n | Edits n s.toList t.toList} (distance s t) :=
  ⟨edits_fewest s.toList t.toList, fun _ h => fewest_le h⟩

/-- Texts are at distance zero exactly if they are the same. -/
theorem distance_eq_zero_iff {s t : String} : distance s t = 0 ↔ s = t := by
  constructor
  · intro h
    have hedits := (isLeast_distance s t).1
    rw [h] at hedits
    generalize hs : s.toList = xs at hedits
    generalize ht : t.toList = ys at hedits
    cases hedits
    exact String.toList_inj.1 (hs.trans ht.symm)
  · rintro rfl
    exact fewest_self s.toList

end KeywordHash.Levenshtein
