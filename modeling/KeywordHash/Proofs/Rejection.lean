import KeywordHash.Vocabulary

/-!
# What a rejection is about

A list of entries that is no vocabulary is rejected for the first entry with a fault of its own
(`FirstFault`) or, where no entry has one, for the first two that clash (`FirstClash`), in the order
of the earlier entry and then of the later. The rejection is about the entry with the fault or the
later of the two (`Blames`). `blames_of_ofEntries` says that every rejection is about some entry,
except that of a list without entries.
-/

namespace KeywordHash

variable {C : Type} [DecidableEq C]

/-- Whether a rejection is about a code. The others are about texts, or about there being none. -/
def VocabularyError.ConcernsCode : VocabularyError → Prop
  | .invalidCode _ => True
  | .duplicateCode _ _ => True
  | _ => False

/-- Two entries that clash have the same text or, if not, the same code. -/
theorem Entry.clash?_eq_some {x y : Entry C} {error : VocabularyError}
    (h : x.clash? y = some error) :
    x.text = y.text ∧ error = .duplicateText x.text ∨
      x.text ≠ y.text ∧ error = .duplicateCode x.text y.text := by
  unfold Entry.clash? at h
  split at h
  · next htext => exact .inl ⟨htext, (Option.some.inj h).symm⟩
  · next htext =>
    split at h
    · exact .inr ⟨htext, (Option.some.inj h).symm⟩
    · contradiction

/-- Two entries with the same text clash. -/
theorem Entry.clash?_of_text {x y : Entry C} (h : x.text = y.text) :
    x.clash? y ≠ none := by
  unfold Entry.clash?
  rw [if_pos h]
  exact Option.some_ne_none _

/-- The fault of an entry is one of its text, which all entries with this text have, or one of its
code. -/
theorem Entry.fault?_eq_some [Code C] {e : Entry C} {error : VocabularyError}
    (h : e.fault? = some error) :
    (¬ error.ConcernsCode ∧ (error = .length e.text ∨ error = .containsNul e.text) ∧
        ∀ e' : Entry C, e'.text = e.text → e'.fault? = some error) ∨
      error = .invalidCode e.text := by
  have hword : ∀ e' : Entry C, e'.text = e.text → e'.word = e.word := fun e' htext =>
    congrArg Word.ofText htext
  unfold Entry.fault? at h ⊢
  split at h
  · next hlength =>
    obtain rfl := Option.some.inj h
    refine .inl ⟨fun h => h, .inl rfl, fun e' htext => ?_⟩
    rw [hword e' htext, if_pos hlength, htext]
  · next hlength =>
    split at h
    · next hnul =>
      obtain rfl := Option.some.inj h
      refine .inl ⟨fun h => h, .inr rfl, fun e' htext => ?_⟩
      rw [hword e' htext, if_neg hlength, if_pos hnul, htext]
    · split at h
      · exact .inr (Option.some.inj h).symm
      · contradiction

/-! ## The entry that a rejection is about -/

/-- The first entry with a fault of its own is at position `j`, and the fault is `error`. -/
structure FirstFault [Code C] (entries : List (Entry C)) (error : VocabularyError) (j : Nat) :
    Prop where
  /-- The entry has the fault. -/
  fault : ∃ e, entries[j]? = some e ∧ e.fault? = some error
  /-- No earlier entry has one. -/
  first : ∀ i < j, ∀ e, entries[i]? = some e → e.fault? = none

/-- The first two entries that clash are at positions `i` and `j`, and they share `error`. -/
structure FirstClash (entries : List (Entry C)) (error : VocabularyError) (i j : Nat) : Prop where
  /-- The second comes later. -/
  lt : i < j
  /-- The two clash. -/
  clash : ∃ x y, entries[i]? = some x ∧ entries[j]? = some y ∧ x.clash? y = some error
  /-- No two clash whose earlier one comes before, or whose earlier one is the same and whose later
  one comes before. -/
  first : ∀ k l, k < l → k < i ∨ k = i ∧ l < j → ∀ x y, entries[k]? = some x →
    entries[l]? = some y → x.clash? y = none

/-- A rejection is about the first entry with a fault of its own or, where none has one, about the
later of the first two that clash. -/
inductive Blames [Code C] (entries : List (Entry C)) (error : VocabularyError) : Nat → Prop where
  /-- An entry has a fault of its own. -/
  | fault {j : Nat} (first : FirstFault entries error j) : Blames entries error j
  /-- Two entries clash. -/
  | clash {i j : Nat} (faultless : ∀ e ∈ entries, e.fault? = none)
    (first : FirstClash entries error i j) : Blames entries error j

/-- The first fault of an entry is that of an entry. -/
theorem firstFault_of_findSome? [Code C] {entries : List (Entry C)} {error : VocabularyError}
    (h : entries.findSome? Entry.fault? = some error) : ∃ j, FirstFault entries error j := by
  obtain ⟨before, e, after, rfl, hfault, hbefore⟩ := List.findSome?_eq_some_iff.1 h
  refine ⟨before.length, ⟨e, by simp, hfault⟩, fun i hi e' he' => ?_⟩
  rw [List.getElem?_append_left hi] at he'
  exact hbefore e' (List.mem_of_getElem? he')

/-- The first clash is that of two entries. -/
theorem firstClash_of_firstClash? {entries : List (Entry C)} {error : VocabularyError}
    (h : firstClash? entries = some error) : ∃ i j, FirstClash entries error i j := by
  induction entries with
  | nil => cases h
  | cons e rest ih =>
    rcases Option.or_eq_some_iff.1 h with hhead | ⟨hnone, hlater⟩
    · -- The first entry clashes with a later one.
      obtain ⟨between, y, after, rfl, hclash, hbetween⟩ := List.findSome?_eq_some_iff.1 hhead
      refine ⟨0, between.length + 1, Nat.succ_pos _, ⟨e, y, rfl, by simp, hclash⟩, ?_⟩
      intro k l hkl hearlier x y' hx hy
      have hk : k = 0 := by omega
      subst hk
      obtain rfl := Option.some.inj hx
      obtain ⟨l, rfl⟩ : ∃ m, l = m + 1 := ⟨l - 1, by omega⟩
      have hl : l < between.length := by omega
      rw [List.getElem?_cons_succ, List.getElem?_append_left hl] at hy
      exact hbetween y' (List.mem_of_getElem? hy)
    · obtain ⟨i, j, hlt, ⟨x, y, hx, hy, hclash⟩, hfirst⟩ := ih hlater
      refine ⟨i + 1, j + 1, Nat.succ_lt_succ hlt, ⟨x, y, hx, hy, hclash⟩, ?_⟩
      intro k l hkl hearlier x' y' hx' hy'
      obtain ⟨l, rfl⟩ : ∃ m, l = m + 1 := ⟨l - 1, by omega⟩
      rw [List.getElem?_cons_succ] at hy'
      rcases k with _ | k
      · obtain rfl := Option.some.inj hx'
        exact List.findSome?_eq_none_iff.1 hnone y' (List.mem_of_getElem? hy')
      · exact hfirst k l (by omega) (by omega) x' y' hx' hy'

variable [Code C]

/-- Entries that are rejected have a fault or clash, or there are none. -/
theorem Vocabulary.fault?_of_ofEntries {entries : List (Entry C)} {error : VocabularyError}
    (h : Vocabulary.ofEntries entries = .error error) :
    Vocabulary.fault? entries = some error := by
  unfold ofEntries at h
  split at h
  · next hfault => rwa [← Except.error.inj h]
  · contradiction

/-- A rejection is about an entry, unless there are none. -/
theorem blames_of_ofEntries {entries : List (Entry C)} {error : VocabularyError}
    (h : Vocabulary.ofEntries entries = .error error) (hne : error ≠ .empty) :
    ∃ j, Blames entries error j := by
  have hfault := Vocabulary.fault?_of_ofEntries h
  unfold Vocabulary.fault? at hfault
  split at hfault
  · exact absurd (Option.some.inj hfault).symm hne
  · rcases Option.or_eq_some_iff.1 hfault with hown | ⟨hnone, hclash⟩
    · obtain ⟨j, hfirst⟩ := firstFault_of_findSome? hown
      exact ⟨j, .fault hfirst⟩
    · obtain ⟨i, j, hfirst⟩ := firstClash_of_firstClash? hclash
      exact ⟨j, .clash (List.findSome?_eq_none_iff.1 hnone) hfirst⟩

/-- Where the first of three entries clashes with the third only, the rejection is about the
third. -/
theorem blames_third {a b c : Entry C} {error : VocabularyError}
    (hfaultless : ∀ e ∈ [a, b, c], e.fault? = none) (hsecond : a.clash? b = none)
    (hthird : a.clash? c = some error) : Blames [a, b, c] error 2 := by
  refine .clash hfaultless ⟨Nat.succ_pos 1, ⟨a, c, rfl, rfl, hthird⟩, ?_⟩
  intro k l hkl hearlier x y hx hy
  obtain ⟨rfl, rfl⟩ : k = 0 ∧ l = 1 := by omega
  cases hx
  cases hy
  exact hsecond

end KeywordHash
