import KeywordHash.Proofs.Lookup

/-!
# Vocabularies with the entries of another

What a slot holds depends on which entries there are and not on their order (`slot?_place`), and the
slots determine everything that a table says of itself: its size and its figures are those of the
occupied slots. So the entries of a vocabulary in any order make the same table (`place_of_perm`).
Some of the entries have different hashes if all have, so they make a table too, with each of them
in the slot that it has among all (`exists_place_of_subset`).
-/

namespace KeywordHash

variable {C : Type}

/-- Some of the entries that an association separates are separated, if none is listed twice. -/
theorem Association.Separates.of_subset {a : Association} {entries part : List (Entry C)}
    (h : a.Separates entries) (hsub : part ⊆ entries) (hnodup : part.Nodup) :
    a.Separates part := by
  refine hnodup.pairwise_of_forall_ne fun x hx y hy hne hash => ?_
  exact hne (h.eq_of_hash_eq (hsub hx) (hsub hy) hash)

/-- Tables with as many slots and the same in each of them have the same slots. -/
theorem Table.slots_eq {t t' : Table C} (hsize : t'.slots.size = t.slots.size)
    (hslot : ∀ i, t'.slot? i = t.slot? i) : t'.slots = t.slots := by
  refine Array.ext hsize fun i hi' hi => ?_
  have hjoin := hslot i
  unfold slot? at hjoin
  rw [Array.getElem?_eq_getElem hi', Array.getElem?_eq_getElem hi] at hjoin
  exact hjoin

variable [Code C]

/-- Some of the entries of a vocabulary are a vocabulary, if none is listed twice. -/
theorem Vocabulary.valid_of_subset (v : Vocabulary C) {entries : List (Entry C)}
    (hne : entries ≠ []) (hnodup : entries.Nodup) (hsub : entries ⊆ v.entries) :
    Vocabulary.Valid entries where
  nonempty := hne
  admissible := fun e he => v.valid.admissible e (hsub he)
  distinct := hnodup.pairwise_of_forall_ne fun _ hx _ hy hxy =>
    v.valid.distinct.forall (hsub hx) (hsub hy) hxy

namespace Table

variable {v v' : Vocabulary C} {a : Association} {t t' : Table C}

/-- Some of the entries of a vocabulary with a table have a table, with each in the slot that it has
among all. -/
theorem exists_place_of_subset (hsub : v'.entries ⊆ v.entries) (h : place v a = .ok t) :
    ∃ t', place v' a = .ok t' ∧
      ∀ i e, t'.slot? i = some e ↔ e ∈ v'.entries ∧ t.slot? i = some e := by
  have hseparates : a.Separates v.entries := place_ok_iff.1 ⟨t, h⟩
  obtain ⟨t', h'⟩ := place_ok_iff.2 (hseparates.of_subset hsub v'.entries_nodup)
  refine ⟨t', h', fun i e => ?_⟩
  rw [slot?_place h', slot?_place h]
  constructor
  · rintro ⟨he, hash⟩
    exact ⟨he, hsub he, hash⟩
  · rintro ⟨he, -, hash⟩
    exact ⟨he, hash⟩

/-- The entries of a vocabulary in another order have the table that they have. -/
theorem place_of_perm (hperm : v'.entries.Perm v.entries) (h : place v a = .ok t) :
    place v' a = .ok t := by
  obtain ⟨t', h', hheld⟩ := exists_place_of_subset hperm.subset h
  have hslot : ∀ i, t'.slot? i = t.slot? i := by
    intro i
    refine Option.ext fun e => ?_
    rw [hheld, and_iff_right_of_imp]
    intro hget
    exact hperm.mem_iff.2 ((slot?_place h i e).1 hget).1
  -- All figures are those of the occupied slots or of the lengths of the texts.
  have hoccupied : t'.occupied = t.occupied := by
    ext i
    show (t'.slot? i).isSome ↔ (t.slot? i).isSome
    rw [hslot]
  have hlast : t'.maxHashValue = t.maxHashValue := by
    have hgreatest := isGreatest_maxHashValue h'
    rw [hoccupied] at hgreatest
    exact hgreatest.unique (isGreatest_maxHashValue h)
  have hfirst : t'.minHashValue = t.minHashValue := by
    have hleast := isLeast_minHashValue h'
    rw [hoccupied] at hleast
    exact hleast.unique (isLeast_minHashValue h)
  have hlengths : {n | n ∈ v'.entries.map (·.word.length)}
      = {n | n ∈ v.entries.map (·.word.length)} := by
    ext n
    exact (hperm.map _).mem_iff
  have hshortest : v'.minLength = v.minLength := by
    have hleast := v'.isLeast_minLength
    rw [hlengths] at hleast
    exact hleast.unique v.isLeast_minLength
  have hlongest : v'.maxLength = v.maxLength := by
    have hgreatest := v'.isGreatest_maxLength
    rw [hlengths] at hgreatest
    exact hgreatest.unique v.isGreatest_maxLength
  have hslots : t'.slots = t.slots := by
    refine slots_eq ?_ hslot
    rw [size_slots_place h', size_slots_place h, hlast]
  have hassociation : t'.association = t.association := by
    rw [association_place h', association_place h]
  obtain ⟨hmin, hmax, -, htotal⟩ := figures_place h
  obtain ⟨hmin', hmax', -, htotal'⟩ := figures_place h'
  have heq : t' = t := by
    rcases t' with ⟨association', slots', min', max', first', total'⟩
    rcases t with ⟨association, slots, min, max, first, total⟩
    congr 1
    · exact hmin'.trans (hshortest.trans hmin.symm)
    · exact hmax'.trans (hlongest.trans hmax.symm)
    · exact htotal'.trans (hperm.length_eq.trans htotal.symm)
  rw [h', heq]

/-- The order of the entries does not matter, and tables are hereditary: a vocabulary with the same
entries has the same table, slots and figures, under every association, or none if there is none;
and if a vocabulary has a table, each one with some of its entries has a table under the same
association, in which each slot holds what it holds in the other, if it is one of them. All nonempty
lists of different entries are vocabularies of this kind. -/
theorem place_hereditary (v : Vocabulary C) (a : Association) :
    (∀ v' : Vocabulary C, v'.entries.Perm v.entries →
      ∀ t, place v' a = .ok t ↔ place v a = .ok t) ∧
    (∀ v' : Vocabulary C, v'.entries ⊆ v.entries → ∀ t, place v a = .ok t →
      ∃ t', place v' a = .ok t' ∧
        ∀ i e, t'.slot? i = some e ↔ e ∈ v'.entries ∧ t.slot? i = some e) ∧
    ∀ entries : List (Entry C), entries ≠ [] → entries.Nodup → entries ⊆ v.entries →
      Vocabulary.Valid entries :=
  ⟨fun _ hperm _ => ⟨place_of_perm hperm.symm, place_of_perm hperm⟩,
    fun _ hsub _ => exists_place_of_subset hsub, fun _ => v.valid_of_subset⟩

/-- The four words from the last to the first. -/
def fourWordsReversed : Vocabulary Mnemonic where
  entries := fourWords.entries.reverse
  valid := Vocabulary.fault?_eq_none_iff.1 (by decide +kernel)

/-- The longest and the shortest of the four words. -/
def twoWords : Vocabulary Mnemonic where
  entries := [⟨"nop", .nop⟩, ⟨"b", .b⟩]
  valid := Vocabulary.fault?_eq_none_iff.1 (by decide +kernel)

/-- The four words have the same table from either end, and two of them are in their slots in a
table of their own. -/
theorem place_twoWords :
    ∃ t t', place fourWords fourWeights = .ok t ∧ place fourWordsReversed fourWeights = .ok t ∧
      place twoWords fourWeights = .ok t' ∧ t.slot? 63 = some ⟨"nop", .nop⟩ ∧
      t'.slot? 63 = some ⟨"nop", .nop⟩ ∧ t'.slot? 12 = none := by
  have hseparates : fourWeights.Separates fourWords.entries := by decide +kernel
  have hhash : fourWeights.hash (Word.ofText "nop") = 63 := by decide +kernel
  obtain ⟨t, ht⟩ := place_ok_iff.2 hseparates
  obtain ⟨hsame, hsome, -⟩ := place_hereditary fourWords fourWeights
  have hperm : fourWordsReversed.entries.Perm fourWords.entries := List.reverse_perm _
  have hsub : twoWords.entries ⊆ fourWords.entries := by decide
  have hnop : t.slot? 63 = some ⟨"nop", .nop⟩ := (slot?_place ht _ _).2 ⟨by decide, hhash⟩
  obtain ⟨t', ht', hheld⟩ := hsome twoWords hsub t ht
  refine ⟨t, t', ht, (hsame fourWordsReversed hperm t).2 ht, ht', hnop,
    (hheld _ _).2 ⟨by decide, hnop⟩, ?_⟩
  -- The word in this slot is none of the two.
  rw [Option.eq_none_iff_forall_not_mem]
  intro e he
  obtain ⟨hmem, hslot⟩ := (hheld 12 e).1 he
  have hother : ∀ e ∈ twoWords.entries, fourWeights.hash e.word ≠ 12 := by decide +kernel
  exact hother e hmem ((slot?_place ht 12 e).1 hslot).2

end Table

end KeywordHash
