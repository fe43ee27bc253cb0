import Mathlib.Data.Finset.Card
import Mathlib.Order.Interval.Finset.Nat
import KeywordHash.Proofs.Generation

/-!
# Counting slots

No word is hashed below its length, so the slots in front of the shortest length are empty. Behind
them the entries of a table are in different slots, so there are at least as many slots as entries
(`totalKeywords_le_keyRange`). A table therefore has a slot for each entry and as many more as its
shortest text has bytes, and no search finds one within a narrower span
(`generateFrom_ne_ok_of_narrow`).
-/

namespace KeywordHash

/-- A word is hashed to its length or past it. -/
theorem Association.length_le_hash (a : Association) (word : Word) :
    word.length ≤ a.hash word :=
  Nat.le_add_right _ _

namespace Table

variable {C : Type} [Code C] {v : Vocabulary C} {a : Association} {t : Table C}

/-- The shortest text is as long as a text has to be. -/
theorem minTextLength_le_minWordLength (h : place v a = .ok t) :
    minTextLength ≤ t.minWordLength := by
  obtain ⟨hshortest, -, -, -⟩ := figures_place h
  obtain ⟨hmem, -⟩ := v.isLeast_minLength
  obtain ⟨e, he, hlength⟩ := List.mem_map.1 hmem
  calc minTextLength ≤ e.word.length := (v.valid.admissible e he).minLength
    _ = v.minLength := hlength
    _ = t.minWordLength := hshortest.symm

/-- No slot in front of the length of the shortest text is occupied. -/
theorem minWordLength_le_minHashValue (h : place v a = .ok t) :
    t.minWordLength ≤ t.minHashValue := by
  obtain ⟨hshortest, -, -, -⟩ := figures_place h
  obtain ⟨hmem, -⟩ := isLeast_minHashValue h
  rw [occupied_place h] at hmem
  obtain ⟨e, he, hhash⟩ := List.mem_map.1 hmem
  calc t.minWordLength = v.minLength := hshortest
    _ ≤ e.word.length := Vocabulary.minLength_le he
    _ ≤ a.hash e.word := a.length_le_hash e.word
    _ = t.minHashValue := hhash

/-- The first occupied slot is not behind the last one. -/
theorem minHashValue_le_maxHashValue (h : place v a = .ok t) :
    t.minHashValue ≤ t.maxHashValue := by
  obtain ⟨hmem, -⟩ := isLeast_minHashValue h
  obtain ⟨-, hupper⟩ := isGreatest_maxHashValue h
  exact hupper hmem

/-- The key range is what is left of the slots from the first occupied one on. -/
theorem minHashValue_add_keyRange (h : place v a = .ok t) :
    t.minHashValue + t.stats.keyRange = t.slots.size := by
  have hle := minHashValue_le_maxHashValue h
  have hsize := size_slots_place h
  show t.minHashValue + (t.maxHashValue - t.minHashValue + 1) = t.slots.size
  omega

/-- The key range has a slot for each entry. -/
theorem totalKeywords_le_keyRange (h : place v a = .ok t) :
    t.totalKeywords ≤ t.stats.keyRange := by
  have hdistinct : (v.entries.map fun e => a.hash e.word).Nodup :=
    List.pairwise_map.2 (place_ok_iff.1 ⟨t, h⟩)
  obtain ⟨-, hlower⟩ := isLeast_minHashValue h
  obtain ⟨-, hupper⟩ := isGreatest_maxHashValue h
  rw [occupied_place h] at hlower hupper
  -- All hashes are different and lie between the first and the last occupied slot.
  have hrange : (v.entries.map fun e => a.hash e.word).toFinset
      ⊆ Finset.Icc t.minHashValue t.maxHashValue := by
    intro i hi
    have hmem := List.mem_toFinset.1 hi
    exact Finset.mem_Icc.2 ⟨hlower hmem, hupper hmem⟩
  have hcard := Finset.card_le_card hrange
  rw [List.toFinset_card_of_nodup hdistinct, List.length_map, Nat.card_Icc] at hcard
  have htotal : t.totalKeywords = v.entries.length := (figures_place h).2.2.2
  have hle := minHashValue_le_maxHashValue h
  show t.totalKeywords ≤ t.maxHashValue - t.minHashValue + 1
  omega

/-- The slots that are used and those in front of the shortest length are all there. -/
theorem totalKeywords_add_minWordLength_le (h : place v a = .ok t) :
    t.totalKeywords + t.minWordLength ≤ t.slots.size := by
  have hkeys := totalKeywords_le_keyRange h
  have hfront := minWordLength_le_minHashValue h
  have hslots := minHashValue_add_keyRange h
  omega

/-- There is a first slot, and it is empty. -/
theorem getElem?_zero_slots (h : place v a = .ok t) : t.slots[0]? = some none := by
  have hpos : 0 < t.slots.size := by
    have hsize := size_slots_place h
    omega
  have hempty : t.slots[0]?.join = none := by
    rw [Option.eq_none_iff_forall_not_mem]
    intro e he
    obtain ⟨hmem, hhash⟩ := (slot?_place h 0 e).1 he
    have hlength := (v.valid.admissible e hmem).minLength
    have hle := a.length_le_hash e.word
    unfold minTextLength at hlength
    omega
  rw [Array.getElem?_eq_getElem hpos] at hempty ⊢
  exact congrArg some hempty

/-- A generated table is within the allowed span. -/
theorem size_le_of_generateFrom {σ : Type} [Source σ] {config : SearchConfig} {s : σ}
    (h : (generateFrom config v s).1 = .ok t) {span : Nat} (hspan : span ∈ config.maxSpan) :
    t.slots.size ≤ span := by
  obtain ⟨found, hrun, hplace⟩ := exists_run_of_generateFrom h
  obtain ⟨weights, hwin, rfl⟩ := Search.exists_winning_of_run (Search.short_keys v.entries) hrun
  have hlast : largestHash v (Search.finish (Key.maxHash v.keys weights) (Key.used v.keys) weights)
      = Key.maxHash v.keys weights := largestHash_finish _ _
  have hlt : Key.maxHash v.keys weights < span := hwin.span span hspan
  have hsize : t.slots.size = Key.maxHash v.keys weights + 1 := by
    rw [← hlast]
    exact size_place hplace
  omega

/-- A search that is allowed fewer slots than there are entries and bytes in the shortest text never
ends with a table. -/
theorem generateFrom_ne_ok_of_narrow {σ : Type} [Source σ] {config : SearchConfig} {s : σ}
    {span : Nat} (hspan : span ∈ config.maxSpan) (hnarrow : span < v.size + v.minLength)
    (t : Table C) : (generateFrom config v s).1 ≠ .ok t := by
  intro h
  obtain ⟨a, -, hplace⟩ := exists_run_of_generateFrom h
  obtain ⟨hshortest, -, -, htotal⟩ := figures_place hplace
  have hneeded := totalKeywords_add_minWordLength_le hplace
  have hallowed := size_le_of_generateFrom h hspan
  omega

/-- No table beats counting. The first slot of a placed table is empty, no text is hashed below the
length of the shortest, which is not zero, the key range is the number of slots from the first
occupied one to the last, and it has room for all entries. So there is a slot for each entry and as
many more as the shortest text has bytes, and a search that is allowed fewer never ends with a
table, whatever its other parameters and its draws are. -/
theorem counting_exact (v : Vocabulary C) :
    (∀ (a : Association) (t : Table C), place v a = .ok t →
      t.slots[0]? = some none ∧ 1 ≤ t.minWordLength ∧ t.minWordLength ≤ t.minHashValue ∧
        t.minHashValue ≤ t.maxHashValue ∧
        t.minHashValue + t.stats.keyRange = t.slots.size ∧
        t.totalKeywords ≤ t.stats.keyRange ∧
        t.totalKeywords + t.minWordLength ≤ t.slots.size) ∧
    ∀ (config : SearchConfig) (span : Nat), span ∈ config.maxSpan →
      span < v.size + v.minLength →
        ∀ {σ : Type} [Source σ] (s : σ) (t : Table C), (generateFrom config v s).1 ≠ .ok t := by
  constructor
  · intro a t h
    exact ⟨getElem?_zero_slots h, minTextLength_le_minWordLength h,
      minWordLength_le_minHashValue h, minHashValue_le_maxHashValue h,
      minHashValue_add_keyRange h, totalKeywords_le_keyRange h,
      totalKeywords_add_minWordLength_le h⟩
  · intro config span hspan hnarrow σ _ s t
    exact generateFrom_ne_ok_of_narrow hspan hnarrow t

/-- The four words have a table of 64 slots; they would need five, and no search finds a table of
four. -/
theorem counting_fourWords :
    (∃ t, place fourWords fourWeights = .ok t ∧ t.slots[0]? = some none ∧
      4 ≤ t.stats.keyRange ∧ 5 ≤ t.slots.size) ∧
      ∀ t, (generate { maxSpan := some 4 } fourWords).1 ≠ .ok t := by
  obtain ⟨hplaced, hnarrow⟩ := counting_exact fourWords
  constructor
  · have hseparates : fourWeights.Separates fourWords.entries := by decide +kernel
    obtain ⟨t, ht⟩ := place_ok_iff.2 hseparates
    obtain ⟨hempty, hshortest, -, -, -, hrange, hsize⟩ := hplaced _ t ht
    have htotal : t.totalKeywords = 4 := (figures_place ht).2.2.2
    exact ⟨t, ht, hempty, by omega, by omega⟩
  · have hlt : 4 < fourWords.size + fourWords.minLength := by decide +kernel
    exact hnarrow { maxSpan := some 4 } 4 rfl hlt (Keystream.ofSeed _)

end Table

end KeywordHash
