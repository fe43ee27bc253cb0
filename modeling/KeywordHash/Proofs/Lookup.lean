import Mathlib.Order.Bounds.Basic
import KeywordHash.Mnemonic
import KeywordHash.Proofs.Placement

/-!
# Looking words up in a placed table

A lookup refuses a word by its length, by its hash, by an empty slot or by the comparison with the
text in the slot. `probe?_of_mem` says that neither of the first two refuses a text of the
vocabulary; the slot of a text holds its entry (`slot?_place`), and the comparison keeps the words
apart that share a slot with a text. So a lookup finds what the linear search finds
(`get?_eq_find?`), and the table passes its own check (`verify_place`).

A table keeps its first occupied slot, the number of its entries and the lengths of its shortest and
its longest text beside the slots, each computed from the vocabulary. They are what the slots
themselves say: the occupied slots are the hashes of the entries (`occupied_place`), so the smallest
and the largest hash are the first and the last of them (`isLeast_minHashValue`,
`isGreatest_maxHashValue`), and there are as many as there are entries (`countP_isSome_place`).
-/

namespace KeywordHash

namespace Table

/-! ## Lookups -/

section

variable {C : Type} {t : Table C}

/-- A lookup that is not refused looks into the slot of the word's hash, which is not past the
last. -/
theorem probe?_eq_some {word : Word} {i : Nat} (h : t.probe? word = some i) :
    i = t.hash word ∧ t.hash word ≤ t.maxHashValue := by
  unfold probe? at h
  split_ifs at h with hlength hhash
  exact ⟨(Option.some.inj h).symm, Nat.le_of_not_lt hhash⟩

variable [Code C] {v : Vocabulary C} {a : Association}

/-- The last slot is the one of the largest hash. -/
theorem maxHashValue_place (h : place v a = .ok t) : t.maxHashValue = largestHash v a := by
  rw [maxHashValue, size_place h, Nat.add_sub_cancel]

/-- No lookup looks past the last slot. -/
theorem probe?_lt_size (h : place v a = .ok t) {word : Word} {i : Nat}
    (hi : t.probe? word = some i) : i < t.slots.size := by
  obtain ⟨rfl, hle⟩ := probe?_eq_some hi
  rw [maxHashValue_place h] at hle
  rw [size_place h]
  exact Nat.lt_succ_of_le hle

/-- The lookup of a text of the vocabulary is not refused. -/
theorem probe?_of_mem (h : place v a = .ok t) {e : Entry C} (he : e ∈ v.entries) :
    t.probe? e.word = some (t.hash e.word) := by
  obtain ⟨slots, -, ht⟩ := place_eq_ok h
  have hmin : t.minWordLength ≤ e.word.length := by
    rw [ht]
    exact Vocabulary.minLength_le he
  have hmax : e.word.length ≤ t.maxWordLength := by
    rw [ht]
    exact Vocabulary.le_maxLength he
  have hhash : t.hash e.word ≤ t.maxHashValue := by
    rw [hash_place h, maxHashValue_place h]
    exact hash_le_largestHash he
  rw [probe?, if_neg (by omega), if_neg (by omega)]

/-- A lookup finds an entry exactly if the vocabulary has it under the word. -/
theorem get?_eq_some_iff (h : place v a = .ok t) {word : Word} {e : Entry C} :
    t.get? word = some e ↔ e ∈ v.entries ∧ e.word = word := by
  unfold get?
  constructor
  · intro hget
    split at hget
    · contradiction
    · next i _ =>
      obtain ⟨hslot, hword⟩ := Option.filter_eq_some_iff.1 hget
      exact ⟨((slot?_place h i e).1 hslot).1, of_decide_eq_true hword⟩
  · intro hmem
    obtain ⟨he, rfl⟩ := hmem
    rw [probe?_of_mem h he]
    have hslot : t.slot? (t.hash e.word) = some e :=
      (slot?_place h _ e).2 ⟨he, (hash_place h e.word).symm⟩
    exact Option.filter_eq_some_iff.2 ⟨hslot, decide_eq_true rfl⟩

/-- A lookup finds what the linear search finds. -/
theorem get?_eq_find? (h : place v a = .ok t) (word : Word) : t.get? word = v.find? word := by
  ext e
  rw [get?_eq_some_iff h, Vocabulary.find?_eq_some_iff]

/-- A table looks a word up to a code other than the invalid one exactly if the vocabulary has the
word under that code. -/
theorem lookup_eq_iff (h : place v a = .ok t) {word : Word} {c : C} (hc : c ≠ Code.invalid) :
    t.lookup word = c ↔ ∃ e ∈ v.entries, e.word = word ∧ e.code = c := by
  unfold lookup
  rcases hget : t.get? word with _ | e
  · constructor
    · intro hinvalid
      exact absurd hinvalid.symm hc
    · intro hentry
      obtain ⟨e, he, hword, -⟩ := hentry
      rw [(get?_eq_some_iff h).2 ⟨he, hword⟩] at hget
      contradiction
  · obtain ⟨he, hword⟩ := (get?_eq_some_iff h).1 hget
    constructor
    · intro hcode
      exact ⟨e, he, hword, hcode⟩
    · intro hentry
      obtain ⟨e', he', hword', rfl⟩ := hentry
      rw [Vocabulary.eq_of_word_eq he he' (hword.trans hword'.symm)]

/-- A table looks a word up to the invalid code exactly if the vocabulary does not have it. -/
theorem lookup_eq_invalid_iff (h : place v a = .ok t) {word : Word} :
    t.lookup word = Code.invalid ↔ ∀ e ∈ v.entries, e.word ≠ word := by
  constructor
  · intro hinvalid e he hword
    have hvalid := (v.valid.admissible e he).valid
    have hlookup := (lookup_eq_iff h hvalid).2 ⟨e, he, hword, rfl⟩
    exact hvalid (hlookup.symm.trans hinvalid)
  · intro hnone
    by_contra hvalid
    obtain ⟨e, he, hword, -⟩ := (lookup_eq_iff h hvalid).1 rfl
    exact hnone e he hword

/-- Two words with the same code other than the invalid one are one word. -/
theorem eq_of_lookup_eq (h : place v a = .ok t) {word word' : Word}
    (heq : t.lookup word = t.lookup word') (hvalid : t.lookup word ≠ Code.invalid) :
    word = word' := by
  obtain ⟨e, he, rfl, hcode⟩ := (lookup_eq_iff h hvalid).1 rfl
  obtain ⟨e', he', rfl, hcode'⟩ := (lookup_eq_iff h hvalid).1 heq.symm
  rw [Vocabulary.eq_of_code_eq he he' (hcode.trans hcode'.symm)]

/-- Every entry of a placed table is found again, in its slot and with its code. -/
theorem verify_place [DecidableEq C] (h : place v a = .ok t) : t.verify = .ok () := by
  have hfound : ∀ p ∈ t.placed,
      (t.get? p.2.word).map Entry.code = some p.2.code ∧ t.hash p.2.word = p.1 := by
    rintro ⟨i, e⟩ hp
    obtain ⟨he, hhash⟩ := (slot?_place h i e).1 (mem_placed.1 hp)
    rw [(get?_eq_some_iff h).2 ⟨he, rfl⟩, hash_place h]
    exact ⟨rfl, hhash⟩
  unfold verify
  rw [List.find?_eq_none.2]
  intro p hp
  obtain ⟨hcode, hhash⟩ := hfound p hp
  simp [hcode, hhash]

/-- The hashed lookup of a placed table is the linear search of its vocabulary. The codes that it
gives are those of the vocabulary, words outside get the invalid one, every slot looked into is one
of the table's, and no two words share a code. -/
theorem lookup_exact (h : place v a = .ok t) :
    (∀ word, t.get? word = v.find? word) ∧
      (∀ word c, c ≠ Code.invalid →
        (t.lookup word = c ↔ ∃ e ∈ v.entries, e.word = word ∧ e.code = c)) ∧
      (∀ word, t.lookup word = Code.invalid ↔ ∀ e ∈ v.entries, e.word ≠ word) ∧
      (∀ word i, t.probe? word = some i → i < t.slots.size) ∧
      ∀ word word', t.lookup word = t.lookup word' → t.lookup word ≠ Code.invalid →
        word = word' :=
  ⟨get?_eq_find? h, fun _ _ => lookup_eq_iff h, fun _ => lookup_eq_invalid_iff h,
    fun _ _ => probe?_lt_size h, fun _ _ => eq_of_lookup_eq h⟩

/-- Four words of one to three letters. -/
def fourWords : Vocabulary Mnemonic where
  entries := [⟨"b", .b⟩, ⟨"bl", .bl⟩, ⟨"ld", .ld⟩, ⟨"nop", .nop⟩]
  valid := Vocabulary.fault?_eq_none_iff.1 (by decide +kernel)

/-- Weights that hash the four words differently. The letters `d` and `l` have weights that make
`dl`, which is not among them, hash like `ld`. -/
def fourWeights : Association :=
  (Association.filled 100).replaced
    [(98, 0), (108, 3), (100, 7), (110, 20), (111, 40), (113, 0)]

/-- The table of the four words: `dl` is hashed to the slot of `ld` and is not mistaken for it. -/
theorem lookup_fourWords :
    ∃ t, place fourWords fourWeights = .ok t ∧
      t.hash (Word.ofText "dl") = t.hash (Word.ofText "ld") ∧
      t.lookup (Word.ofText "dl") = .invalid ∧ t.lookup (Word.ofText "ld") = .ld := by
  have hseparates : fourWeights.Separates fourWords.entries := by decide +kernel
  obtain ⟨t, h⟩ := place_ok_iff.2 hseparates
  obtain ⟨-, hcode, hinvalid, -, -⟩ := lookup_exact h
  have hother : ∀ e ∈ fourWords.entries, e.word ≠ Word.ofText "dl" := by decide +kernel
  refine ⟨t, h, ?_, (hinvalid _).2 hother, (hcode _ _ (by decide)).2 ?_⟩
  · rw [hash_place h, hash_place h]
    decide +kernel
  · exact ⟨⟨"ld", .ld⟩, by decide, rfl, rfl⟩

end

end Table

/-! ## Figures -/

/-- The smallest of some numbers is the least of them, if there are any. -/
theorem isLeast_min?_getD {numbers : List Nat} (h : numbers ≠ []) :
    IsLeast {n | n ∈ numbers} (numbers.min?.getD 0) := by
  refine ⟨?_, fun n hn => List.min?_getD_le_of_mem hn⟩
  rcases hmin : numbers.min? with _ | smallest
  · exact absurd (List.min?_eq_none_iff.1 hmin) h
  · exact List.min?_mem hmin

/-- The largest of some numbers is the greatest of them, if there are any. -/
theorem isGreatest_max?_getD {numbers : List Nat} (h : numbers ≠ []) :
    IsGreatest {n | n ∈ numbers} (numbers.max?.getD 0) := by
  refine ⟨?_, fun n hn => List.le_max?_getD_of_mem hn⟩
  rcases hmax : numbers.max? with _ | largest
  · exact absurd (List.max?_eq_none_iff.1 hmax) h
  · exact List.max?_mem hmax

variable {C : Type} [Code C]

namespace Vocabulary

/-- What is computed of each entry of a vocabulary is computed of some. -/
theorem map_entries_ne_nil {α : Type} (v : Vocabulary C) (f : Entry C → α) :
    v.entries.map f ≠ [] := by
  intro hnil
  exact v.valid.nonempty (List.map_eq_nil_iff.1 hnil)

/-- The length of the shortest text is the least of the lengths. -/
theorem isLeast_minLength (v : Vocabulary C) :
    IsLeast {n | n ∈ v.entries.map (·.word.length)} v.minLength :=
  isLeast_min?_getD (v.map_entries_ne_nil _)

/-- The length of the longest text is the greatest of the lengths. -/
theorem isGreatest_maxLength (v : Vocabulary C) :
    IsGreatest {n | n ∈ v.entries.map (·.word.length)} v.maxLength :=
  isGreatest_max?_getD (v.map_entries_ne_nil _)

end Vocabulary

namespace Table

/-- The slots that hold an entry. -/
def occupied {C : Type} (t : Table C) : Set Nat := {i | (t.slot? i).isSome}

variable {v : Vocabulary C} {a : Association} {t : Table C}

/-- The figures of a placed table are those of its vocabulary and of the hashes. -/
theorem figures_place (h : place v a = .ok t) :
    t.minWordLength = v.minLength ∧ t.maxWordLength = v.maxLength ∧
      t.minHashValue = smallestHash v a ∧ t.totalKeywords = v.size := by
  obtain ⟨slots, -, rfl⟩ := place_eq_ok h
  exact ⟨rfl, rfl, rfl, rfl⟩

/-- There are slots up to the last one. -/
theorem size_slots_place (h : place v a = .ok t) : t.slots.size = t.maxHashValue + 1 := by
  rw [maxHashValue_place h, size_place h]

/-- The occupied slots are the hashes of the entries. -/
theorem occupied_place (h : place v a = .ok t) :
    t.occupied = {i | i ∈ v.entries.map fun e => a.hash e.word} := by
  ext i
  show (t.slot? i).isSome ↔ i ∈ v.entries.map fun e => a.hash e.word
  rw [Option.isSome_iff_exists, List.mem_map]
  exact exists_congr fun e => slot?_place h i e

/-- The smallest hash is the first occupied slot. -/
theorem isLeast_minHashValue (h : place v a = .ok t) : IsLeast t.occupied t.minHashValue := by
  obtain ⟨-, -, hsmallest, -⟩ := figures_place h
  rw [occupied_place h, hsmallest]
  exact isLeast_min?_getD (v.map_entries_ne_nil _)

/-- The last slot is the last occupied one. -/
theorem isGreatest_maxHashValue (h : place v a = .ok t) :
    IsGreatest t.occupied t.maxHashValue := by
  rw [occupied_place h, maxHashValue_place h]
  exact isGreatest_max?_getD (v.map_entries_ne_nil _)

/-- The list of the occupied slots is as long as there are slots with an entry. -/
theorem length_placed {C : Type} (t : Table C) :
    t.placed.length = t.slots.countP Option.isSome := by
  have hslots : t.slots.toList.zipIdx.countP (Option.isSome ∘ Prod.fst)
      = t.slots.toList.countP Option.isSome := by
    rw [← List.countP_map, List.zipIdx_map_fst]
  unfold placed
  rw [List.length_filterMap_eq_countP, ← Array.countP_toList, ← hslots]
  refine List.countP_congr fun p _ => ?_
  rw [Option.isSome_map]
  rfl

/-- As many slots are occupied as there are entries. -/
theorem countP_isSome_place (h : place v a = .ok t) :
    t.slots.countP Option.isSome = t.totalKeywords := by
  obtain ⟨-, -, -, htotal⟩ := figures_place h
  rw [← length_placed, (placed_perm h).length_eq, List.length_map, htotal]
  rfl

end Table

end KeywordHash
