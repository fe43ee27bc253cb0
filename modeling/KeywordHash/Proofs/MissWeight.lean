import KeywordHash.Proofs.Replay
import KeywordHash.Proofs.Separation

/-!
# The miss weight

A finished association gives every index that no key reads one more than the largest hash
(`weight_finish_of_not_mem`). That this is a 16-bit number, so that the cap on it is idle, is what
the limit of the weights is for: four weights within the limit and the longest text leave room for
one more (`hashBound_weightLimit_lt`). So a word that reads such an index is hashed past the last
slot (`lt_hash_of_unread`), whatever else it reads and however long it is. An entry whose text does
can therefore be added to the vocabulary under the same association, and the table gets larger
without any of its slots changing (`exists_place_of_perm`).
-/

namespace KeywordHash

/-- The largest of some numbers, zero if there are none, is within a bound that all of them are
within. -/
theorem max?_getD_le {numbers : List Nat} {bound : Nat} (h : ∀ n ∈ numbers, n ≤ bound) :
    numbers.max?.getD 0 ≤ bound := by
  rcases hmax : numbers.max? with _ | largest
  · exact Nat.zero_le bound
  · exact h largest (List.max?_mem hmax)

namespace Search

/-- The largest hash of keys is below the bound of their hashes. -/
theorem maxHash_lt_hashBound {keys : List Key} {max : Nat} {a : Association} (hkeys : Short keys)
    (ha : a.AtMost max) : Key.maxHash keys a < hashBound keys max := by
  refine Nat.lt_succ_of_le (max?_getD_le fun hash hmem => ?_)
  obtain ⟨k, hk, rfl⟩ := List.mem_map.1 hmem
  exact Nat.le_of_lt_succ (hash_lt_bound hkeys ha k hk)

/-- Under weights within the limit every hash, plus one, is a 16-bit number. -/
theorem hashBound_weightLimit_lt {keys : List Key} (h : Key.longest keys ≤ UInt16.size - 2) :
    hashBound keys (weightLimit (Key.longest keys)) < UInt16.size := by
  have hsize : UInt16.size = 65536 := rfl
  unfold hashBound weightLimit keyPositions
  omega

end Search

variable {C : Type} [Code C]

/-- No text of the vocabulary reads the index. -/
def Vocabulary.Unread (v : Vocabulary C) (i : Index) : Prop :=
  ∀ e ∈ v.entries, i ∉ Index.ofWord e.word

namespace Table

variable {v : Vocabulary C} {t : Table C}

/-- The keys of a vocabulary are at most as long as a text may be. -/
theorem longest_keys_le (v : Vocabulary C) : Key.longest v.keys ≤ maxTextLength := by
  refine max?_getD_le fun length hlength => ?_
  obtain ⟨k, hk, rfl⟩ := List.mem_map.1 hlength
  obtain ⟨e, he, rfl⟩ := List.mem_map.1 hk
  exact (v.valid.admissible e he).maxLength

section

variable {σ : Type} [Source σ] {config : SearchConfig} {s : σ}

/-- A generated table is placed by weights within the limit, finished for the last slot that it
has. -/
theorem exists_finish_of_generateFrom (h : (generateFrom config v s).1 = .ok t) :
    ∃ a : Association, a.AtMost (Search.weightLimit (Key.longest v.keys)) ∧
      t.maxHashValue = Key.maxHash v.keys a ∧
      t.association = Search.finish t.maxHashValue (Key.used v.keys) a ∧
      place v t.association = .ok t := by
  obtain ⟨found, hrun, hplace⟩ := exists_run_of_generateFrom h
  have hassociation := association_place hplace
  obtain ⟨a, hwin, hfound⟩ := Search.exists_winning_of_run (Search.short_keys v.entries) hrun
  have hmax : t.maxHashValue = Key.maxHash v.keys a := by
    rw [maxHashValue_place hplace, hfound]
    exact largestHash_finish _ _
  refine ⟨a, hwin.atMost, hmax, ?_, ?_⟩
  · rw [hassociation, hfound, hmax]
    rfl
  · rw [hassociation]
    exact hplace

/-- The last slot of a generated table is at most 65534. -/
theorem maxHashValue_lt_of_generateFrom (h : (generateFrom config v s).1 = .ok t) :
    t.maxHashValue + 1 < UInt16.size := by
  obtain ⟨a, ha, hmax, -, -⟩ := exists_finish_of_generateFrom h
  have hlongest : Key.longest v.keys ≤ UInt16.size - 2 :=
    (longest_keys_le v).trans (by decide)
  have hlt := Search.maxHash_lt_hashBound (Search.short_keys v.entries) ha
  have hbound := Search.hashBound_weightLimit_lt hlongest
  calc t.maxHashValue + 1 = Key.maxHash v.keys a + 1 := by rw [hmax]
    _ ≤ Search.hashBound v.keys (Search.weightLimit (Key.longest v.keys)) := hlt
    _ < UInt16.size := hbound

/-- An index that no text reads has one more than the last slot as its weight. -/
theorem weight_of_unread (h : (generateFrom config v s).1 = .ok t) {i : Index}
    (hi : v.Unread i) : t.association.weight i = t.maxHashValue + 1 := by
  obtain ⟨a, -, -, hfinish, -⟩ := exists_finish_of_generateFrom h
  have hlt := maxHashValue_lt_of_generateFrom h
  have hnot : i ∉ Key.used v.keys := by
    intro hused
    obtain ⟨k, hk, hread⟩ := Key.mem_used.1 hused
    obtain ⟨e, he, rfl⟩ := List.mem_map.1 hk
    exact hi e he hread
  rw [hfinish, Search.weight_finish_of_not_mem hnot]
  -- The cap is not reached.
  exact Nat.min_eq_left (by omega)

/-- A word that reads an index which no text reads is hashed past the last slot. -/
theorem lt_hash_of_unread (h : (generateFrom config v s).1 = .ok t) {word : Word} {i : Index}
    (hi : i ∈ Index.ofWord word) (hunread : v.Unread i) : t.maxHashValue < t.hash word := by
  have hle := t.association.weight_le_hash hi
  rw [weight_of_unread h hunread] at hle
  exact hle

end

/-- A vocabulary with one more entry, which is hashed past the last slot of a table, has a table
under the same association, with the same slots up to that one. -/
theorem exists_place_of_perm {v' : Vocabulary C} {a : Association} {e : Entry C}
    (h : place v a = .ok t) (hperm : v'.entries.Perm (e :: v.entries))
    (hpast : t.maxHashValue < a.hash e.word) :
    ∃ t', place v' a = .ok t' ∧ ∀ i ≤ t.maxHashValue, t'.slot? i = t.slot? i := by
  have hle : ∀ x ∈ v.entries, a.hash x.word ≤ t.maxHashValue := by
    intro x hx
    rw [maxHashValue_place h]
    exact hash_le_largestHash hx
  have hseparates : a.Separates (e :: v.entries) := by
    refine List.pairwise_cons.2 ⟨fun x hx heq => ?_, place_ok_iff.1 ⟨t, h⟩⟩
    have hbelow := hle x hx
    omega
  have hseparates' : a.Separates v'.entries :=
    (hperm.pairwise_iff fun hne => hne.symm).2 hseparates
  obtain ⟨t', h'⟩ := place_ok_iff.2 hseparates'
  refine ⟨t', h', fun i hi => Option.ext fun x => ?_⟩
  rw [slot?_place h', slot?_place h, hperm.mem_iff, List.mem_cons]
  constructor
  · rintro ⟨rfl | hx, hash⟩
    · -- The new entry is past the slots that there were.
      omega
    · exact ⟨hx, hash⟩
  · rintro ⟨hx, hash⟩
    exact ⟨.inr hx, hash⟩

/-- The miss weight of a generated table, whatever the parameters and the draws are: the last slot
is at most 65534, every index that no text reads has one more than it as its weight, every word that
reads such an index is hashed past it, and an entry whose text does can be added anywhere in the
vocabulary under the same association, with all old entries left in their slots. -/
theorem missWeight_exact {σ : Type} [Source σ] {config : SearchConfig} {s : σ}
    (h : (generateFrom config v s).1 = .ok t) :
    t.maxHashValue ≤ 65534 ∧
      (∀ i, v.Unread i → t.association.weight i = t.maxHashValue + 1) ∧
      (∀ (word : Word) (i : Index), i ∈ Index.ofWord word → v.Unread i →
        t.maxHashValue < t.hash word) ∧
      ∀ (v' : Vocabulary C) (e : Entry C), v'.entries.Perm (e :: v.entries) →
        (∃ i ∈ Index.ofWord e.word, v.Unread i) →
          ∃ t', place v' t.association = .ok t' ∧
            (∀ i ≤ t.maxHashValue, t'.slot? i = t.slot? i) ∧
            ∀ x ∈ v.entries, t.slot? (t.hash x.word) = some x ∧
              t'.slot? (t.hash x.word) = some x := by
  obtain ⟨-, -, -, -, hplace⟩ := exists_finish_of_generateFrom h
  have hlt := maxHashValue_lt_of_generateFrom h
  have hsize : UInt16.size = 65536 := rfl
  refine ⟨by omega, fun i hi => weight_of_unread h hi,
    fun word i hi hunread => lt_hash_of_unread h hi hunread, fun v' e hperm hreads => ?_⟩
  obtain ⟨i, hi, hunread⟩ := hreads
  have hpast : t.maxHashValue < t.hash e.word := lt_hash_of_unread h hi hunread
  obtain ⟨t', ht', hslots⟩ := exists_place_of_perm hplace hperm hpast
  refine ⟨t', ht', hslots, fun x hx => ⟨?_, ?_⟩⟩
  · exact (slot?_place hplace _ x).2 ⟨hx, rfl⟩
  · exact (slot?_place ht' _ x).2 ⟨hperm.mem_iff.2 (List.mem_cons_of_mem e hx), rfl⟩

/-- The four words and a fifth whose letters none of them has. -/
def fiveWords : Vocabulary Mnemonic where
  entries := [⟨"b", .b⟩, ⟨"bl", .bl⟩, ⟨"st", .st⟩, ⟨"ld", .ld⟩, ⟨"nop", .nop⟩]
  valid := Vocabulary.fault?_eq_none_iff.1 (by decide +kernel)

/-- The search finds a table for the four words. -/
theorem exists_generate_fourWords : ∃ t, (generate {} fourWords).1 = .ok t := by
  have hplay : (Replay.search? {} fourWords.keys
      (Replay.words (Keystream.keyOfSeed ({} : SearchConfig).seed) 1 0)).isSome = true := by
    decide +kernel
  exact Replay.exists_generate_of_search? (by decide) hplay

/-- The table that is generated for the four words keeps its slots when the fifth is added. -/
theorem missWeight_fiveWords :
    ∃ t t', (generate {} fourWords).1 = .ok t ∧
      t.association.weight (.ofByte 115) = t.maxHashValue + 1 ∧
      t.maxHashValue < t.hash (Word.ofText "st") ∧
      place fiveWords t.association = .ok t' ∧
      t'.slot? (t.hash (Word.ofText "nop")) = some ⟨"nop", .nop⟩ := by
  obtain ⟨t, ht⟩ := exists_generate_fourWords
  obtain ⟨-, hweight, hpast, hextended⟩ := missWeight_exact ht
  have hunread : fourWords.Unread (.ofByte 115) := by
    unfold Vocabulary.Unread
    decide +kernel
  have hreads : Index.ofByte 115 ∈ Index.ofWord (Word.ofText "st") := by decide +kernel
  have hperm : fiveWords.entries.Perm (⟨"st", .st⟩ :: fourWords.entries) := by
    decide +kernel
  obtain ⟨t', ht', -, hkept⟩ := hextended fiveWords ⟨"st", .st⟩ hperm ⟨_, hreads, hunread⟩
  have hnop : (⟨"nop", .nop⟩ : Entry Mnemonic) ∈ fourWords.entries := by decide
  exact ⟨t, t', ht, hweight _ hunread, hpast _ _ hreads hunread, ht', (hkept _ hnop).2⟩

end Table

end KeywordHash
