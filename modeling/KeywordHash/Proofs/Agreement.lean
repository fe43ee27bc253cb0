import KeywordHash.Proofs.Generation

/-!
# Hashing by bytes and hashing by indices

The table hashes a word by the bytes that it starts with, in five cases by their number. The search
hashes a list of indices, which is made byte by byte with the third position shifted. Both read the
same weights: `Index.getElem?_ofWord` says which index a position reads, so none is past the last
weight (`Association.hashM_eq`), and the weights that are found there add up to the hash
(`Association.hash_eq_sum`). A finished association keeps the weights that a word reads, so the word
is hashed as the search has hashed its key. `Association.hash_exact` puts this together.
-/

namespace KeywordHash

/-! ## The indices of a word -/

namespace Index

/-- A word reads one index for each of its first four bytes. -/
theorem getElem?_ofWord (word : Word) (n : Nat) :
    (ofWord word)[n]? = if n < 4 then word[n]?.map (atPosition n) else none := by
  unfold ofWord keyPositions
  rw [List.getElem?_map, List.getElem?_zipIdx, List.getElem?_take]
  split_ifs with hn
  · rw [Option.map_map, Nat.zero_add]
    rfl
  · rfl

/-- The number of an index: the value of the byte, and one more in the third position. -/
theorem val_atPosition (n : Nat) (b : UInt8) :
    (atPosition n b).val = if n = 2 then b.toNat + 1 else b.toNat := by
  unfold atPosition
  split_ifs
  · rfl
  · rfl

/-- The index at a position is that of the byte there. -/
theorem getElem?_ofWord_eq_some_iff {word : Word} {n : Nat} {i : Index} :
    (ofWord word)[n]? = some i ↔
      n < 4 ∧ ∃ b, word[n]? = some b ∧ i.val = if n = 2 then b.toNat + 1 else b.toNat := by
  rw [getElem?_ofWord]
  by_cases hn : n < 4
  · rw [if_pos hn, Option.map_eq_some_iff]
    constructor
    · rintro ⟨b, hb, rfl⟩
      exact ⟨hn, b, hb, val_atPosition n b⟩
    · rintro ⟨-, b, hb, hval⟩
      exact ⟨b, hb, Fin.ext ((val_atPosition n b).trans hval.symm)⟩
  · simp [hn]

end Index

namespace Association

/-- The weights at the indices of a word are there and add up, with its length, to its hash. -/
theorem hash_eq_sum (a : Association) (word : Word) :
    ∃ weights, (Index.ofWord word).mapM (fun i => a.get? i.val) = some weights ∧
      a.hash word = word.length + (weights.map UInt16.toNat).sum := by
  refine ⟨(Index.ofWord word).map a.get, mapM_eq_pure_map fun i _ => a.get?_val i, ?_⟩
  rw [hash_eq_hash_ofWord, Key.hash_eq, List.map_map]
  rfl

/-- The hash of a word, whatever its length, is read off its indices. There is one for each of the
first four bytes, numbered as the byte or, in the third position, one further, so none is past the
last weight. The hash is the length and the sum of the weights there. An association that is
finished with these indices among the used ones hashes the word as the search has hashed its key;
so does one that is finished for a vocabulary, for each of its texts. -/
theorem hash_exact (a : Association) (word : Word) :
    (∀ n i, (Index.ofWord word)[n]? = some i ↔
      n < 4 ∧ ∃ b, word[n]? = some b ∧ i.val = if n = 2 then b.toNat + 1 else b.toNat) ∧
    (Index.ofWord word).length = min 4 word.length ∧
    (∀ i ∈ Index.ofWord word, i.val ≤ 256) ∧
    Checked.hash a word = some (a.hash word) ∧
    (∃ weights, (Index.ofWord word).mapM (fun i => a.get? i.val) = some weights ∧
      a.hash word = word.length + (weights.map UInt16.toNat).sum) ∧
    (∀ (maxHash : Nat) (used : List Index) (weights : Association),
      (∀ i ∈ Index.ofWord word, i ∈ used) →
        (Search.finish maxHash used weights).hash word = (Key.ofWord word).hash weights) ∧
    ∀ {C : Type} [Code C] (v : Vocabulary C) (maxHash : Nat) (weights : Association),
      ∀ e ∈ v.entries,
        (Search.finish maxHash (Key.used v.keys) weights).hash e.word
          = (Key.ofWord e.word).hash weights := by
  refine ⟨fun n i => Index.getElem?_ofWord_eq_some_iff, Index.length_ofWord word,
    fun i _ => Nat.le_of_lt_succ i.isLt, a.hashM_eq word, a.hash_eq_sum word, ?_, ?_⟩
  · intro maxHash used weights hused
    -- As a key, the word reads only weights that finishing keeps.
    rw [hash_eq_hash_ofWord]
    exact Search.hash_finish hused maxHash weights
  · intro C _ v maxHash weights e he
    exact Table.hash_finish_word maxHash weights he

/-- The third letter of `nop` reads the index of `q`, and the weights hash it as before when they
are finished for its own three indices or for all that the four words read. -/
theorem hash_nop :
    (Index.ofWord (Word.ofText "nop"))[2]? = some (.ofByte 113) ∧
      (Search.finish 63 (Key.used Table.fourWords.keys) Table.fourWeights).hash
        (Word.ofText "nop") = 63 ∧
      (Search.finish 63 [.ofByte 110, .ofByte 111, .ofByte 113] Table.fourWeights).hash
        (Word.ofText "nop") = 63 := by
  have hhash : (Key.ofWord (Word.ofText "nop")).hash Table.fourWeights = 63 := by decide +kernel
  have hused : ∀ i ∈ Index.ofWord (Word.ofText "nop"),
      i ∈ [Index.ofByte 110, .ofByte 111, .ofByte 113] := by decide +kernel
  have hmem : (⟨"nop", .nop⟩ : Entry Mnemonic) ∈ Table.fourWords.entries := by decide
  obtain ⟨hindex, -, -, -, -, hfinish, htexts⟩ :=
    hash_exact Table.fourWeights (Word.ofText "nop")
  refine ⟨(hindex 2 (.ofByte 113)).2 (by decide +kernel), ?_, ?_⟩
  · exact (htexts Table.fourWords 63 Table.fourWeights _ hmem).trans hhash
  · exact (hfinish 63 _ Table.fourWeights hused).trans hhash

end Association

end KeywordHash
