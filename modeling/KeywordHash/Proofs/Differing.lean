import Mathlib.Data.List.Sort
import KeywordHash.Proofs.MissWeight

/-!
# What a generated association shows

An association is shown by the weights that differ from its first. In a generated one these are the
weights that some text reads. No text reads the first index, as none has a NUL and the third byte
reads the index after its own (`val_ne_zero_of_mem_ofWord`), so its weight is the one past the last
slot that all unread indices have (`weight_of_unread`). A weight that is read is part of the hash of
a text, which is not past the last slot (`weight_lt_of_reads`). So the two kinds of weights differ,
and what is shown are the indices that are read, in increasing order, with their weights
(`differing_exact`).
-/

namespace KeywordHash

/-! ## The first index -/

/-- A word without NUL does not read the first index. -/
theorem Index.val_ne_zero_of_mem_ofWord {word : Word} (hword : 0 ∉ word) {i : Index}
    (hi : i ∈ Index.ofWord word) : i.val ≠ 0 := by
  obtain ⟨⟨b, position⟩, hmem, rfl⟩ := List.mem_map.1 hi
  have hb : b ∈ word := List.mem_of_mem_take (List.fst_mem_of_mem_zipIdx hmem)
  show (atPosition position b).val ≠ 0
  unfold atPosition
  split_ifs
  · exact Nat.succ_ne_zero _
  · intro hzero
    have hnul : b = 0 := UInt8.toNat_inj.1 hzero
    exact hword (hnul ▸ hb)

/-! ## What an association shows -/

/-- The weights that are shown are those at the indices whose weight differs from the first, in
increasing order. -/
theorem Association.differing_eq (a : Association) :
    a.differing = ((List.finRange associationLength).filter fun i => a.get i ≠ a.weights[0]).map
      fun i => (i.val, a.get i) := by
  have hweights : a.weights.toList.zipIdx
      = (List.finRange associationLength).map fun i => (a.get i, i.val) := by
    refine List.ext_getElem (by simp) fun n hn hn' => ?_
    simp [get]
  unfold differing
  rw [hweights, List.filter_map, List.map_map]
  rfl

/-! ## What a generated one shows -/

variable {C : Type} [Code C] {v : Vocabulary C}

/-- Some text of the vocabulary reads the index. -/
def Vocabulary.Reads (v : Vocabulary C) (i : Index) : Prop :=
  ∃ e ∈ v.entries, i ∈ Index.ofWord e.word

/-- An index is either read or unread. -/
theorem Vocabulary.unread_iff {i : Index} : v.Unread i ↔ ¬ v.Reads i := by
  unfold Unread Reads
  push Not
  rfl

/-- The first index is not read. -/
theorem Vocabulary.val_ne_zero_of_reads {i : Index} (hi : v.Reads i) : i.val ≠ 0 := by
  obtain ⟨e, he, hread⟩ := hi
  exact Index.val_ne_zero_of_mem_ofWord (v.valid.admissible e he).noNul hread

/-- The indices that the keys of a vocabulary use are those that its texts read. -/
theorem Vocabulary.mem_used_iff {i : Index} : i ∈ Key.used v.keys ↔ v.Reads i := by
  rw [Key.mem_used]
  constructor
  · rintro ⟨k, hk, hread⟩
    obtain ⟨e, he, rfl⟩ := List.mem_map.1 hk
    exact ⟨e, he, hread⟩
  · rintro ⟨e, he, hread⟩
    exact ⟨Key.ofWord e.word, List.mem_map_of_mem he, hread⟩

namespace Table

variable {t : Table C}

variable {σ : Type} [Source σ] {config : SearchConfig} {s : σ}

/-- A weight that is read is part of the hash of a text, so it is below the one past the last
slot. -/
theorem weight_lt_of_reads (h : (generateFrom config v s).1 = .ok t) {i : Index}
    (hi : v.Reads i) : t.association.weight i < t.maxHashValue + 1 := by
  obtain ⟨-, -, -, -, hplace⟩ := exists_finish_of_generateFrom h
  obtain ⟨e, he, hread⟩ := hi
  refine Nat.lt_succ_of_le ?_
  calc t.association.weight i ≤ t.association.hash e.word := t.association.weight_le_hash hread
    _ ≤ largestHash v t.association := hash_le_largestHash he
    _ = t.maxHashValue := (maxHashValue_place hplace).symm

/-- The first weight of a generated association is the one past the last slot. -/
theorem toNat_weights_zero (h : (generateFrom config v s).1 = .ok t) :
    t.association.weights[0].toNat = t.maxHashValue + 1 := by
  have hunread : v.Unread ⟨0, Nat.succ_pos _⟩ :=
    Vocabulary.unread_iff.2 fun hread => Vocabulary.val_ne_zero_of_reads hread rfl
  exact weight_of_unread h hunread

/-- A weight of a generated association differs from the first exactly if its index is read. -/
theorem get_ne_iff_reads (h : (generateFrom config v s).1 = .ok t) (i : Index) :
    t.association.get i ≠ t.association.weights[0] ↔ v.Reads i := by
  rw [ne_eq, ← UInt16.toNat_inj, toNat_weights_zero h]
  show t.association.weight i ≠ t.maxHashValue + 1 ↔ v.Reads i
  constructor
  · intro hne
    by_contra hnot
    exact hne (weight_of_unread h (Vocabulary.unread_iff.2 hnot))
  · intro hi
    exact Nat.ne_of_lt (weight_lt_of_reads h hi)

/-- A generated association shows the weights at the indices that are read. -/
theorem differing_generateFrom (h : (generateFrom config v s).1 = .ok t) :
    t.association.differing
      = (Key.used v.keys).map fun i => (i.val, t.association.get i) := by
  have hindices : ((List.finRange associationLength).filter fun i =>
      t.association.get i ≠ t.association.weights[0]) = Key.used v.keys := by
    refine List.filter_congr fun i _ => ?_
    rw [Bool.eq_iff_iff, decide_eq_true_iff, get_ne_iff_reads h, ← Vocabulary.mem_used_iff,
      Key.mem_used]
    simp
  rw [Association.differing_eq, hindices]

/-- A generated association, whatever the parameters and the draws are: every weight at an index
that some text reads is strictly below the weight of all other indices, which is one past the last
slot, and the first index is one of the others. So what is shown of the association are the indices
that are read, in increasing order and with their weights, and no other. -/
theorem differing_exact (h : (generateFrom config v s).1 = .ok t) :
    (∀ i, v.Reads i → t.association.weight i < t.maxHashValue + 1) ∧
      (∀ i, ¬ v.Reads i → t.association.weight i = t.maxHashValue + 1) ∧
      t.association.weights[0].toNat = t.maxHashValue + 1 ∧
      ∃ indices : List Index, indices.Pairwise (· < ·) ∧ (∀ i, i ∈ indices ↔ v.Reads i) ∧
        t.association.differing = indices.map (fun i => (i.val, t.association.get i)) ∧
        t.association.render = "\x7b" ++ String.intercalate ", " (indices.map fun i =>
          toString i.val ++ ": " ++ toString (t.association.get i)) ++ "\x7d" := by
  have hdiffering := differing_generateFrom h
  refine ⟨fun i hi => weight_lt_of_reads h hi,
    fun i hi => weight_of_unread h (Vocabulary.unread_iff.2 hi), toNat_weights_zero h,
    Key.used v.keys, (List.pairwise_lt_finRange _).filter _, fun _ => Vocabulary.mem_used_iff,
    hdiffering, ?_⟩
  rw [Association.render, hdiffering, List.map_map]
  rfl

/-- The indices that the four words read: those of five letters, and the one after that of `p`. -/
def fourWordsIndices : List Index :=
  [.ofByte 98, .ofByte 100, .ofByte 108, .ofByte 110, .ofByte 111, .afterByte 112]

/-- The association that is generated for the four words shows six weights. The letter `p` is read
in the third position only, so its own index is not among them, but the one after is. -/
theorem differing_fourWords :
    ∃ t, (generate {} fourWords).1 = .ok t ∧ t.association.weights[0].toNat = t.maxHashValue + 1 ∧
      t.association.differing.map Prod.fst = [98, 100, 108, 110, 111, 113] := by
  obtain ⟨t, ht⟩ := exists_generate_fourWords
  obtain ⟨-, -, hfirst, indices, hsorted, hreads, hdiffering, -⟩ := differing_exact ht
  have hread : ∀ i, i ∈ fourWordsIndices ↔ fourWords.Reads i := by
    unfold Vocabulary.Reads
    decide +kernel
  have hindices : indices = fourWordsIndices :=
    hsorted.eq_of_mem_iff (by decide) fun i => (hreads i).trans (hread i).symm
  refine ⟨t, ht, hfirst, ?_⟩
  rw [hdiffering, hindices]
  rfl

end Table

end KeywordHash
