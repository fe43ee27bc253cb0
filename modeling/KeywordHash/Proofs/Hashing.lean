import Mathlib.Algebra.Order.BigOperators.Group.List
import Mathlib.Algebra.Order.Ring.Nat
import KeywordHash.Search.Rounds

/-!
# Hashes of words and hashes of keys

The table hashes words byte by byte (`Association.hash`), the search hashes keys, which are lists of
indices (`Key.hash`). The bytes read the weights at the indices, and none past the last
(`keyWeightM_eq_sum`). So both give a word the same hash (`hash_eq_hash_ofWord`), and whatever the
search finds out about keys holds of words. A hash depends on the weights at the key's own
indices only (`Key.hash_congr`); `finish` keeps these and changes all others (`weight_finish`,
`weight_finish_of_not_mem`), so it changes no hash of a key (`hash_finish`).
-/

namespace KeywordHash

/-! ## Weights -/

namespace Association

/-- Every index of a uniform association has the same weight. -/
theorem weight_filled (weight : UInt16) (i : Index) :
    (filled weight).weight i = weight.toNat := by
  simp [filled, Association.weight, get]

/-- There is a weight at every index. -/
theorem get?_val (a : Association) (i : Index) : a.get? i.val = some (a.get i) :=
  Vector.getElem?_eq_getElem i.isLt

/-- Setting the weight of an index changes that weight and no other. -/
theorem weight_set (a : Association) (i j : Index) (weight : UInt16) :
    (a.set i weight).weight j = if i = j then weight.toNat else a.weight j := by
  unfold Association.set Association.weight get
  by_cases h : i = j
  · subst h
    simp
  · have hval : i.val ≠ j.val := fun heq => h (Fin.ext heq)
    simp [hval, h]

/-- No weight is past a bound. -/
def AtMost (a : Association) (max : Nat) : Prop := ∀ i, a.weight i ≤ max

/-- Weights of zero are within any bound. -/
theorem atMost_zero (max : Nat) : (filled 0).AtMost max := by
  intro i
  rw [weight_filled]
  exact Nat.zero_le max

/-- Setting an index to a weight within the bound keeps all weights within it. -/
theorem AtMost.set {a : Association} {max weight : Nat} (h : a.AtMost max) (hw : weight ≤ max)
    (i : Index) : (a.set i (UInt16.ofNat weight)).AtMost max := by
  intro j
  rw [weight_set]
  split_ifs
  · have hmod : (UInt16.ofNat weight).toNat ≤ weight := by
      rw [UInt16.toNat_ofNat']
      exact Nat.mod_le _ _
    omega
  · exact h j

end Association

/-! ## Keys -/

/-- A word reads as many indices as it has bytes, up to four. -/
theorem Index.length_ofWord (word : Word) :
    (ofWord word).length = min keyPositions word.length := by
  simp [ofWord]

/-- A word reads at most four indices. -/
theorem Index.length_ofWord_le (word : Word) : (ofWord word).length ≤ keyPositions := by
  rw [length_ofWord]
  exact Nat.min_le_left _ _

/-- The hash of a key is its length and the sum of the weights at its indices. -/
theorem Key.hash_eq (k : Key) (a : Association) :
    k.hash a = k.length + (k.indices.map a.weight).sum := by
  have hfold : ∀ (indices : List Index) (start : Nat),
      indices.foldl (fun sum i => sum + a.weight i) start
        = start + (indices.map a.weight).sum := by
    intro indices
    induction indices with
    | nil => simp
    | cons i rest ih =>
      intro start
      rw [List.foldl_cons, ih, List.map_cons, List.sum_cons, Nat.add_assoc]
  exact hfold k.indices k.length

namespace Association

section

variable {m : Type → Type} [Monad m] [LawfulMonad m] [Checks m] (a : Association)

/-- The weight at an index can be looked up. -/
theorem weightM_val (i : Index) : (a.weightM i.val : m Nat) = pure (a.weight i) := by
  rw [weightM, Checks.check_of i.isLt, pure_bind, a.get?_val i]
  rfl

/-- So can the one at the value of a byte. -/
theorem weightM_byte (b : UInt8) : (a.weightM b.toNat : m Nat) = pure (a.weight (.ofByte b)) :=
  a.weightM_val (.ofByte b)

/-- And the one after. -/
theorem weightM_byte_succ (b : UInt8) :
    (a.weightM (b.toNat + 1) : m Nat) = pure (a.weight (.afterByte b)) :=
  a.weightM_val (.afterByte b)

/-- What a word adds to its hash are the weights at its indices, none of which is past the last. -/
theorem keyWeightM_eq_sum (word : Word) :
    (a.keyWeightM word : m Nat) = pure ((Index.ofWord word).map a.weight).sum := by
  unfold Index.ofWord
  -- The cases are those of the definition: no byte, one, two, three, and four or more.
  match word with
  | [] => rfl
  | [p] => simp [keyWeightM, weightM_byte, keyPositions, Index.atPosition]
  | [p, q] => simp [keyWeightM, weightM_byte, keyPositions, Index.atPosition]
  | [p, q, r] =>
    simp [keyWeightM, weightM_byte, weightM_byte_succ, keyPositions, Index.atPosition,
      Nat.add_assoc]
  | p :: q :: r :: s :: _ =>
    simp [keyWeightM, weightM_byte, weightM_byte_succ, keyPositions, Index.atPosition,
      Nat.add_assoc]

/-- Hashing a word is safe. -/
theorem hashM_eq (word : Word) : (a.hashM word : m Nat) = pure (a.hash word) := by
  unfold hash hashM
  simp only [keyWeightM_eq_sum, pure_bind, Id.run_pure]

end

/-- The hash of a word is the hash of its key. -/
theorem hash_eq_hash_ofWord (a : Association) (word : Word) :
    a.hash word = (Key.ofWord word).hash a := by
  rw [Key.hash_eq, hash, hashM, keyWeightM_eq_sum, pure_bind]
  rfl

end Association

namespace Key

/-- Keys that read the same indices in any order differ in hash exactly if they differ in length. -/
theorem hash_eq_iff_of_perm {k l : Key} (h : k.indices.Perm l.indices) (a : Association) :
    k.hash a = l.hash a ↔ k.length = l.length := by
  rw [hash_eq, hash_eq, (h.map a.weight).sum_eq]
  exact Nat.add_right_cancel_iff

/-- The hash of a key depends on the weights at its own indices only. -/
theorem hash_congr {k : Key} {a b : Association} (h : ∀ i ∈ k.indices, a.weight i = b.weight i) :
    k.hash a = k.hash b := by
  rw [hash_eq, hash_eq, List.map_congr_left h]

/-- The readings of one index are part of what a list of indices adds up to. -/
theorem count_mul_weight_le (indices : List Index) (a : Association) (i : Index) :
    indices.count i * a.weight i ≤ (indices.map a.weight).sum := by
  induction indices with
  | nil => simp
  | cons j rest ih =>
    rw [List.count_cons, List.map_cons, List.sum_cons, Nat.add_mul]
    by_cases h : j = i
    · subst h
      simp only [beq_self_eq_true, if_true]
      omega
    · have hbeq : (j == i) = false := beq_false_of_ne h
      simp only [hbeq, Bool.false_eq_true, if_false]
      omega

/-- What a key adds for an index is part of its hash. -/
theorem multiplicity_mul_weight_le (k : Key) (a : Association) (i : Index) :
    k.multiplicity i * a.weight i ≤ k.hash a := by
  have hcount := count_mul_weight_le k.indices a i
  rw [hash_eq]
  unfold multiplicity
  omega

/-- Another weight at an index changes what a list of indices adds up to by the change at each
reading of the index. -/
theorem sum_weight_set (indices : List Index) (a : Association) (i : Index) (weight : UInt16) :
    (indices.map (a.set i weight).weight).sum + indices.count i * a.weight i
      = (indices.map a.weight).sum + indices.count i * weight.toNat := by
  induction indices with
  | nil => simp
  | cons j rest ih =>
    simp only [List.count_cons, List.map_cons, List.sum_cons, Nat.add_mul]
    by_cases h : j = i
    · subst h
      simp only [Association.weight_set, beq_self_eq_true, if_true]
      omega
    · have hbeq : (j == i) = false := beq_false_of_ne h
      have hne : i ≠ j := fun heq => h heq.symm
      simp only [Association.weight_set, hbeq, hne, Bool.false_eq_true, if_false]
      omega

/-- The hash of a key after an index gets another weight: what the index added is taken away, and
the new weight is added as often as the key reads the index. -/
theorem hash_set (k : Key) (a : Association) (i : Index) (weight : UInt16) :
    k.hash (a.set i weight)
      = k.hash a - k.multiplicity i * a.weight i + k.multiplicity i * weight.toNat := by
  have hsum := sum_weight_set k.indices a i weight
  have hle := count_mul_weight_le k.indices a i
  rw [hash_eq, hash_eq]
  unfold multiplicity
  omega

/-- No key is longer than the longest. -/
theorem length_le_longest {keys : List Key} {k : Key} (hk : k ∈ keys) :
    k.length ≤ longest keys :=
  List.le_max?_getD_of_mem (List.mem_map_of_mem hk)

/-- Under weights up to `max`, the hash of a key of at most four indices is below the bound. -/
theorem hash_lt_hashBound {keys : List Key} {k : Key} {a : Association} {max : Nat} (hk : k ∈ keys)
    (hfour : k.indices.length ≤ keyPositions) (ha : a.AtMost max) :
    k.hash a < Search.hashBound keys max := by
  have hweight : ∀ w ∈ k.indices.map a.weight, w ≤ max := by
    intro w hw
    obtain ⟨i, -, rfl⟩ := List.mem_map.1 hw
    exact ha i
  have hsum : (k.indices.map a.weight).sum ≤ keyPositions * max := by
    calc (k.indices.map a.weight).sum ≤ (k.indices.map a.weight).length • max :=
          List.sum_le_card_nsmul _ _ hweight
      _ = k.indices.length * max := by rw [List.length_map, Nat.nsmul_eq_mul]
      _ ≤ keyPositions * max := Nat.mul_le_mul_right max hfour
  have hlong := length_le_longest hk
  rw [hash_eq]
  unfold Search.hashBound
  omega

/-- The used indices are those that some key reads. -/
theorem mem_used {keys : List Key} {i : Index} : i ∈ used keys ↔ ∃ k ∈ keys, i ∈ k.indices := by
  simp [used]

end Key

/-- A word that reads an index is hashed to its weight or past it. -/
theorem Association.weight_le_hash (a : Association) {word : Word} {i : Index}
    (hi : i ∈ Index.ofWord word) : a.weight i ≤ a.hash word := by
  have hle := Key.multiplicity_mul_weight_le (Key.ofWord word) a i
  have hpos : 0 < (Key.ofWord word).multiplicity i := List.count_pos_iff.2 hi
  rw [hash_eq_hash_ofWord]
  calc a.weight i ≤ (Key.ofWord word).multiplicity i * a.weight i := Nat.le_mul_of_pos_left _ hpos
    _ ≤ (Key.ofWord word).hash a := hle

/-! ## The finished association -/

namespace Search

/-- Copying the weights at some indices changes the weights there and no other. -/
theorem weight_foldl_set (used : List Index) (a start : Association) (i : Index) :
    (i ∈ used → (used.foldl (fun table j => table.set j (a.get j)) start).weight i = a.weight i) ∧
      (i ∉ used →
        (used.foldl (fun table j => table.set j (a.get j)) start).weight i = start.weight i) := by
  induction used generalizing start with
  | nil => simp
  | cons j rest ih =>
    obtain ⟨hcopied, hkept⟩ := ih (start.set j (a.get j))
    rw [List.foldl_cons, List.mem_cons]
    constructor
    · intro hmem
      by_cases hrest : i ∈ rest
      · exact hcopied hrest
      · obtain rfl := hmem.resolve_right hrest
        rw [hkept hrest, Association.weight_set, if_pos rfl]
        rfl
    · intro hnot
      obtain ⟨hne, hrest⟩ := not_or.1 hnot
      rw [hkept hrest, Association.weight_set, if_neg fun heq => hne heq.symm]

/-- The finished association has the searched weights at the used indices. -/
theorem weight_finish {used : List Index} {i : Index} (hi : i ∈ used) (maxHash : Nat)
    (a : Association) : (finish maxHash used a).weight i = a.weight i := by
  obtain ⟨hcopied, -⟩ := weight_foldl_set used a
    (Association.filled (UInt16.ofNat (min (maxHash + 1) (UInt16.size - 1)))) i
  exact hcopied hi

/-- It has one more than the largest hash at the other indices, or the largest weight that there
is. -/
theorem weight_finish_of_not_mem {used : List Index} {i : Index} (hi : i ∉ used) (maxHash : Nat)
    (a : Association) :
    (finish maxHash used a).weight i = min (maxHash + 1) (UInt16.size - 1) := by
  have hpos : 0 < UInt16.size := by decide
  have hsize : min (maxHash + 1) (UInt16.size - 1) < UInt16.size := by omega
  obtain ⟨-, hkept⟩ := weight_foldl_set used a
    (Association.filled (UInt16.ofNat (min (maxHash + 1) (UInt16.size - 1)))) i
  unfold finish
  rw [hkept hi, Association.weight_filled, UInt16.toNat_ofNat', Nat.mod_eq_of_lt hsize]

/-- Finishing changes no hash of a key whose indices are used. -/
theorem hash_finish {k : Key} {used : List Index} (hused : ∀ i ∈ k.indices, i ∈ used)
    (maxHash : Nat) (a : Association) : k.hash (finish maxHash used a) = k.hash a := by
  refine Key.hash_congr fun i hi => ?_
  exact weight_finish (hused i hi) maxHash a

end Search

end KeywordHash
