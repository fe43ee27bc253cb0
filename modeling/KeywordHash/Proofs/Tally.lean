import Mathlib.Data.List.Nodup
import KeywordHash.Checks

/-!
# What a tally counts

A tally that starts empty and takes hashes below its bound has, for each hash, the number of times
it took it (`Tally.count_ofHashes`). Adding counts and removing uncounts, each at one hash
(`count_add`, `count_remove`), as long as the hash is below the bound. So hashes that are added and
then removed leave the tally as it was (`foldl_remove_foldl_add`).
-/

namespace KeywordHash

namespace Tally

/-- The empty tally counts nothing. -/
theorem count_empty (bound hash : Nat) : (empty bound).count hash = 0 := by
  unfold empty count
  rw [Array.getD_eq_getD_getElem?, Array.getElem?_replicate]
  split_ifs
  · rfl
  · rfl

/-- The empty tally has a count for each hash below its bound. -/
theorem size_empty (bound : Nat) : (empty bound).counts.size = bound := by
  simp [empty]

/-- Adding a key keeps the number of counts. -/
@[simp] theorem size_add (t : Tally) (hash : Nat) :
    (t.add hash).counts.size = t.counts.size := by
  simp [add]

/-- Removing a key keeps the number of counts. -/
@[simp] theorem size_remove (t : Tally) (hash : Nat) :
    (t.remove hash).counts.size = t.counts.size := by
  simp [remove]

/-- Adding keys keeps the number of counts. -/
@[simp] theorem size_foldl_add (hashes : List Nat) (t : Tally) :
    (hashes.foldl add t).counts.size = t.counts.size := by
  induction hashes generalizing t with
  | nil => rfl
  | cons hash rest ih => rw [List.foldl_cons, ih, size_add]

/-- Adding a key below the bound raises the count of its hash by one and no other. -/
theorem count_add {t : Tally} {hash : Nat} (h : hash < t.counts.size) (j : Nat) :
    (t.add hash).count j = t.count j + if hash = j then 1 else 0 := by
  unfold count add
  rw [Array.getD_eq_getD_getElem?, Array.getD_eq_getD_getElem?, Array.getElem?_modify]
  by_cases hj : hash = j
  · subst hj
    simp [h]
  · simp [hj]

/-- Removing a key lowers the count of its hash by one, if it is not zero, and no other. -/
theorem count_remove (t : Tally) (hash j : Nat) :
    (t.remove hash).count j = t.count j - if hash = j then 1 else 0 := by
  unfold count remove
  rw [Array.getD_eq_getD_getElem?, Array.getD_eq_getD_getElem?, Array.getElem?_modify]
  by_cases hj : hash = j
  · subst hj
    rcases t.counts[hash]? with _ | n
    · simp
    · simp
  · simp [hj]

/-- Adding keys below the bound raises each count by the number of keys with its hash. -/
theorem count_foldl_add {hashes : List Nat} {t : Tally}
    (h : ∀ hash ∈ hashes, hash < t.counts.size) (j : Nat) :
    (hashes.foldl add t).count j = t.count j + hashes.count j := by
  induction hashes generalizing t with
  | nil => rfl
  | cons hash rest ih =>
    have hhead := h hash List.mem_cons_self
    have hrest : ∀ hash' ∈ rest, hash' < (t.add hash).counts.size := by
      intro hash' hmem
      rw [size_add]
      exact h hash' (List.mem_cons_of_mem _ hmem)
    rw [List.foldl_cons, ih hrest, count_add hhead, List.count_cons]
    by_cases hj : hash = j
    · subst hj
      simp
      omega
    · simp [hj]

/-- The tally of a list of hashes below its bound counts how often each is listed. -/
theorem count_ofHashes {hashes : List Nat} {bound : Nat} (h : ∀ hash ∈ hashes, hash < bound)
    (j : Nat) : (hashes.foldl add (empty bound)).count j = hashes.count j := by
  rw [count_foldl_add (by rwa [size_empty]), count_empty, Nat.zero_add]

/-- Removing keys keeps the number of counts. -/
@[simp] theorem size_foldl_remove (hashes : List Nat) (t : Tally) :
    (hashes.foldl remove t).counts.size = t.counts.size := by
  induction hashes generalizing t with
  | nil => rfl
  | cons hash rest ih => rw [List.foldl_cons, ih, size_remove]

/-- Removing keys lowers each count by the number of keys with its hash, down to zero. -/
theorem count_foldl_remove (hashes : List Nat) (t : Tally) (j : Nat) :
    (hashes.foldl remove t).count j = t.count j - hashes.count j := by
  induction hashes generalizing t with
  | nil => rfl
  | cons hash rest ih =>
    rw [List.foldl_cons, ih, count_remove, List.count_cons]
    by_cases hj : hash = j
    · subst hj
      simp
      omega
    · simp [hj]

/-- Tallies with the same bound and the same counts are equal. -/
theorem eq_of_count_eq {t t' : Tally} (hsize : t.counts.size = t'.counts.size)
    (hcount : ∀ j, t.count j = t'.count j) : t = t' := by
  obtain ⟨counts⟩ := t
  obtain ⟨counts'⟩ := t'
  congr 1
  refine Array.ext hsize fun j hj hj' => ?_
  have hget := hcount j
  unfold count at hget
  rwa [Array.getD_eq_getD_getElem?, Array.getD_eq_getD_getElem?, Array.getElem?_eq_getElem hj,
    Array.getElem?_eq_getElem hj'] at hget

/-- Keys that are added below the bound and then removed leave the tally as it was. -/
theorem foldl_remove_foldl_add {hashes : List Nat} {t : Tally}
    (h : ∀ hash ∈ hashes, hash < t.counts.size) :
    hashes.foldl remove (hashes.foldl add t) = t := by
  refine eq_of_count_eq (by simp) fun j => ?_
  rw [count_foldl_remove, count_foldl_add h]
  exact Nat.add_sub_cancel _ _

end Tally

/-! ## Piles -/

namespace Pile

/-- A pile of keys has the tally of the keys. -/
theorem tally_foldl_add (hashes : List Nat) (p : Pile) :
    (hashes.foldl add p).tally = hashes.foldl Tally.add p.tally := by
  induction hashes generalizing p with
  | nil => rfl
  | cons hash rest ih =>
    rw [List.foldl_cons, ih, List.foldl_cons]
    rfl

/-- The pile of hashes has the tally of the hashes. -/
theorem tally_ofHashes (bound : Nat) (hashes : List Nat) :
    (ofHashes bound hashes).tally = hashes.foldl Tally.add (Tally.empty bound) := by
  rw [ofHashes_eq_foldl, tally_foldl_add]

/-- The pile of hashes has a count for each hash below its bound. -/
theorem size_ofHashes (bound : Nat) (hashes : List Nat) :
    (ofHashes bound hashes).tally.counts.size = bound := by
  rw [tally_ofHashes, Tally.size_foldl_add, Tally.size_empty]

end Pile

end KeywordHash
