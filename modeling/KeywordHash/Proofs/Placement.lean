import Mathlib.Data.List.Nodup
import Mathlib.Data.List.Pairwise
import Mathlib.Data.List.Perm.Basic
import KeywordHash.Table

/-!
# What a placed table holds

What a vocabulary's validity gives to the proofs about tables comes first: the lengths of its texts
lie between its shortest and its longest, texts and codes each tell its entries apart, and so the
linear search finds exactly the entry that a word belongs to (`Vocabulary.find?_eq_some_iff`).

`Table.place` writes each entry into the slot of its hash. What the slots hold in the end is a
function of the entries alone: `slot?_place` says that a slot holds an entry exactly if the
vocabulary has it and it hashes to the slot, and `place_ok_iff` that there is a table exactly if all
hashes differ. Both rest on the same facts about `fill`, which are proved by induction over the
entries, from any slots to start with (`join_fill`, `fill_ok_iff`). What a table lists follows from
what its slots hold (`placed_perm`).
-/

namespace KeywordHash

/-! ## Entries of a vocabulary -/

instance {C : Type} : Std.Symm (Entry.Distinct (C := C)) :=
  ⟨fun _ _ h => ⟨h.1.symm, h.2.symm⟩⟩

namespace Vocabulary

variable {C : Type} [Code C] {v : Vocabulary C} {e e' : Entry C}

/-- No text is shorter than the shortest. -/
theorem minLength_le (he : e ∈ v.entries) : v.minLength ≤ e.word.length :=
  List.min?_getD_le_of_mem (List.mem_map_of_mem he)

/-- No text is longer than the longest. -/
theorem le_maxLength (he : e ∈ v.entries) : e.word.length ≤ v.maxLength :=
  List.le_max?_getD_of_mem (List.mem_map_of_mem he)

/-- Two entries with the same text are one. -/
theorem eq_of_word_eq (he : e ∈ v.entries) (he' : e' ∈ v.entries) (h : e.word = e'.word) :
    e = e' := by
  by_contra hne
  exact (v.valid.distinct.forall he he' hne).1 (Word.ofText_inj.1 h)

/-- Two entries with the same code are one. -/
theorem eq_of_code_eq (he : e ∈ v.entries) (he' : e' ∈ v.entries) (h : e.code = e'.code) :
    e = e' := by
  by_contra hne
  exact (v.valid.distinct.forall he he' hne).2 h

/-- No entry is listed twice. -/
theorem entries_nodup : v.entries.Nodup :=
  v.valid.distinct.imp fun h heq => h.1 (congrArg Entry.text heq)

/-- The linear search finds an entry exactly if the vocabulary has it under the word. -/
theorem find?_eq_some_iff {word : Word} :
    v.find? word = some e ↔ e ∈ v.entries ∧ e.word = word := by
  unfold find?
  constructor
  · intro h
    exact ⟨List.mem_of_find?_eq_some h, by simpa using List.find?_some h⟩
  · intro h
    obtain ⟨he, rfl⟩ := h
    rcases hfind : v.entries.find? fun e' => decide (e'.word = e.word) with _ | e'
    · have hne := List.find?_eq_none.1 hfind e he
      simp at hne
    · have hword : e'.word = e.word := by simpa using List.find?_some hfind
      rw [hfind, eq_of_word_eq (List.mem_of_find?_eq_some hfind) he hword]

end Vocabulary

/-! ## Entries that hash differently -/

/-- The association hashes no two of the entries alike. -/
def Association.Separates {C : Type} (a : Association) (entries : List (Entry C)) : Prop :=
  entries.Pairwise fun x y => a.hash x.word ≠ a.hash y.word

instance {C : Type} (a : Association) (entries : List (Entry C)) :
    Decidable (a.Separates entries) :=
  inferInstanceAs (Decidable (entries.Pairwise fun x y => a.hash x.word ≠ a.hash y.word))

/-- Of entries that hash differently, two that hash alike are the same entry. -/
theorem Association.Separates.eq_of_hash_eq {C : Type} {a : Association} {entries : List (Entry C)}
    (h : a.Separates entries) {x y : Entry C} (hx : x ∈ entries) (hy : y ∈ entries)
    (hash : a.hash x.word = a.hash y.word) : x = y := by
  have hnodup : (entries.map fun e => a.hash e.word).Nodup := List.pairwise_map.2 h
  exact List.inj_on_of_nodup_map hnodup hx hy hash

namespace Table

variable {C : Type} {a : Association}

/-! ## Filling the slots -/

/-- Writing a slot changes what that slot holds and nothing else. -/
theorem join_setIfInBounds {slots : Array (Option (Entry C))} {i : Nat} (hi : i < slots.size)
    (e : Entry C) (j : Nat) :
    (slots.setIfInBounds i (some e))[j]?.join = if i = j then some e else slots[j]?.join := by
  rw [Array.getElem?_setIfInBounds]
  split_ifs with h
  · rfl
  · rfl

/-- The slots that a table starts from hold nothing. -/
theorem join_replicate_none (size i : Nat) :
    (Array.replicate size (none : Option (Entry C)))[i]?.join = none := by
  rw [Array.getElem?_replicate]
  split_ifs
  · rfl
  · rfl

/-- Filling nothing leaves the slots as they are. -/
theorem fill_nil (a : Association) (slots : Array (Option (Entry C))) :
    fill a [] slots = .ok slots := rfl

/-- Filling an entry whose slot is occupied fails. -/
theorem fill_cons_of_some {slots : Array (Option (Entry C))} {x other : Entry C}
    {rest : List (Entry C)} (h : slots[a.hash x.word]?.join = some other) :
    fill a (x :: rest) slots = .error (.collision other.text x.text (a.hash x.word)) := by
  rw [fill, fillM, Id.run_bind, Association.run_hashM, Id.run_bind, Checks.run_slot, h]
  rfl

/-- Filling an entry whose slot is free writes it and goes on. -/
theorem fill_cons_of_none {slots : Array (Option (Entry C))} {x : Entry C}
    {rest : List (Entry C)} (h : slots[a.hash x.word]?.join = none) :
    fill a (x :: rest) slots = fill a rest (slots.setIfInBounds (a.hash x.word) (some x)) := by
  rw [fill, fillM, Id.run_bind, Association.run_hashM, Id.run_bind, Checks.run_slot, h]
  rfl

/-- Filling keeps the number of slots. -/
theorem size_fill {entries : List (Entry C)} {slots filled : Array (Option (Entry C))}
    (h : fill a entries slots = .ok filled) : filled.size = slots.size := by
  induction entries generalizing slots with
  | nil =>
    obtain rfl := Except.ok.inj h
    rfl
  | cons x rest ih =>
    rcases hslot : slots[a.hash x.word]?.join with _ | other
    · rw [fill_cons_of_none hslot] at h
      rw [ih h, Array.size_setIfInBounds]
    · rw [fill_cons_of_some hslot] at h
      contradiction

/-- After filling, a slot holds what it held before and what was sent to it. -/
theorem join_fill {entries : List (Entry C)} {slots filled : Array (Option (Entry C))}
    (hbound : ∀ e ∈ entries, a.hash e.word < slots.size) (h : fill a entries slots = .ok filled)
    (i : Nat) (e : Entry C) :
    filled[i]?.join = some e ↔ slots[i]?.join = some e ∨ e ∈ entries ∧ a.hash e.word = i := by
  induction entries generalizing slots with
  | nil =>
    cases h
    simp
  | cons x rest ih =>
    cases hslot : slots[a.hash x.word]?.join with
    | some other =>
      rw [fill_cons_of_some hslot] at h
      cases h
    | none =>
      rw [fill_cons_of_none hslot] at h
      have hx := hbound x List.mem_cons_self
      have hrest : ∀ e ∈ rest, a.hash e.word
          < (slots.setIfInBounds (a.hash x.word) (some x)).size := by
        intro e he
        rw [Array.size_setIfInBounds]
        exact hbound e (List.mem_cons_of_mem _ he)
      rw [ih hrest h, join_setIfInBounds hx]
      split_ifs with heq
      · -- The slot of `x` was free, so only `x` and later entries are in it.
        subst heq
        rw [hslot, Option.some.injEq, List.mem_cons]
        constructor
        · rintro (rfl | ⟨he, hash⟩)
          · exact .inr ⟨.inl rfl, rfl⟩
          · exact .inr ⟨.inr he, hash⟩
        · rintro (h' | ⟨rfl | he, hash⟩)
          · cases h'
          · exact .inl rfl
          · exact .inr ⟨he, hash⟩
      · rw [List.mem_cons]
        constructor
        · rintro (h' | ⟨he, hash⟩)
          · exact .inl h'
          · exact .inr ⟨.inr he, hash⟩
        · rintro (h' | ⟨rfl | he, hash⟩)
          · exact .inl h'
          · exact absurd hash heq
          · exact .inr ⟨he, hash⟩

/-- Filling succeeds exactly if no two entries go to the same slot and none to an occupied one. -/
theorem fill_ok_iff {entries : List (Entry C)} {slots : Array (Option (Entry C))}
    (hbound : ∀ e ∈ entries, a.hash e.word < slots.size) :
    (∃ filled, fill a entries slots = .ok filled) ↔
      a.Separates entries ∧ ∀ e ∈ entries, slots[a.hash e.word]?.join = none := by
  induction entries generalizing slots with
  | nil => simp [fill_nil, Association.Separates]
  | cons x rest ih =>
    cases hslot : slots[a.hash x.word]?.join with
    | some other =>
      rw [fill_cons_of_some hslot]
      simp [hslot]
    | none =>
      have hx := hbound x List.mem_cons_self
      have hrest : ∀ e ∈ rest, a.hash e.word
          < (slots.setIfInBounds (a.hash x.word) (some x)).size := by
        intro e he
        rw [Array.size_setIfInBounds]
        exact hbound e (List.mem_cons_of_mem _ he)
      rw [fill_cons_of_none hslot, ih hrest]
      simp only [Association.Separates, List.pairwise_cons, List.forall_mem_cons,
        join_setIfInBounds hx]
      constructor
      · rintro ⟨hsep, hfree⟩
        -- A later entry in the slot of `x` would find it occupied.
        have hne : ∀ e ∈ rest, a.hash x.word ≠ a.hash e.word := by
          intro e he heq
          have hoccupied := hfree e he
          rw [if_pos heq] at hoccupied
          contradiction
        refine ⟨⟨hne, hsep⟩, hslot, fun e he => ?_⟩
        have hbefore := hfree e he
        rwa [if_neg (hne e he)] at hbefore
      · rintro ⟨⟨hne, hsep⟩, -, hfree⟩
        refine ⟨hsep, fun e he => ?_⟩
        rw [if_neg (hne e he)]
        exact hfree e he

/-! ## The table -/

section

variable [Code C] {v : Vocabulary C} {t : Table C}

/-- No entry hashes past the largest hash. -/
theorem hash_le_largestHash {e : Entry C} (he : e ∈ v.entries) :
    a.hash e.word ≤ largestHash v a :=
  List.le_max?_getD_of_mem (List.mem_map_of_mem he)

/-- The slots that a table starts from are free, and there is one for each entry. -/
theorem place_bound (e : Entry C) (he : e ∈ v.entries) :
    a.hash e.word
      < (Array.replicate (largestHash v a + 1) (none : Option (Entry C))).size := by
  rw [Array.size_replicate]
  exact Nat.lt_succ_of_le (hash_le_largestHash he)

/-- Some of the entries of a vocabulary can be filled into the slots that its table starts from
exactly if the association separates them. -/
theorem fill_free_ok_iff {entries : List (Entry C)} (hsub : entries ⊆ v.entries) :
    (∃ filled, fill a entries (Array.replicate (largestHash v a + 1) none) = .ok filled) ↔
      a.Separates entries := by
  rw [fill_ok_iff fun e he => place_bound e (hsub he)]
  exact and_iff_left fun e _ => join_replicate_none _ _

/-- A slot holds an entry afterwards exactly if it was filled and hashes there. -/
theorem join_fill_free {entries : List (Entry C)} (hsub : entries ⊆ v.entries)
    {filled : Array (Option (Entry C))}
    (h : fill a entries (Array.replicate (largestHash v a + 1) none) = .ok filled) (i : Nat)
    (e : Entry C) : filled[i]?.join = some e ↔ e ∈ entries ∧ a.hash e.word = i := by
  rw [join_fill (fun e he => place_bound e (hsub he)) h, join_replicate_none]
  exact or_iff_right nofun

/-- Placing succeeds where filling does, and adds the figures of the vocabulary. -/
theorem place_of_fill_ok {slots : Array (Option (Entry C))}
    (h : fill a v.entries (Array.replicate (largestHash v a + 1) none) = .ok slots) :
    place v a = .ok ⟨a, slots, v.minLength, v.maxLength, smallestHash v a, v.size⟩ := by
  rw [place, placeM, Id.run_bind, run_fillM, h]
  rfl

/-- Placing fails with the error of filling. -/
theorem place_of_fill_error {error : BuildError}
    (h : fill a v.entries (Array.replicate (largestHash v a + 1) none) = .error error) :
    place v a = .error error := by
  rw [place, placeM, Id.run_bind, run_fillM, h]
  rfl

/-- What a placed table is made of. -/
theorem place_eq_ok (h : place v a = .ok t) :
    ∃ slots, fill a v.entries (Array.replicate (largestHash v a + 1) none) = .ok slots ∧
      t = ⟨a, slots, v.minLength, v.maxLength, smallestHash v a, v.size⟩ := by
  rcases hfill : fill a v.entries (Array.replicate (largestHash v a + 1) none) with error | slots
  · rw [place_of_fill_error hfill] at h
    contradiction
  · rw [place_of_fill_ok hfill] at h
    exact ⟨slots, rfl, (Except.ok.inj h).symm⟩

/-- There is a table exactly if the association separates the entries. -/
theorem place_ok_iff : (∃ t, place v a = .ok t) ↔ a.Separates v.entries := by
  rw [← fill_free_ok_iff (List.Subset.refl v.entries)]
  constructor
  · intro h
    obtain ⟨t, ht⟩ := h
    obtain ⟨slots, hslots, -⟩ := place_eq_ok ht
    exact ⟨slots, hslots⟩
  · intro h
    obtain ⟨slots, hslots⟩ := h
    exact ⟨_, place_of_fill_ok hslots⟩

/-- The table keeps the association it is placed with. -/
theorem association_place (h : place v a = .ok t) : t.association = a := by
  obtain ⟨slots, -, rfl⟩ := place_eq_ok h
  rfl

/-- The table hashes words as the association does. -/
theorem hash_place (h : place v a = .ok t) (word : Word) : t.hash word = a.hash word := by
  rw [hash, association_place h]

/-- There are slots up to the largest hash. -/
theorem size_place (h : place v a = .ok t) : t.slots.size = largestHash v a + 1 := by
  obtain ⟨slots, hfill, rfl⟩ := place_eq_ok h
  rw [size_fill hfill, Array.size_replicate]

/-- A slot holds an entry exactly if the vocabulary has it and it hashes there. -/
theorem slot?_place (h : place v a = .ok t) (i : Nat) (e : Entry C) :
    t.slot? i = some e ↔ e ∈ v.entries ∧ a.hash e.word = i := by
  obtain ⟨slots, hfill, rfl⟩ := place_eq_ok h
  exact join_fill_free (List.Subset.refl v.entries) hfill i e

end

/-! ## The list of occupied slots -/

/-- The list has an entry with a slot exactly if the slot holds it. -/
theorem mem_placed {t : Table C} {i : Nat} {e : Entry C} :
    (i, e) ∈ t.placed ↔ t.slot? i = some e := by
  unfold placed slot?
  rw [List.mem_filterMap]
  constructor
  · rintro ⟨⟨slot, j⟩, hmem, heq⟩
    obtain ⟨e', hslot, hpair⟩ := Option.map_eq_some_iff.1 heq
    obtain ⟨rfl, rfl⟩ := Prod.mk.inj hpair
    have hget := List.mem_zipIdx_iff_getElem?.1 hmem
    rw [Array.getElem?_toList] at hget
    rw [hget, hslot]
    rfl
  · intro h
    have hget := Option.join_eq_some_iff.1 h
    refine ⟨(some e, i), ?_, rfl⟩
    rw [List.mem_zipIdx_iff_getElem?, Array.getElem?_toList]
    exact hget

/-- The slots are listed in increasing order. -/
theorem placed_sorted (t : Table C) : t.placed.Pairwise fun p q => p.1 < q.1 := by
  have hslots : t.slots.toList.zipIdx.Pairwise fun p q => p.2 < q.2 := by
    rw [← List.pairwise_map (R := (· < ·)), List.zipIdx_map_snd]
    exact List.pairwise_lt_range'
  unfold placed
  rw [List.pairwise_filterMap]
  refine hslots.imp fun hlt p hp q hq => ?_
  obtain ⟨-, -, rfl⟩ := Option.map_eq_some_iff.1 hp
  obtain ⟨-, -, rfl⟩ := Option.map_eq_some_iff.1 hq
  exact hlt

/-- The table lists every entry of its vocabulary once, with its hash, and nothing else. -/
theorem placed_perm [Code C] {v : Vocabulary C} {t : Table C} (h : place v a = .ok t) :
    t.placed.Perm (v.entries.map fun e => (a.hash e.word, e)) := by
  have hplaced : t.placed.Nodup :=
    (placed_sorted t).imp fun hlt heq => Nat.ne_of_lt hlt (congrArg Prod.fst heq)
  have hentries : (v.entries.map fun e => (a.hash e.word, e)).Nodup :=
    v.entries_nodup.map fun x y hxy => (Prod.mk.inj hxy).2
  rw [List.perm_ext_iff_of_nodup hplaced hentries]
  rintro ⟨i, e⟩
  rw [mem_placed, slot?_place h, List.mem_map]
  constructor
  · rintro ⟨he, rfl⟩
    exact ⟨e, he, rfl⟩
  · rintro ⟨e', he', heq⟩
    obtain ⟨rfl, rfl⟩ := Prod.mk.inj heq
    exact ⟨he', rfl⟩

end Table

end KeywordHash
