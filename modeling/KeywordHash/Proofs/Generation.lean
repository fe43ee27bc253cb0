import KeywordHash.Proofs.Lookup
import KeywordHash.Proofs.Safety

/-!
# What a generated table gives

The search hashes keys under the weights it draws; the placement hashes the texts again, under the
association that `finish` makes of those weights. Both hashes agree on the vocabulary
(`hash_finish_word`), because `finish` keeps the weight of every index that some key reads. So what
an attempt wins with separates the entries (`separates_finish`) and its table is as wide as the
attempt found (`largestHash_finish`). Placing it therefore succeeds, and the table serves the
vocabulary (`serves_place`). `generateFrom_cases` puts this together: for any parameters and any
source of draws, generation ends with such a table or with one of two errors, and every access on
the way is safe.
-/

namespace KeywordHash

open Search

/-- The keys of the entries of a vocabulary. -/
def Vocabulary.keys {C : Type} [Code C] (v : Vocabulary C) : List Key :=
  v.entries.map fun e => Key.ofWord e.word

namespace Table

variable {C : Type} [Code C]

/-- What a table for a vocabulary gives. -/
structure Serves [DecidableEq C] (t : Table C) (v : Vocabulary C) : Prop where
  /-- Every entry is in the slot of its hash. -/
  slot : ∀ e ∈ v.entries, t.slot? (t.hash e.word) = some e
  /-- No two entries have the same slot. -/
  apart : v.entries.Pairwise fun x y => t.hash x.word ≠ t.hash y.word
  /-- As many slots are occupied as there are entries. -/
  count : t.placed.length = v.size
  /-- A lookup finds what the linear search finds. -/
  found : ∀ word, t.get? word = v.find? word
  /-- The table passes its own check. -/
  verified : t.verify = .ok ()

/-- A placed table serves its vocabulary. -/
theorem serves_place [DecidableEq C] {v : Vocabulary C} {a : Association} {t : Table C}
    (h : place v a = .ok t) : t.Serves v := by
  refine ⟨fun e he => ?_, ?_, ?_, get?_eq_find? h, verify_place h⟩
  · exact (slot?_place h _ e).2 ⟨he, (hash_place h e.word).symm⟩
  · have hseparates : a.Separates v.entries := place_ok_iff.1 ⟨t, h⟩
    refine hseparates.imp fun {x y} hne => ?_
    rwa [hash_place h, hash_place h]
  · rw [(placed_perm h).length_eq, List.length_map]
    rfl

variable {v : Vocabulary C} {a : Association}

/-- The association that is finished for a table hashes the texts of the vocabulary as the searched
one does. -/
theorem hash_finish_word (maxHash : Nat) (a : Association) {e : Entry C} (he : e ∈ v.entries) :
    (finish maxHash (Key.used v.keys) a).hash e.word = (Key.ofWord e.word).hash a := by
  have hkey : Key.ofWord e.word ∈ v.keys := List.mem_map_of_mem he
  have hused : ∀ i ∈ (Key.ofWord e.word).indices, i ∈ Key.used v.keys := fun i hi =>
    Key.mem_used.2 ⟨Key.ofWord e.word, hkey, hi⟩
  calc (finish maxHash (Key.used v.keys) a).hash e.word
      = (Key.ofWord e.word).hash (finish maxHash (Key.used v.keys) a) :=
        Association.hash_eq_hash_ofWord _ e.word
    _ = (Key.ofWord e.word).hash a := hash_finish hused maxHash a

/-- The entries have the hashes of their keys under the finished association. -/
theorem map_hash_finish (maxHash : Nat) (a : Association) :
    (v.entries.map fun e => (finish maxHash (Key.used v.keys) a).hash e.word)
      = v.keys.map (·.hash a) := by
  unfold Vocabulary.keys
  rw [List.map_map]
  exact List.map_congr_left fun e he => hash_finish_word maxHash a he

/-- If all keys have different hashes, the finished association separates the entries. -/
theorem separates_finish (maxHash : Nat) (h : (v.keys.map (·.hash a)).Nodup) :
    (finish maxHash (Key.used v.keys) a).Separates v.entries := by
  rw [← map_hash_finish maxHash] at h
  exact List.pairwise_map.1 h

/-- The last slot of the table is the largest hash of a key. -/
theorem largestHash_finish (maxHash : Nat) (a : Association) :
    largestHash v (finish maxHash (Key.used v.keys) a) = Key.maxHash v.keys a := by
  unfold largestHash Key.maxHash
  rw [map_hash_finish]

/-- The weights that an attempt wins with make a table, which is within the allowed span. -/
theorem place_of_winning [DecidableEq C] {config : SearchConfig} {max : Nat}
    (h : Winning config v.keys max a) :
    ∃ t, place v (finish (Key.maxHash v.keys a) (Key.used v.keys) a) = .ok t ∧ t.Serves v ∧
      ∀ span ∈ config.maxSpan, t.slots.size ≤ span := by
  obtain ⟨t, ht⟩ := place_ok_iff.2 (separates_finish (Key.maxHash v.keys a) h.distinct)
  refine ⟨t, ht, serves_place ht, fun span hspan => ?_⟩
  have hlt : Key.maxHash v.keys a < span := h.span span hspan
  rw [size_place ht, largestHash_finish]
  exact hlt

section

variable {σ : Type} [Source σ] {config : SearchConfig} {s : σ}

/-- Generation names the entries that the check before the search names. -/
theorem generateFrom_of_twins {x y : Entry C} (h : twins? [] v.entries = some (x, y)) :
    generateFrom config v s = (.error (.indistinguishable x.text y.text), []) := by
  simp only [generateFrom, generateFromM, h, Id.run_pure]

variable (htwins : twins? [] v.entries = none)
include htwins

/-- Generation that is not refused up front searches by key and places what it finds. -/
theorem generateFrom_of_none :
    generateFrom config v s = match run config v.keys s with
      | (.error error, events) => (.error error, events)
      | (.ok a, events) => match place v a with
        | .error error => (.error error, events)
        | .ok t => (.ok t, events ++ closing t) := by
  unfold generateFrom generateFromM
  rw [htwins]
  rfl

/-- Generation fails as its search does. -/
theorem generateFrom_of_error {error : BuildError} {events : List Event}
    (h : run config v.keys s = (.error error, events)) :
    generateFrom config v s = (.error error, events) := by
  rw [generateFrom_of_none htwins, h]

/-- Generation ends with the table that the weights of its search place. -/
theorem generateFrom_of_ok {a : Association} {t : Table C} {events : List Event}
    (h : run config v.keys s = (.ok a, events)) (hplace : place v a = .ok t) :
    generateFrom config v s = (.ok t, events ++ closing t) := by
  rw [generateFrom_of_none htwins, h]
  dsimp only
  rw [hplace]

/-- Generation fails as the placement of the weights of its search does. -/
theorem generateFrom_of_place_error {a : Association} {error : BuildError} {events : List Event}
    (h : run config v.keys s = (.ok a, events)) (hplace : place v a = .error error) :
    generateFrom config v s = (.error error, events) := by
  rw [generateFrom_of_none htwins, h]
  dsimp only
  rw [hplace]

/-- Generation that is not refused up front answers what placing the searched weights answers. -/
theorem generateFrom_fst :
    (generateFrom config v s).1 = (run config v.keys s).1.bind (place v) := by
  rcases hrun : run config v.keys s with ⟨error | a, events⟩
  · rw [generateFrom_of_error htwins hrun]
    rfl
  · rcases hplace : place v a with error | t
    · rw [generateFrom_of_place_error htwins hrun hplace, Except.bind, hplace]
    · rw [generateFrom_of_ok htwins hrun hplace, Except.bind, hplace]

end

/-- A generated table is one that is placed by the weights of the search. -/
theorem exists_run_of_generateFrom {σ : Type} [Source σ] {config : SearchConfig} {t : Table C}
    {s : σ} (h : (generateFrom config v s).1 = .ok t) :
    ∃ a, (run config v.keys s).1 = .ok a ∧ place v a = .ok t := by
  rcases htwins : twins? [] v.entries with _ | ⟨first, second⟩
  · rw [generateFrom_fst htwins] at h
    rcases hrun : (run config v.keys s).1 with error | a
    · rw [hrun] at h
      contradiction
    · rw [hrun] at h
      exact ⟨a, rfl, h⟩
  · simp [generateFrom_of_twins htwins] at h

/-- Generation is safe: with every access checked, it answers what it answers without. And it ends
with a table that serves the vocabulary and is within the allowed span, with two entries that cannot
be told apart, or with the search exhausted; whatever the parameters and the draws are. -/
theorem generateFrom_cases [DecidableEq C] {σ : Type} [Source σ] (config : SearchConfig)
    (v : Vocabulary C) (s : σ) :
    Checked.generateFrom config v s = some (generateFrom config v s) ∧
      ((∃ t, (generateFrom config v s).1 = .ok t ∧ t.Serves v ∧
          ∀ span ∈ config.maxSpan, t.slots.size ≤ span) ∨
        (∃ first second, (generateFrom config v s).1 = .error (.indistinguishable first second)) ∨
        ∃ maxWeight attempts,
          (generateFrom config v s).1 = .error (.exhausted maxWeight attempts)) := by
  refine ⟨Checked.generateFrom_eq config v s, ?_⟩
  rcases htwins : twins? [] v.entries with _ | ⟨first, second⟩
  · have hrun : (∃ a, Winning config v.keys (weightLimit (Key.longest v.keys)) a ∧
          (run config v.keys s).1 = .ok (finish (Key.maxHash v.keys a) (Key.used v.keys) a)) ∨
        ∃ last count, (run config v.keys s).1 = .error (.exhausted last count) :=
      run_cases (short_keys v.entries) s
    rw [generateFrom_fst htwins]
    rcases hrun with ⟨weights, hwin, hok⟩ | ⟨last, count, herror⟩
    · -- What the attempt won with is what the placement is given.
      obtain ⟨t, ht, hserves, hspan⟩ := place_of_winning hwin
      rw [hok, Except.bind, ht]
      exact .inl ⟨t, rfl, hserves, hspan⟩
    · rw [herror]
      exact .inr (.inr ⟨last, count, rfl⟩)
  · rw [generateFrom_of_twins htwins]
    exact .inr (.inl ⟨first.text, second.text, rfl⟩)

end Table

end KeywordHash
