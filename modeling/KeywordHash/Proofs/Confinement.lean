import KeywordHash.Proofs.Accounting

/-!
# Every step of a search is confined

The weights of a walk are confined: none is past the largest of the round, and an index that no key
reads has none (`Confined`). An attempt starts so, because it scatters weights at the used indices
only (`Confined.scatter`), and each step keeps it, because it changes a weight that a key reads into
one of those on trial (`Confined.step`). So all weights that the attempt comes past are confined
(`confined_of_mem_attemptCourse`), and every step from them is guarded (`Confined.guarded`): the
hashes of the keys and the landings of the movers are below the size of the tally, and what is taken
from a hash or from a count is there to be taken. `search_confined` says so of every step of every
attempt of a search, with the bounds of the numbers that the rounds compute.
-/

namespace KeywordHash

namespace Search

variable {keys : List Key} {max : Nat} {a : Association}

/-! ## Confined weights -/

/-- What holds of the weights that a walk with weights up to `max` comes past. -/
structure Confined (keys : List Key) (max : Nat) (a : Association) : Prop where
  /-- No weight is past the largest. -/
  atMost : a.AtMost max
  /-- An index that no key reads has no weight. -/
  unread : ∀ i, (∀ k ∈ keys, i ∉ k.indices) → a.weight i = 0

/-- No weights at all are confined. -/
theorem confined_zero (keys : List Key) (max : Nat) : Confined keys max (.filled 0) where
  atMost := Association.atMost_zero max
  unread i _ := Association.weight_filled 0 i

/-- Weights stay confined if an index that some key reads gets a small weight. -/
theorem Confined.set (h : Confined keys max a) {weight : Nat} (hweight : weight ≤ max) {i : Index}
    (hread : ∃ k ∈ keys, i ∈ k.indices) : Confined keys max (a.set i (UInt16.ofNat weight)) where
  atMost := h.atMost.set hweight i
  unread j hunread := by
    -- The index that changes is read, so it is another one.
    have hne : i ≠ j := by
      rintro rfl
      obtain ⟨k, hk, hi⟩ := hread
      exact hunread k hk hi
    rw [Association.weight_set, if_neg hne]
    exact h.unread j hunread

section

variable {σ : Type} [Source σ] {s : σ}

/-- Weights that are scattered at indices which keys read are confined. -/
theorem Confined.scatter (h : Confined keys max a) {indices : List Index}
    (hread : ∀ i ∈ indices, ∃ k ∈ keys, i ∈ k.indices) (s : σ) :
    Confined keys max (Search.scatter max indices a s).1 :=
  scatter_invariant (fun i hi _ hweight _ ha => ha.set hweight (hread i hi)) h s

/-- A step keeps weights confined. -/
theorem Confined.step (hkeys : Short keys) (h : Confined keys max a) {a' : Association}
    (hstep : (Search.step keys max a s).1 = .moved a') : Confined keys max a' := by
  obtain ⟨k, hk, i, hi, ⟨rfl, -⟩ | ⟨weight, hweight, rfl⟩⟩ := step_moved hstep
  · exact h
  · have hbound := hash_lt_bound hkeys h.atMost
    exact h.set (le_of_mem_best hweight) ⟨k, ((mem_colliding hbound).1 hk).1, hi⟩

/-- All weights that an attempt comes past are confined. -/
theorem confined_of_mem_attemptCourse (hkeys : Short keys) {config : SearchConfig}
    (h : a ∈ attemptCourse config keys max s) : Confined keys max a := by
  have hstart : Confined keys max (scatter max (Key.used keys) (.filled 0) s).1 :=
    (confined_zero keys max).scatter (fun i hi => Key.mem_used.1 hi) s
  exact course_invariant (fun _ _ _ ha => ha.step hkeys) hstart _ _ a h

end

/-! ## Guarded steps -/

/-- What makes a step of a walk with weights up to `max` safe: the tally has a place for every hash
that is looked up in it, and nothing is taken away that is not there. -/
structure Guarded (keys : List Key) (max : Nat) (a : Association) : Prop where
  /-- The tally has this many counts. -/
  size : ∀ i, (stationary (hashBound keys max) keys a i).tally.counts.size
    = Key.longest keys + 4 * max + 1
  /-- All hashes are below. -/
  hash_lt : ∀ k ∈ keys, k.hash a < Key.longest keys + 4 * max + 1
  /-- So are the landings of all movers, whatever the weight on trial. -/
  landing_lt : ∀ i, ∀ m ∈ movers keys a i, ∀ weight ≤ max,
    m.base + m.multiplicity * weight < Key.longest keys + 4 * max + 1
  /-- What an index adds to a hash is no more than the hash. -/
  taken_le : ∀ i, ∀ k ∈ keys, k.multiplicity i * a.weight i ≤ k.hash a
  /-- In a trial, every mover is still counted when it is its turn to be taken away. -/
  counted : ∀ i, ∀ weight ≤ max, ∀ before m after, movers keys a i = before ++ m :: after →
    0 < ((before.map (·.landing weight)).foldl Tally.remove
      (((movers keys a i).map (·.landing weight)).foldl Tally.add
        (stationary (hashBound keys max) keys a i).tally)).count (m.landing weight)
  /-- After a trial the tally is as before, so the next weight is tried on the same. -/
  restored : ∀ i, ∀ weight ≤ max,
    (trial (movers keys a i) (stationary (hashBound keys max) keys a i) weight).2
      = stationary (hashBound keys max) keys a i
  /-- With every access checked, a step answers what it answers without. -/
  checked : ∀ {σ : Type} [Source σ] (s : σ), Checked.step keys max a s = some (step keys max a s)

/-- A hash that is added to a tally is counted until its own turn to be taken away. -/
theorem count_pos_of_append {t : Tally} {before after : List Nat} {hash : Nat}
    (h : ∀ other ∈ before ++ hash :: after, other < t.counts.size) :
    0 < (before.foldl Tally.remove ((before ++ hash :: after).foldl Tally.add t)).count hash := by
  have hcount : (before ++ hash :: after).count hash
      = before.count hash + (after.count hash + 1) := by
    rw [List.count_append, List.count_cons_self]
  rw [Tally.count_foldl_remove, Tally.count_foldl_add h]
  omega

/-- A step from confined weights is guarded. -/
theorem Confined.guarded (h : Confined keys max a) (hkeys : Short keys) (hmax : max < UInt16.size) :
    Guarded keys max a := by
  have hsize : ∀ i, (stationary (hashBound keys max) keys a i).tally.counts.size
      = hashBound keys max := fun i => Pile.size_ofHashes _ _
  have hlanding : ∀ i, ∀ weight ≤ max, ∀ m ∈ movers keys a i,
      m.landing weight < (stationary (hashBound keys max) keys a i).tally.counts.size := by
    intro i weight hweight m hm
    rw [hsize]
    exact landing_lt hkeys h.atMost hmax i hweight m hm
  constructor
  case size => exact hsize
  case hash_lt => exact hash_lt_bound hkeys h.atMost
  case landing_lt =>
    intro i m hm weight hweight
    exact landing_lt hkeys h.atMost hmax i hweight m hm
  case taken_le => exact fun i k _ => k.multiplicity_mul_weight_le a i
  case counted =>
    intro i weight hweight before m after heq
    have hsplit : (movers keys a i).map (·.landing weight)
        = before.map (·.landing weight) ++ m.landing weight :: after.map (·.landing weight) := by
      rw [heq, List.map_append, List.map_cons]
    -- All movers have been added, those still to be taken away among them.
    rw [hsplit]
    refine count_pos_of_append fun hash hmem => ?_
    rw [← hsplit] at hmem
    obtain ⟨m', hm', rfl⟩ := List.mem_map.1 hmem
    exact hlanding i weight hweight m' hm'
  case restored => exact fun i weight hweight => trial_snd (hlanding i weight hweight)
  case checked => exact fun s => Checked.step_eq hkeys h.atMost hmax s

end Search

open Search

namespace Table

variable {C : Type} [Code C]

/-- Every text reads an index. -/
theorem indices_ne_nil {v : Vocabulary C} {k : Key} (hk : k ∈ v.keys) : k.indices ≠ [] := by
  obtain ⟨e, he, rfl⟩ := List.mem_map.1 hk
  have hlong : 1 ≤ e.word.length := (v.valid.admissible e he).minLength
  intro hnil
  have hlength : min 4 e.word.length = 0 :=
    (Index.length_ofWord e.word).symm.trans (List.length_eq_zero_iff.2 hnil)
  omega

/-- The largest weight of a round leaves room for four such weights, the longest text and one more,
and to be doubled. -/
theorem roundLimit_room (config : SearchConfig) (v : Vocabulary C) (round : Nat) :
    v.maxLength + 4 * roundLimit config v.maxLength round + 1 ≤ 65535 ∧
      2 * roundLimit config v.maxLength round ≤ 65535 := by
  have hlongest : v.maxLength ≤ 5 := by
    rw [← longest_keys]
    exact longest_keys_le v
  have hle : roundLimit config v.maxLength round ≤ (65534 - v.maxLength) / 4 := Nat.min_le_left _ _
  omega

/-- The room that the limit of the weights leaves is enough for confined weights. -/
theorem maxHash_room {config : SearchConfig} {v : Vocabulary C} {round : Nat} {a : Association}
    (h : Confined v.keys (roundLimit config v.maxLength round) a) :
    Key.maxHash v.keys a + 1 ≤ 65535 := by
  obtain ⟨hroom, -⟩ := roundLimit_room config v round
  have hlargest := maxHash_lt_hashBound (short_keys v.entries) h.atMost
  unfold hashBound keyPositions at hlargest
  rw [← longest_keys] at hroom hlargest
  calc Key.maxHash v.keys a + 1
      ≤ Key.longest v.keys + 4 * roundLimit config (Key.longest v.keys) round + 1 := hlargest
    _ ≤ 65535 := hroom

/-- Searching stays within its arrays and numbers, whatever the parameters and the draws are: with
every access checked, generation answers what it answers without. Every text reads an index to
choose. The largest weight of a round can be doubled within 16 bits and leaves room there for the
miss weight. And at every step of every attempt that is made, no weight is past the largest of the
round and indices that no text reads have none, so that all hashes, also of weights on trial, are
within the tally and nothing is taken away that is not there. -/
theorem search_confined {σ : Type} [Source σ] (config : SearchConfig) (v : Vocabulary C) (s : σ) :
    Checked.generateFrom config v s = some (generateFrom config v s) ∧
    (∀ k ∈ v.keys, k.indices ≠ []) ∧
    (∀ round, v.maxLength + 4 * roundLimit config v.maxLength round + 1 ≤ 65535 ∧
      2 * roundLimit config v.maxLength round ≤ 65535) ∧
    Scheduled config v s (tries config v.keys (config.rounds * config.restarts) 0 s) ∧
    ∀ t ∈ tries config v.keys (config.rounds * config.restarts) 0 s,
      ∀ a ∈ attemptCourse config v.keys (roundLimit config v.maxLength t.round) t.draws,
        Confined v.keys (roundLimit config v.maxLength t.round) a ∧
          Guarded v.keys (roundLimit config v.maxLength t.round) a ∧
          Key.maxHash v.keys a + 1 ≤ 65535 := by
  refine ⟨Checked.generateFrom_eq config v s, fun k hk => indices_ne_nil hk,
    roundLimit_room config v, scheduled_tries config v s, fun t _ a ha => ?_⟩
  have hkeys : Short v.keys := short_keys v.entries
  have hmax : roundLimit config v.maxLength t.round < UInt16.size := roundLimit_lt _ _ _
  have hconfined := confined_of_mem_attemptCourse hkeys ha
  exact ⟨hconfined, hconfined.guarded hkeys hmax, maxHash_room hconfined⟩

/-- The first attempt to find a table for the four words starts from confined weights: they are
within 64, the letter `s` has none, and no word is hashed past the 260 counts of the tally. -/
theorem search_confined_fourWords :
    ∃ t ∈ tries {} fourWords.keys 128 0 (Keystream.ofSeed 0x6d6e656d),
      ∃ a ∈ attemptCourse {} fourWords.keys 64 t.draws,
        (∀ i, a.weight i ≤ 64) ∧ a.weight (.ofByte 115) = 0 ∧
          (∀ k ∈ fourWords.keys, k.indices ≠ [] ∧ k.hash a < 260) ∧
          Key.maxHash fourWords.keys a + 1 ≤ 65535 := by
  obtain ⟨-, hindices, -, -, hattempts⟩ :=
    search_confined {} fourWords (Keystream.ofSeed 0x6d6e656d)
  have hfirst : (⟨0, 0, Keystream.ofSeed 0x6d6e656d⟩ : Try Keystream) ∈
      tries {} fourWords.keys 128 0 (Keystream.ofSeed 0x6d6e656d) := by
    rw [tries]
    exact List.mem_cons_self
  have hround : roundLimit {} fourWords.maxLength 0 = 64 := by decide +kernel
  have hsteps := hattempts _ hfirst
  rw [hround] at hsteps
  obtain ⟨later, hcourse⟩ := course_eq_cons fourWords.keys 64 1000
    (scatter 64 (Key.used fourWords.keys) (.filled 0) (Keystream.ofSeed 0x6d6e656d)).1
    (scatter 64 (Key.used fourWords.keys) (.filled 0) (Keystream.ofSeed 0x6d6e656d)).2
  have hstart := hcourse ▸ List.mem_cons_self
  obtain ⟨hconfined, hguarded, hmiss⟩ := hsteps _ hstart
  have hunread : ∀ k ∈ fourWords.keys, Index.ofByte 115 ∉ k.indices := by decide +kernel
  exact ⟨_, hfirst, _, hstart, hconfined.atMost, hconfined.unread _ hunread,
    fun k hk => ⟨hindices k hk, hguarded.hash_lt k hk⟩, hmiss⟩

end Table

end KeywordHash
