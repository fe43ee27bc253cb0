import KeywordHash.Proofs.Placement
import KeywordHash.Proofs.Rounds

/-!
# Generation stays within its arrays and numbers

Whatever a monad does about conditions that fail, it has nothing to do here: in every monad with
checks, generation is what it is without (`generateFromM_eq`). In particular it has a result where a
failed condition ends it without one: no access is past the end of an array, no difference is below
zero and no weight has more than 16 bits (`Checked.generateFrom_eq`).

Each program is shown to be the unchecked one under what the walk keeps: all weights within the
largest, so that every hash, also of a weight on trial, is below the bound of the tally. A key is
only taken from the tally after it was added (`foldlM_removeM`).
-/

namespace KeywordHash

section

variable {m : Type → Type} [Monad m] [LawfulMonad m]

/-! ## Operations -/

/-- A list is mapped in full if the program has a value at each element. -/
theorem mapM_eq_pure_map {α β : Type} {f : α → m β} {g : α → β} {list : List α}
    (h : ∀ x ∈ list, f x = pure (g x)) : list.mapM f = pure (list.map g) := by
  induction list with
  | nil => rfl
  | cons x rest ih =>
    obtain ⟨hhead, hrest⟩ := List.forall_mem_cons.1 h
    rw [List.mapM_cons, hhead, ih hrest, pure_bind, pure_bind, List.map_cons]

variable [Checks m]

/-- A number can be taken from one that is not smaller. -/
theorem Checks.sub_eq {x y : Nat} (h : y ≤ x) : (sub x y : m Nat) = pure (x - y) := by
  rw [sub, check_of h, pure_bind]

/-- A number of 16 bits is narrowed to itself. -/
theorem Checks.narrow_eq {n : Nat} (h : n < UInt16.size) :
    (narrow n : m UInt16) = pure (UInt16.ofNat n) := by
  rw [narrow, check_of h, pure_bind]

namespace Tally

/-- The count of a hash below the bound can be read. -/
theorem countM_eq {t : Tally} {hash : Nat} (h : hash < t.counts.size) :
    (t.countM hash : m Nat) = pure (t.count hash) := by
  rw [countM, Checks.check_of h, pure_bind]

/-- A key can be added at a hash below the bound. -/
theorem addM_eq {t : Tally} {hash : Nat} (h : hash < t.counts.size) :
    (t.addM hash : m Tally) = pure (t.add hash) := by
  rw [addM, Checks.check_of h, pure_bind]

/-- A key can be removed at a hash below the bound that has one. -/
theorem removeM_eq {t : Tally} {hash : Nat} (h : hash < t.counts.size) (hpos : 1 ≤ t.count hash) :
    (t.removeM hash : m Tally) = pure (t.remove hash) := by
  rw [removeM, Checks.check_of h, pure_bind, Checks.check_of hpos, pure_bind]

/-- Keys can be added at hashes below the bound. -/
theorem foldlM_addM {hashes : List Nat} {t : Tally} (h : ∀ hash ∈ hashes, hash < t.counts.size) :
    (hashes.foldlM addM t : m Tally) = pure (hashes.foldl add t) := by
  induction hashes generalizing t with
  | nil => rfl
  | cons hash rest ih =>
    obtain ⟨hhead, hrest⟩ := List.forall_mem_cons.1 h
    rw [List.foldlM_cons, addM_eq hhead, pure_bind, ih (by simpa using hrest), List.foldl_cons]

/-- Keys can be removed at hashes below the bound that have as many keys as are removed. -/
theorem foldlM_removeM {hashes : List Nat} {t : Tally}
    (h : ∀ hash ∈ hashes, hash < t.counts.size) (hcount : ∀ j, hashes.count j ≤ t.count j) :
    (hashes.foldlM removeM t : m Tally) = pure (hashes.foldl remove t) := by
  induction hashes generalizing t with
  | nil => rfl
  | cons hash rest ih =>
    obtain ⟨hhead, hrest⟩ := List.forall_mem_cons.1 h
    have hpos : 1 ≤ t.count hash := by
      have hle := hcount hash
      rw [List.count_cons_self] at hle
      omega
    -- One key less is counted and one less is to be removed.
    have hlater : ∀ j, rest.count j ≤ (t.remove hash).count j := by
      intro j
      have hle := hcount j
      rw [List.count_cons] at hle
      rw [count_remove]
      by_cases hj : hash = j
      · simp only [hj, beq_self_eq_true, if_true] at hle ⊢
        omega
      · have hbeq : (hash == j) = false := beq_false_of_ne hj
        simp only [hj, hbeq, Bool.false_eq_true, if_false] at hle ⊢
        omega
    rw [List.foldlM_cons, removeM_eq hhead hpos, pure_bind, ih (by simpa using hrest) hlater,
      List.foldl_cons]

end Tally

namespace Pile

/-- Keys can be piled up at hashes below the bound. -/
theorem foldlM_addM {hashes : List Nat} {p : Pile}
    (h : ∀ hash ∈ hashes, hash < p.tally.counts.size) :
    (hashes.foldlM addM p : m Pile) = pure (hashes.foldl add p) := by
  induction hashes generalizing p with
  | nil => rfl
  | cons hash rest ih =>
    obtain ⟨hhead, hrest⟩ := List.forall_mem_cons.1 h
    have hsize : (p.add hash).tally.counts.size = p.tally.counts.size := Tally.size_add _ _
    rw [List.foldlM_cons, addM, Checks.check_of hhead, pure_bind, pure_bind, ih (by rwa [hsize]),
      List.foldl_cons]

/-- The pile of hashes below the bound can be made. -/
theorem ofHashesM_eq {bound : Nat} {hashes : List Nat} (h : ∀ hash ∈ hashes, hash < bound) :
    (ofHashesM bound hashes : m Pile) = pure (ofHashes bound hashes) := by
  rw [ofHashesM, foldlM_addM (by rwa [Tally.size_empty]), ofHashes_eq_foldl]

end Pile

namespace Search

/-! ## Steps -/

variable {keys : List Key} {max : Nat} {a : Association}

/-- What an index adds to a hash can be taken from it. -/
theorem moversM_eq (keys : List Key) (a : Association) (i : Index) :
    (moversM keys a i : m (List Mover)) = pure (movers keys a i) := by
  rw [movers_eq]
  refine mapM_eq_pure_map fun k _ => ?_
  rw [Checks.sub_eq (Key.multiplicity_mul_weight_le k a i), pure_bind]

/-- Keys that do not read an index can be piled up. -/
theorem stationaryM_eq (hkeys : Short keys) (ha : a.AtMost max) (i : Index) :
    (stationaryM (hashBound keys max) keys a i : m Pile)
      = pure (stationary (hashBound keys max) keys a i) := by
  refine Pile.ofHashesM_eq fun hash hmem => ?_
  obtain ⟨k, hk, rfl⟩ := List.mem_map.1 hmem
  exact hash_lt_bound hkeys ha k (List.mem_filter.1 hk).1

/-- A weight can be tried if all movers come to lie below the bound. -/
theorem trialM_eq {movers : List Mover} {p : Pile} {weight : Nat}
    (h : ∀ m ∈ movers, m.landing weight < p.tally.counts.size) :
    (trialM movers p weight : m (Nat × Pile)) = pure (trial movers p weight) := by
  have hlandings : ∀ hash ∈ movers.map (·.landing weight), hash < p.tally.counts.size :=
    List.forall_mem_map.2 h
  have hremove : ((movers.map (·.landing weight)).foldlM Tally.removeM
        ((movers.map (·.landing weight)).foldl Pile.add p).tally : m Tally)
      = pure ((movers.map (·.landing weight)).foldl Tally.remove
        ((movers.map (·.landing weight)).foldl Pile.add p).tally) := by
    rw [Pile.tally_foldl_add]
    refine Tally.foldlM_removeM (by simpa using hlandings) fun j => ?_
    -- Every key that is removed has just been added.
    rw [Tally.count_foldl_add hlandings]
    exact Nat.le_add_left _ _
  have htrial : trial movers p weight = (_, _) := Prod.ext (trial_clashes movers p weight)
    (trial_pile movers p weight)
  unfold trialM
  simp only [Pile.foldlM_addM hlandings, pure_bind, hremove]
  rw [htrial, Pile.tally_foldl_add]

/-- The tally that a trial gives back has as many counts as before. -/
theorem size_trial (movers : List Mover) (p : Pile) (weight : Nat) :
    (trial movers p weight).2.tally.counts.size = p.tally.counts.size := by
  rw [trial_pile, Tally.size_foldl_remove, Tally.size_foldl_add]

/-- Weights can be tried in turn if all movers come to lie below the bound under each. -/
theorem scoresM_eq (movers : List Mover) (weights : List Nat) (p : Pile) (l : Leaders)
    (h : ∀ weight ∈ weights, ∀ m ∈ movers, m.landing weight < p.tally.counts.size) :
    (scoresM movers weights p l : m Leaders) = pure (scores movers weights p l) := by
  induction weights generalizing p l with
  | nil => rfl
  | cons weight rest ih =>
    obtain ⟨hhead, hrest⟩ := List.forall_mem_cons.1 h
    have hsize := size_trial movers p weight
    rw [scoresM, trialM_eq hhead, pure_bind, scores_cons]
    -- The pile that comes back has as many counts, so the other weights can be tried on it.
    refine ih _ _ fun weight' hweight m hm => ?_
    exact (hrest weight' hweight m hm).trans_eq hsize.symm

/-- The best weights of an index can be found. -/
theorem bestM_eq (hkeys : Short keys) (ha : a.AtMost max) (hmax : max < UInt16.size) (i : Index) :
    (bestM (hashBound keys max) keys max a i : m (List Nat))
      = pure (best (hashBound keys max) keys max a i) := by
  have hsize : (stationary (hashBound keys max) keys a i).tally.counts.size
      = hashBound keys max := Pile.size_ofHashes _ _
  have hlanding : ∀ weight ∈ List.range (max + 1), ∀ m ∈ movers keys a i,
      m.landing weight < (stationary (hashBound keys max) keys a i).tally.counts.size := by
    rw [hsize]
    exact fun weight hweight =>
      landing_lt hkeys ha hmax i (Nat.le_of_lt_succ (List.mem_range.1 hweight))
  rw [bestM, moversM_eq, pure_bind, stationaryM_eq hkeys ha, pure_bind,
    scoresM_eq _ _ _ _ hlanding, pure_bind, best_eq]

/-- The colliding keys can be found. -/
theorem collidingM_eq (hkeys : Short keys) (ha : a.AtMost max) :
    (collidingM (hashBound keys max) keys a : m (List Key))
      = pure (colliding (hashBound keys max) keys a) := by
  have hbound := hash_lt_bound hkeys ha
  have hhashes : ∀ hash ∈ keys.map (·.hash a),
      hash < (Tally.empty (hashBound keys max)).counts.size := by
    rw [Tally.size_empty]
    exact List.forall_mem_map.2 hbound
  have htally : ((keys.map fun k => (k, k.hash a)).foldlM (fun t p => t.addM p.2)
        (Tally.empty (hashBound keys max)) : m Tally)
      = pure ((keys.map (·.hash a)).foldl Tally.add (Tally.empty (hashBound keys max))) := by
    rw [← Tally.foldlM_addM hhashes, List.foldlM_map, List.foldlM_map]
  have hcounted : ∀ tally : Tally, tally.counts.size = hashBound keys max →
      ((keys.map fun k => (k, k.hash a)).mapM (fun p => do
          let n ← tally.countM p.2
          return (p.1, n)) : m (List (Key × Nat)))
        = pure ((keys.map fun k => (k, k.hash a)).map fun p => (p.1, tally.count p.2)) := by
    intro tally hsize
    refine mapM_eq_pure_map fun p hmem => ?_
    obtain ⟨k, hk, rfl⟩ := List.mem_map.1 hmem
    rw [Tally.countM_eq (by rw [hsize]; exact hbound k hk), pure_bind]
  have hsize : ((keys.map (·.hash a)).foldl Tally.add
      (Tally.empty (hashBound keys max))).counts.size = hashBound keys max := by
    rw [Tally.size_foldl_add, Tally.size_empty]
  rw [collidingM, htally, pure_bind, hcounted _ hsize, pure_bind, colliding_eq]
  simp only [List.map_map, List.filter_map, Function.comp_def, List.map_id']

section

variable {σ : Type} [Source σ]

/-- A step from small weights is safe. -/
theorem stepM_eq (hkeys : Short keys) (ha : a.AtMost max) (hmax : max < UInt16.size) (s : σ) :
    (stepM keys max a s : m (Step × σ)) = pure (step keys max a s) := by
  unfold step stepM
  simp only [collidingM_eq hkeys ha, pure_bind]
  rcases Source.choose (colliding (hashBound keys max) keys a) s with ⟨_ | k, s₁⟩
  · rfl
  · dsimp only
    rcases Source.choose k.indices s₁ with ⟨_ | i, s₂⟩
    · rfl
    · dsimp only
      simp only [bestM_eq hkeys ha hmax, pure_bind]
      rcases hchoice : Source.choose (best (hashBound keys max) keys max a i) s₂
        with ⟨_ | weight, s₃⟩
      · rfl
      · -- The weight is one of the best, so it was tried and is not past the largest.
        have hle := le_of_mem_best (Source.choose_mem (congrArg Prod.fst hchoice))
        have hnarrow : weight < UInt16.size := hle.trans_lt hmax
        simp only [Checks.narrow_eq hnarrow, pure_bind, Id.run_pure]

/-- A walk from small weights is safe. -/
theorem descendM_eq (hkeys : Short keys) (ha : a.AtMost max) (hmax : max < UInt16.size)
    (budget taken : Nat) (s : σ) :
    (descendM keys max budget taken a s : m (Option (Nat × Association) × σ))
      = pure (descend keys max budget taken a s) := by
  induction budget generalizing taken a s with
  | zero => rfl
  | succ budget ih =>
    rw [descendM, stepM_eq hkeys ha hmax, pure_bind]
    rcases hstep : step keys max a s with ⟨_ | _ | a', s'⟩
    · rw [descend_of_settled hstep]
    · rw [descend_of_stuck hstep]
    · -- The move keeps the weights small, so the rest of the walk is safe, too.
      rw [descend_of_moved hstep]
      exact ih (step_atMost ha (congrArg Prod.fst hstep)) _ _

/-! ## Attempts and rounds -/

/-- Small weights can be drawn. -/
theorem scatterM_eq (hmax : max < UInt16.size) (indices : List Index) (a : Association) (s : σ) :
    (scatterM max indices a s : m (Association × σ)) = pure (scatter max indices a s) := by
  induction indices generalizing a s with
  | nil => rfl
  | cons i rest ih =>
    -- A draw is in range by its type.
    have hle := (Source.weight max s).1.isLt
    have hnarrow : (Source.weight max s).1.val < UInt16.size := by omega
    rw [scatterM]
    dsimp only
    rw [Checks.narrow_eq hnarrow, pure_bind]
    exact ih _ _

/-- An attempt with small weights is safe. -/
theorem attemptM_eq (config : SearchConfig) (hkeys : Short keys) (hmax : max < UInt16.size)
    (s : σ) :
    (attemptM config keys max s : m (Outcome × σ)) = pure (attempt config keys max s) := by
  have hstart := scatter_atMost (Key.used keys) s (Association.atMost_zero max)
  rw [attemptM, scatterM_eq hmax, pure_bind]
  dsimp only
  rw [descendM_eq hkeys hstart hmax, pure_bind]
  rcases hwalk : descend keys max config.iterations 0
    (scatter max (Key.used keys) (Association.filled 0) s).1
    (scatter max (Key.used keys) (Association.filled 0) s).2 with ⟨_ | ⟨steps, a'⟩, s'⟩
  · rw [attempt_of_none hwalk]
  · rw [attempt_of_some hwalk]
    dsimp only
    split_ifs
    · rfl
    · rfl

/-- The attempts of a round with small weights are safe. -/
theorem attemptsM_eq (config : SearchConfig) (hkeys : Short keys) (hmax : max < UInt16.size)
    (round remaining restart : Nat) (s : σ) :
    (attemptsM config keys max round remaining restart s :
        m (Option Association × List Event × σ))
      = pure (attempts config keys max round remaining restart s) := by
  induction remaining generalizing restart s with
  | zero => rfl
  | succ remaining ih =>
    rw [attemptsM, attemptM_eq config hkeys hmax, pure_bind]
    rcases hattempt : attempt config keys max s with ⟨_ | slots | ⟨steps, maxHash, a⟩, s'⟩
    · rw [attempts_of_stalled hattempt]
      dsimp only
      rw [ih, pure_bind]
    · rw [attempts_of_tooWide hattempt]
      dsimp only
      rw [ih, pure_bind]
    · rw [attempts_of_found hattempt]

/-- Rounds with weights up to a small limit are safe. -/
theorem roundsM_eq (config : SearchConfig) (hkeys : Short keys) {limit : Nat}
    (hlimit : limit < UInt16.size) (hmax : max ≤ limit) (remaining round made : Nat) (s : σ) :
    (roundsM config keys limit remaining round max made s :
        m (Except BuildError Association × List Event))
      = pure (rounds config keys limit remaining round max made s) := by
  induction remaining generalizing round max made s with
  | zero => rfl
  | succ remaining ih =>
    rw [roundsM, attemptsM_eq config hkeys (by omega), pure_bind]
    rcases hattempts : attempts config keys max round config.restarts 0 s
      with ⟨_ | a, events, s'⟩
    · dsimp only
      split_ifs with hlast
      · subst hlast
        rw [rounds_of_none_last hattempts]
      · -- Doubled or not, the largest weight of the next round keeps to the limit.
        rw [rounds_of_none hlast hattempts, ih (Nat.min_le_right _ _), pure_bind]
    · rw [rounds_of_some hattempts]

/-- A search is safe. -/
theorem runM_eq (config : SearchConfig) (hkeys : Short keys) (s : σ) :
    (runM config keys s : m (Except BuildError Association × List Event))
      = pure (run config keys s) := by
  rw [runM]
  dsimp only
  rw [roundsM_eq config hkeys (weightLimit_lt _) (Nat.min_le_right _ _), pure_bind, run_eq]

end

end Search

namespace Table

/-! ## Placement -/

variable {C : Type} {a : Association}

/-- Entries can be put into slots that there are. -/
theorem fillM_eq {entries : List (Entry C)} {slots : Array (Option (Entry C))}
    (h : ∀ e ∈ entries, a.hash e.word < slots.size) :
    (fillM a entries slots : m (Except BuildError (Array (Option (Entry C)))))
      = pure (fill a entries slots) := by
  induction entries generalizing slots with
  | nil => rfl
  | cons e rest ih =>
    obtain ⟨hhead, hrest⟩ := List.forall_mem_cons.1 h
    rw [fillM, a.hashM_eq, pure_bind, Checks.slot, Checks.check_of hhead, pure_bind, pure_bind]
    rcases hslot : slots[a.hash e.word]?.join with _ | other
    · rw [fill_cons_of_none hslot]
      dsimp only
      rw [Checks.put, Checks.check_of hhead, pure_bind, pure_bind]
      exact ih (by simpa using hrest)
    · rw [fill_cons_of_some hslot]

variable [Code C]

/-- Placing a vocabulary is safe. -/
theorem placeM_eq (v : Vocabulary C) (a : Association) :
    (placeM v a : m (Except BuildError (Table C))) = pure (place v a) := by
  rw [placeM, fillM_eq place_bound, pure_bind]
  rcases hfill : fill a v.entries (Array.replicate (largestHash v a + 1) none) with error | slots
  · rw [place_of_fill_error hfill]
  · rw [place_of_fill_ok hfill]

/-- Generating a table is safe. -/
theorem generateFromM_eq {σ : Type} [Source σ] (config : SearchConfig) (v : Vocabulary C) (s : σ) :
    (generateFromM config v s : m (Except BuildError (Table C) × List Search.Event))
      = pure (generateFrom config v s) := by
  have hkeys := Search.short_keys v.entries
  unfold generateFrom generateFromM
  rcases twins? [] v.entries with _ | twins
  · dsimp only
    simp only [Search.runM_eq config hkeys, pure_bind]
    generalize Search.run config (v.entries.map fun e => Key.ofWord e.word) s = result
    rcases result with ⟨_ | a, events⟩
    · rfl
    · dsimp only
      simp only [placeM_eq, pure_bind]
      rcases hplace : place v a with _ | t
      · rfl
      · have hpos : 1 ≤ t.slots.size := by
          rw [size_place hplace]
          exact Nat.le_add_left _ _
        simp only [Checks.check_of hpos, pure_bind, Id.run_pure]
  · rfl

end Table

end

/-! ## Checked runs -/

namespace Checked

/-- The hash of a word, which has no result if a weight that it reads is past the last. -/
def hash (a : Association) (word : Word) : Option Nat := a.hashM word

/-- One step of a walk, which has no result if an access is past the end of an array, a difference
is below zero or a weight has more than 16 bits. -/
def step {σ : Type} [Source σ] (keys : List Key) (max : Nat) (a : Association) (s : σ) :
    Option (Search.Step × σ) := Search.stepM keys max a s

/-- Generation from a given source, which has no result if an access is past the end of an array, a
difference is below zero or a weight has more than 16 bits. Steps and attempts are counted without
bound. -/
def generateFrom {C : Type} [Code C] {σ : Type} [Source σ] (config : SearchConfig)
    (v : Vocabulary C) (s : σ) : Option (Except BuildError (Table C) × List Search.Event) :=
  Table.generateFromM config v s

/-- A step from small weights, with every access checked, comes to what it comes to without. -/
theorem step_eq {σ : Type} [Source σ] {keys : List Key} {max : Nat} {a : Association}
    (hkeys : Search.Short keys) (ha : a.AtMost max) (hmax : max < UInt16.size) (s : σ) :
    step keys max a s = some (Search.step keys max a s) := Search.stepM_eq hkeys ha hmax s

/-- With every access checked, generation answers what it answers without. -/
theorem generateFrom_eq {C : Type} [Code C] {σ : Type} [Source σ] (config : SearchConfig)
    (v : Vocabulary C) (s : σ) :
    generateFrom config v s = some (Table.generateFrom config v s) :=
  Table.generateFromM_eq config v s

end Checked

end KeywordHash
