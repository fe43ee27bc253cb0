import Mathlib.Data.List.Nodup
import KeywordHash.Proofs.Hashing
import KeywordHash.Proofs.Tally
import KeywordHash.Vocabulary

/-!
# What a walk of the search keeps and reaches

Under weights within the largest allowed every hash is below the bound of the tally
(`hash_lt_bound`), so the tally counts them all: the colliding keys are those whose hash is not
theirs alone (`colliding_eq_filter`). A trial of a weight piles the movers up and takes them away
again, which gives the pile back (`trial_snd`); so all weights are scored on the same pile
(`scores_eq_foldl`).

`step_cases` says all that a step can do. From it follows what a walk keeps: a property that every
move keeps holds where the walk settles (`descend_invariant`). The one needed here is that no weight
gets past the largest allowed (`step_atMost`). A walk settles exactly where no two keys hash alike
(`colliding_eq_nil_iff`), so one that settles does so with all hashes different (`descend_settled`).
-/

namespace KeywordHash.Search

/-- Every key reads at most as many indices as a word does. -/
def Short (keys : List Key) : Prop := ∀ k ∈ keys, k.indices.length ≤ keyPositions

/-- The keys of entries are short. -/
theorem short_keys {C : Type} (entries : List (Entry C)) :
    Short (entries.map fun e => Key.ofWord e.word) := by
  intro k hk
  obtain ⟨e, -, rfl⟩ := List.mem_map.1 hk
  exact Index.length_ofWord_le e.word

variable {keys : List Key} {max : Nat} {a : Association}

/-- Every key that is hashed under small weights is below the bound. -/
theorem hash_lt_bound (hkeys : Short keys) (ha : a.AtMost max) :
    ∀ k ∈ keys, k.hash a < hashBound keys max := fun k hk =>
  Key.hash_lt_hashBound hk (hkeys k hk) ha

/-! ## Collisions -/

/-- The colliding keys are those with a count of more than one. -/
theorem colliding_eq (bound : Nat) (keys : List Key) (a : Association) :
    colliding bound keys a = keys.filter fun k =>
      1 < ((keys.map (·.hash a)).foldl Tally.add (Tally.empty bound)).count (k.hash a) := by
  unfold colliding collidingM
  simp only [Id.run_bind, Id.run_pure, List.idRun_foldlM, List.idRun_mapM, Tally.run_addM,
    Tally.run_countM, List.foldl_map, List.map_map, List.filter_map, Function.comp_def,
    List.map_id']

/-- The colliding keys are the keys whose hash is not theirs alone, in their order. -/
theorem colliding_eq_filter {bound : Nat} (hbound : ∀ k ∈ keys, k.hash a < bound) :
    colliding bound keys a
      = keys.filter fun k => 1 < (keys.map (·.hash a)).count (k.hash a) := by
  have hhashes : ∀ hash ∈ keys.map (·.hash a), hash < bound := List.forall_mem_map.2 hbound
  rw [colliding_eq]
  simp only [Tally.count_ofHashes hhashes]

/-- The colliding keys are those whose hash is not theirs alone. -/
theorem mem_colliding {bound : Nat} (hbound : ∀ k ∈ keys, k.hash a < bound) {k : Key} :
    k ∈ colliding bound keys a ↔ k ∈ keys ∧ 1 < (keys.map (·.hash a)).count (k.hash a) := by
  rw [colliding_eq_filter hbound, List.mem_filter, decide_eq_true_iff]

/-- No key collides exactly if all hashes differ. -/
theorem colliding_eq_nil_iff {bound : Nat} (hbound : ∀ k ∈ keys, k.hash a < bound) :
    colliding bound keys a = [] ↔ (keys.map (·.hash a)).Nodup := by
  rw [List.eq_nil_iff_forall_not_mem, List.nodup_iff_count_le_one]
  constructor
  · intro hnone hash
    by_cases hmem : hash ∈ keys.map (·.hash a)
    · obtain ⟨k, hk, rfl⟩ := List.mem_map.1 hmem
      have hnot := hnone k
      rw [mem_colliding hbound] at hnot
      exact Nat.le_of_not_lt fun hcount => hnot ⟨hk, hcount⟩
    · rw [List.count_eq_zero_of_not_mem hmem]
      exact Nat.zero_le 1
  · intro hcount k hk
    have hone := ((mem_colliding hbound).1 hk).2
    exact absurd (hcount (k.hash a)) (Nat.not_le_of_lt hone)

/-! ## Trials -/

/-- A key that reads an index moves from its hash without the weight there. -/
theorem movers_eq (keys : List Key) (a : Association) (i : Index) :
    movers keys a i = (keys.filter fun k => k.multiplicity i ≠ 0).map fun k =>
      ⟨k.hash a - k.multiplicity i * a.weight i, k.multiplicity i⟩ := List.idRun_mapM

/-- The keys that do not read an index are piled up by their hashes. -/
theorem stationary_eq (bound : Nat) (keys : List Key) (a : Association) (i : Index) :
    stationary bound keys a i
      = Pile.ofHashes bound ((keys.filter fun k => k.multiplicity i = 0).map (·.hash a)) := rfl

/-- A mover comes to lie where its key does when its index has the weight. -/
theorem landing_eq (k : Key) (a : Association) (i : Index) {weight : Nat}
    (h : weight < UInt16.size) :
    Mover.landing ⟨k.hash a - k.multiplicity i * a.weight i, k.multiplicity i⟩ weight
      = k.hash (a.set i (UInt16.ofNat weight)) := by
  rw [Key.hash_set, UInt16.toNat_ofNat', Nat.mod_eq_of_lt h]
  rfl

/-- Movers come to lie below the bound, whatever the weight on trial. -/
theorem landing_lt (hkeys : Short keys) (ha : a.AtMost max) (hmax : max < UInt16.size) (i : Index)
    {weight : Nat} (hweight : weight ≤ max) :
    ∀ m ∈ movers keys a i, m.landing weight < hashBound keys max := by
  intro m hm
  rw [movers_eq] at hm
  obtain ⟨k, hk, rfl⟩ := List.mem_map.1 hm
  -- It comes to lie where its key does under the weight on trial, and that is a small one.
  rw [landing_eq k a i (by omega)]
  exact hash_lt_bound hkeys (ha.set hweight i) k (List.mem_filter.1 hk).1

section

variable {movers : List Mover} {p : Pile} {weight : Nat}

/-- A trial counts the clashes when the movers are added. -/
theorem trial_clashes (movers : List Mover) (p : Pile) (weight : Nat) :
    (trial movers p weight).1 = ((movers.map (·.landing weight)).foldl Pile.add p).clashes := by
  unfold trial trialM
  simp only [Id.run_bind, Id.run_pure, List.idRun_foldlM, Pile.run_addM]

/-- A trial takes away what it has added. -/
theorem trial_pile (movers : List Mover) (p : Pile) (weight : Nat) :
    (trial movers p weight).2 = ⟨p.clashes, (movers.map (·.landing weight)).foldl Tally.remove
      ((movers.map (·.landing weight)).foldl Tally.add p.tally)⟩ := by
  unfold trial trialM
  simp only [Id.run_bind, Id.run_pure, List.idRun_foldlM, Pile.run_addM, Tally.run_removeM,
    Pile.tally_foldl_add]

/-- A trial gives the pile back as it was. -/
theorem trial_snd (h : ∀ m ∈ movers, m.landing weight < p.tally.counts.size) :
    (trial movers p weight).2 = p := by
  rw [trial_pile, Tally.foldl_remove_foldl_add (List.forall_mem_map.2 h)]

/-- Weights are tried one by one. -/
theorem scores_cons (movers : List Mover) (weight : Nat) (rest : List Nat) (p : Pile)
    (l : Leaders) :
    scores movers (weight :: rest) p l = scores movers rest (trial movers p weight).2
      (l.consider weight (trial movers p weight).1) := rfl

/-- The leaders among weights are found by considering each with the clashes that it has on the same
pile. -/
theorem scores_eq_foldl {weights : List Nat}
    (h : ∀ weight ∈ weights, ∀ m ∈ movers, m.landing weight < p.tally.counts.size) (l : Leaders) :
    scores movers weights p l
      = weights.foldl (fun l weight => l.consider weight (trial movers p weight).1) l := by
  induction weights generalizing l with
  | nil => rfl
  | cons weight rest ih =>
    obtain ⟨hhead, hrest⟩ := List.forall_mem_cons.1 h
    -- The pile is the one that went in, so the other weights are tried on the same.
    rw [scores_cons, trial_snd hhead, ih hrest, List.foldl_cons]

end

/-- The best weights are the leaders of all, the first tried in front. -/
theorem best_eq (bound : Nat) (keys : List Key) (max : Nat) (a : Association) (i : Index) :
    best bound keys max a i = (scores (movers keys a i) (List.range (max + 1))
      (stationary bound keys a i) ⟨keys.length + 1, []⟩).weights.reverse := rfl

/-! ## One step -/

/-- The leaders after one more weight are that weight and those before. -/
theorem mem_consider {l : Leaders} {weight clashes w : Nat}
    (h : w ∈ (l.consider weight clashes).weights) : w = weight ∨ w ∈ l.weights := by
  unfold Leaders.consider at h
  split_ifs at h
  · exact .inl (List.mem_singleton.1 h)
  · exact List.mem_cons.1 h
  · exact .inr h

/-- The leaders are weights that were tried. -/
theorem mem_scores {movers : List Mover} {weights : List Nat} {p : Pile} {l : Leaders} {w : Nat}
    (h : w ∈ (scores movers weights p l).weights) : w ∈ weights ∨ w ∈ l.weights := by
  induction weights generalizing p l with
  | nil => exact .inr h
  | cons weight rest ih =>
    rcases ih h with hrest | hl
    · exact .inl (List.mem_cons_of_mem _ hrest)
    · rcases mem_consider hl with rfl | hl
      · exact .inl List.mem_cons_self
      · exact .inr hl

/-- A best weight is at most the largest. -/
theorem le_of_mem_best {bound weight : Nat} {i : Index} (h : weight ∈ best bound keys max a i) :
    weight ≤ max := by
  rw [best_eq] at h
  rcases mem_scores (List.mem_reverse.1 h) with hrange | hnone
  · exact Nat.le_of_lt_succ (List.mem_range.1 hrange)
  · simp at hnone

section

variable {σ : Type} [Source σ]

/-- A step settles where no key collides. -/
theorem step_of_colliding_eq_nil {s : σ} (h : colliding (hashBound keys max) keys a = []) :
    step keys max a s = (.settled, s) := by
  rw [step, stepM, Id.run_bind, run_collidingM, h]
  rfl

/-- A step gives an index of a colliding key one of the best weights, as they are chosen. -/
theorem step_of_choose {s s₁ s₂ s₃ : σ} {k : Key} {i : Index} {weight : Nat}
    (hkey : Source.choose (colliding (hashBound keys max) keys a) s = (some k, s₁))
    (hindex : Source.choose k.indices s₁ = (some i, s₂))
    (hweight : Source.choose (best (hashBound keys max) keys max a i) s₂ = (some weight, s₃)) :
    step keys max a s = (.moved (a.set i (UInt16.ofNat weight)), s₃) := by
  unfold step stepM
  simp only [Id.run_bind, run_collidingM, hkey, hindex, run_bestM, hweight, Checks.run_narrow,
    Id.run_pure]

/-- All that a step can come to: it settles when no key collides, it is stuck at a colliding key
that reads no index, or it moves by giving one of the best weights, if there is one, to an index of
a colliding key. -/
theorem step_cases (keys : List Key) (max : Nat) (a : Association) (s : σ) :
    ((step keys max a s).1 = .settled ∧ colliding (hashBound keys max) keys a = []) ∨
    ((step keys max a s).1 = .stuck ∧
      ∃ k ∈ colliding (hashBound keys max) keys a, k.indices = []) ∨
    ∃ k ∈ colliding (hashBound keys max) keys a, ∃ i ∈ k.indices,
      ((step keys max a s).1 = .moved a ∧ best (hashBound keys max) keys max a i = []) ∨
      ∃ weight ∈ best (hashBound keys max) keys max a i,
        (step keys max a s).1 = .moved (a.set i (UInt16.ofNat weight)) := by
  unfold step stepM
  simp only [Id.run_bind, run_collidingM]
  split
  · next s' hkey =>
    exact .inl ⟨rfl, Source.choose_eq_none_iff.1 (congrArg Prod.fst hkey)⟩
  · next k s' hkey =>
    have hk := Source.choose_mem (congrArg Prod.fst hkey)
    split
    · next s'' hindex =>
      exact .inr (.inl ⟨rfl, k, hk, Source.choose_eq_none_iff.1 (congrArg Prod.fst hindex)⟩)
    · next i s'' hindex =>
      have hi := Source.choose_mem (congrArg Prod.fst hindex)
      refine .inr (.inr ⟨k, hk, i, hi, ?_⟩)
      simp only [Id.run_bind, run_bestM]
      split
      · next hweight =>
        exact .inl ⟨rfl, Source.choose_eq_none_iff.1 (congrArg Prod.fst hweight)⟩
      · next weight _ hweight =>
        exact .inr ⟨weight, Source.choose_mem (congrArg Prod.fst hweight), rfl⟩

/-- A step settles only where no key collides. -/
theorem step_settled {s : σ} (h : (step keys max a s).1 = .settled) :
    colliding (hashBound keys max) keys a = [] := by
  rcases step_cases keys max a s with ⟨-, hnil⟩ | ⟨hstuck, -⟩ | ⟨k, -, i, -, hmoved⟩
  · exact hnil
  · exact absurd (h.symm.trans hstuck) (by simp)
  · rcases hmoved with ⟨hmoved, -⟩ | ⟨weight, -, hmoved⟩
    · exact absurd (h.symm.trans hmoved) (by simp)
    · exact absurd (h.symm.trans hmoved) (by simp)

/-- A step moves by giving one of the best weights, if there is one, to an index of a colliding
key. -/
theorem step_moved {s : σ} {a' : Association} (h : (step keys max a s).1 = .moved a') :
    ∃ k ∈ colliding (hashBound keys max) keys a, ∃ i ∈ k.indices,
      (a' = a ∧ best (hashBound keys max) keys max a i = []) ∨
      ∃ weight ∈ best (hashBound keys max) keys max a i,
        a' = a.set i (UInt16.ofNat weight) := by
  rcases step_cases keys max a s with ⟨hsettled, -⟩ | ⟨hstuck, -⟩ | ⟨k, hk, i, hi, hmoved⟩
  · exact absurd (h.symm.trans hsettled) (by simp)
  · exact absurd (h.symm.trans hstuck) (by simp)
  · refine ⟨k, hk, i, hi, ?_⟩
    rcases hmoved with ⟨hmoved, hnone⟩ | ⟨weight, hweight, hmoved⟩
    · exact .inl ⟨Step.moved.inj (h.symm.trans hmoved), hnone⟩
    · exact .inr ⟨weight, hweight, Step.moved.inj (h.symm.trans hmoved)⟩

/-- A step keeps all weights within the largest. -/
theorem step_atMost {s : σ} {a' : Association} (ha : a.AtMost max)
    (h : (step keys max a s).1 = .moved a') : a'.AtMost max := by
  obtain ⟨k, -, i, -, ⟨rfl, -⟩ | ⟨weight, hweight, rfl⟩⟩ := step_moved h
  · exact ha
  · exact ha.set (le_of_mem_best hweight) i

/-! ## The walk -/

section

variable {budget taken : Nat} {s s' : σ}

/-- A walk without steps reaches nothing. -/
theorem descend_zero : descend keys max 0 taken a s = (none, s) := rfl

/-- A walk ends where a step settles. -/
theorem descend_of_settled (h : step keys max a s = (.settled, s')) :
    descend keys max (budget + 1) taken a s = (some (taken, a), s') := by
  rw [descend, descendM, Id.run_bind, run_stepM, h]
  rfl

/-- A walk gives up where a step is stuck. -/
theorem descend_of_stuck (h : step keys max a s = (.stuck, s')) :
    descend keys max (budget + 1) taken a s = (none, s') := by
  rw [descend, descendM, Id.run_bind, run_stepM, h]
  rfl

/-- A walk goes on from where a step moves. -/
theorem descend_of_moved {a' : Association} (h : step keys max a s = (.moved a', s')) :
    descend keys max (budget + 1) taken a s = descend keys max budget (taken + 1) a' s' := by
  rw [descend, descendM, Id.run_bind, run_stepM, h]
  rfl

end

/-- A property that every move keeps holds where a walk settles, and the walk settles within its
budget. -/
theorem descend_invariant {P : Association → Prop}
    (hmove : ∀ (a : Association) (s : σ) (a' : Association), P a →
      (step keys max a s).1 = .moved a' → P a')
    {budget taken steps : Nat} {a' : Association} {s s' : σ} (ha : P a)
    (h : descend keys max budget taken a s = (some (steps, a'), s')) :
    P a' ∧ steps < taken + budget ∧ ∃ s'' : σ, (step keys max a' s'').1 = .settled := by
  induction budget generalizing taken a s with
  | zero => simp [descend_zero] at h
  | succ budget ih =>
    rcases hstep : step keys max a s with ⟨_ | _ | a₁, s₁⟩
    · rw [descend_of_settled hstep] at h
      obtain ⟨hsome, -⟩ := Prod.mk.inj h
      obtain ⟨rfl, rfl⟩ := Prod.mk.inj (Option.some.inj hsome)
      exact ⟨ha, by omega, s, congrArg Prod.fst hstep⟩
    · simp [descend_of_stuck hstep] at h
    · rw [descend_of_moved hstep] at h
      obtain ⟨hP, hlt, hsettled⟩ := ih (hmove a s a₁ ha (congrArg Prod.fst hstep)) h
      exact ⟨hP, by omega, hsettled⟩

/-- A walk that settles does so with all weights within the largest and all hashes different. -/
theorem descend_settled (hkeys : Short keys) {budget taken steps : Nat} {a' : Association}
    {s s' : σ} (ha : a.AtMost max)
    (h : descend keys max budget taken a s = (some (steps, a'), s')) :
    a'.AtMost max ∧ (keys.map (·.hash a')).Nodup := by
  obtain ⟨ha', -, s'', hsettled⟩ :=
    descend_invariant (P := fun a => a.AtMost max) (fun _ _ _ => step_atMost) ha h
  exact ⟨ha', (colliding_eq_nil_iff (hash_lt_bound hkeys ha')).1 (step_settled hsettled)⟩

/-- A property that every small weight at one of some indices keeps holds when weights have been
scattered there. -/
theorem scatter_invariant {P : Association → Prop} {indices : List Index}
    (hset : ∀ i ∈ indices, ∀ weight ≤ max, ∀ a, P a → P (a.set i (UInt16.ofNat weight)))
    (ha : P a) (s : σ) : P (scatter max indices a s).1 := by
  induction indices generalizing a s with
  | nil => exact ha
  | cons i rest ih =>
    obtain ⟨hhead, hrest⟩ := List.forall_mem_cons.1 hset
    have hweight : (Source.weight max s).1.val ≤ max :=
      Nat.le_of_lt_succ (Source.weight max s).1.isLt
    exact ih hrest (hhead _ hweight a ha) _

/-- The weights that an attempt starts from are within the largest. -/
theorem scatter_atMost (indices : List Index) (s : σ) (ha : a.AtMost max) :
    (scatter max indices a s).1.AtMost max :=
  scatter_invariant (P := fun a => a.AtMost max) (fun i _ _ hweight _ ha => ha.set hweight i) ha s

end

end KeywordHash.Search
