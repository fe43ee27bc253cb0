import Mathlib.Data.Finset.Card
import KeywordHash.Proofs.Replay

/-!
# Conflicts

A step of the search never recounts: it piles up the keys that stay once and adds the others to the
pile for each weight. What it comes to is nevertheless the full count. The clashes of a pile are the
hashes that it took less the different ones among them (`Pile.clashes_ofHashes`), so those of a
trial are the conflicts of all keys under the weight on trial (`trial_eq_conflicts`). The leaders
are the weights with the fewest (`Leads`), so a step picks among exactly the best (`mem_best_iff`).
The weight that an index has is among those on trial, so no move adds a conflict (`step_conflicts`),
nor does a walk (`course_antitone`). `descent_exact` puts this together.
-/

namespace KeywordHash

/-- The clashes of a pile and the different hashes in it are together as many as the hashes. -/
theorem Pile.clashes_ofHashes {bound : Nat} {hashes : List Nat}
    (h : ∀ hash ∈ hashes, hash < bound) :
    (ofHashes bound hashes).clashes + hashes.toFinset.card = hashes.length := by
  induction hashes using List.reverseRecOn with
  | nil => rfl
  | append_singleton front hash ih =>
    obtain ⟨hfront, -⟩ := List.forall_mem_append.1 h
    have hcount : (ofHashes bound front).tally.count hash = front.count hash := by
      rw [tally_ofHashes, Tally.count_ofHashes hfront]
    have hpile : ofHashes bound (front ++ [hash]) = (ofHashes bound front).add hash := by
      rw [ofHashes_eq_foldl, ofHashes_eq_foldl]
      exact List.foldl_concat _ _ _ _
    have hset : (front ++ [hash]).toFinset = insert hash front.toFinset := by
      ext j
      simp
    have hlength : (front ++ [hash]).length = front.length + 1 := by simp
    have hsum := ih hfront
    rw [hpile, hset, hlength, add, hcount]
    dsimp only
    by_cases hmem : hash ∈ front
    · have hne : front.count hash ≠ 0 := fun heq => List.count_eq_zero.1 heq hmem
      rw [if_neg hne, Finset.card_insert_of_mem (List.mem_toFinset.2 hmem)]
      omega
    · have hnew : hash ∉ front.toFinset := fun hin => hmem (List.mem_toFinset.1 hin)
      rw [if_pos (List.count_eq_zero.2 hmem), Finset.card_insert_of_notMem hnew]
      omega

namespace Search

/-- The conflicts of keys under an association: the keys less the different hashes that they
have. -/
def conflicts (keys : List Key) (a : Association) : Nat :=
  keys.length - (keys.map (·.hash a)).toFinset.card

/-- There are at most as many conflicts as keys. -/
theorem conflicts_le (keys : List Key) (a : Association) : conflicts keys a ≤ keys.length :=
  Nat.sub_le _ _

/-- There is no conflict exactly if all hashes differ. -/
theorem conflicts_eq_zero_iff {keys : List Key} {a : Association} :
    conflicts keys a = 0 ↔ (keys.map (·.hash a)).Nodup := by
  have hlength : (keys.map (·.hash a)).length = keys.length := List.length_map _
  unfold conflicts
  constructor
  · intro hzero
    rw [List.card_toFinset] at hzero
    have hle : (keys.map (·.hash a)).length ≤ (keys.map (·.hash a)).dedup.length := by omega
    exact List.dedup_eq_self.1 ((List.dedup_sublist _).eq_of_length_le hle)
  · intro hnodup
    rw [List.toFinset_card_of_nodup hnodup]
    omega

variable {keys : List Key} {max : Nat} {a : Association}

/-! ## One trial -/

/-- The keys that do not read an index keep their hashes under any weight of it. -/
theorem map_hash_stationary (keys : List Key) (a : Association) (i : Index) (weight : UInt16) :
    (keys.filter fun k => k.multiplicity i = 0).map (·.hash a)
      = (keys.filter fun k => k.multiplicity i = 0).map (·.hash (a.set i weight)) := by
  refine List.map_congr_left fun k hk => ?_
  have hzero : k.multiplicity i = 0 := of_decide_eq_true (List.mem_filter.1 hk).2
  rw [Key.hash_set, hzero]
  simp

/-- The movers come to lie where the keys that read the index have their hashes. -/
theorem map_landing_movers (keys : List Key) (a : Association) (i : Index) {weight : Nat}
    (h : weight < UInt16.size) :
    (movers keys a i).map (·.landing weight)
      = (keys.filter fun k => k.multiplicity i ≠ 0).map
          (·.hash (a.set i (UInt16.ofNat weight))) := by
  rw [movers_eq, List.map_map]
  exact List.map_congr_left fun k _ => landing_eq k a i h

/-- The keys that stay and those that move are all keys. -/
theorem map_hash_split (keys : List Key) (i : Index) (a : Association) :
    ((keys.filter fun k => k.multiplicity i = 0).map (·.hash a)
      ++ (keys.filter fun k => k.multiplicity i ≠ 0).map (·.hash a)).Perm
        (keys.map (·.hash a)) := by
  have hsplit := List.filter_append_perm (fun k : Key => decide (k.multiplicity i = 0)) keys
  rw [← List.map_append]
  simp only [decide_not]
  exact hsplit.map _

/-- A pile of the hashes of keys, in any order, has as many clashes as the keys have conflicts. -/
theorem clashes_ofHashes_eq_conflicts {hashes : List Nat} {bound : Nat}
    (hperm : hashes.Perm (keys.map (·.hash a))) (hbound : ∀ k ∈ keys, k.hash a < bound) :
    (Pile.ofHashes bound hashes).clashes = conflicts keys a := by
  have hkeys : ∀ hash ∈ keys.map (·.hash a), hash < bound := List.forall_mem_map.2 hbound
  have hhashes : ∀ hash ∈ hashes, hash < bound := fun hash hmem =>
    hkeys hash (hperm.mem_iff.1 hmem)
  have hsum := Pile.clashes_ofHashes hhashes
  rw [List.toFinset_eq_of_perm _ _ hperm, hperm.length_eq, List.length_map] at hsum
  unfold conflicts
  omega

/-- A trial counts the conflicts of all keys under its weight and gives the pile back as it was. -/
theorem trial_eq_conflicts (hkeys : Short keys) (hmax : max < UInt16.size) (ha : a.AtMost max)
    (i : Index) {weight : Nat} (hweight : weight ≤ max) :
    trial (movers keys a i) (stationary (hashBound keys max) keys a i) weight
      = (conflicts keys (a.set i (UInt16.ofNat weight)),
        stationary (hashBound keys max) keys a i) := by
  have hlanding := landing_lt hkeys ha hmax i hweight
  have hsame : (trial (movers keys a i) (stationary (hashBound keys max) keys a i) weight).2
      = stationary (hashBound keys max) keys a i :=
    trial_snd fun m hm => (hlanding m hm).trans_eq (Pile.size_ofHashes _ _).symm
  -- The movers are added to the pile of the others, so all keys are piled up in the end.
  have hpile : (trial (movers keys a i) (stationary (hashBound keys max) keys a i) weight).1
      = (Pile.ofHashes (hashBound keys max)
          ((keys.filter fun k => k.multiplicity i = 0).map
              (·.hash (a.set i (UInt16.ofNat weight)))
            ++ (keys.filter fun k => k.multiplicity i ≠ 0).map
              (·.hash (a.set i (UInt16.ofNat weight))))).clashes := by
    rw [trial_clashes, stationary_eq, Pile.ofHashes_eq_foldl, Pile.ofHashes_eq_foldl,
      map_landing_movers keys a i (by omega), ← List.foldl_append,
      map_hash_stationary keys a i (UInt16.ofNat weight)]
  have hconflicts := clashes_ofHashes_eq_conflicts
    (map_hash_split keys i (a.set i (UInt16.ofNat weight)))
    (hash_lt_bound hkeys (ha.set hweight i))
  exact Prod.ext (hpile.trans hconflicts) hsame

/-! ## The leaders -/

/-- The leaders are those of the weights tried that leave the fewest clashes, and there are some
once a weight was better than the start. -/
structure Leads (score : Nat → Nat) (start : Nat) (tried : List Nat) (l : Leaders) : Prop where
  /-- They are the weights tried with their clashes, in order. -/
  weights_eq : l.weights.reverse = tried.filter fun weight => score weight = l.clashes
  /-- No weight tried leaves fewer. -/
  least : ∀ weight ∈ tried, l.clashes ≤ score weight
  /-- There is one, unless none was better than the start. -/
  attained : l.clashes < start → l.weights ≠ []

/-- Before any weight was tried there are no leaders. -/
theorem leads_start (score : Nat → Nat) (start : Nat) : Leads score start [] ⟨start, []⟩ :=
  ⟨rfl, by simp, fun hlt => absurd hlt (Nat.lt_irrefl _)⟩

variable {score : Nat → Nat} {start : Nat} {tried : List Nat} {l : Leaders}

/-- The leaders stay so when one more weight is tried. -/
theorem Leads.consider (h : Leads score start tried l) (weight : Nat) :
    Leads score start (tried ++ [weight]) (l.consider weight (score weight)) := by
  obtain ⟨hweights, hleast, hattained⟩ := h
  have hleast' : ∀ clashes, (∀ weight' ∈ tried, clashes ≤ score weight') →
      clashes ≤ score weight → ∀ weight' ∈ tried ++ [weight], clashes ≤ score weight' :=
    fun clashes hbefore hlast =>
      List.forall_mem_append.2 ⟨hbefore, List.forall_mem_singleton.2 hlast⟩
  unfold Leaders.consider
  rcases Nat.lt_trichotomy (score weight) l.clashes with hlt | heq | hgt
  · -- None of those tried before leaves so few.
    have hfew : ∀ weight' ∈ tried, score weight < score weight' :=
      fun weight' hmem => hlt.trans_le (hleast weight' hmem)
    have hnone : tried.filter (fun weight' => score weight' = score weight) = [] := by
      rw [List.filter_eq_nil_iff]
      intro weight' hmem heq
      exact absurd (of_decide_eq_true heq) (hfew weight' hmem).ne'
    rw [if_pos hlt]
    refine ⟨?_, ?_, fun _ => List.cons_ne_nil _ _⟩
    · rw [List.filter_append, hnone]
      simp
    · exact hleast' _ (fun weight' hmem => (hfew weight' hmem).le) le_rfl
  · rw [if_neg (by omega), if_pos heq]
    refine ⟨?_, hleast' _ hleast heq.ge, fun _ => List.cons_ne_nil _ _⟩
    rw [List.filter_append, ← hweights, List.reverse_cons]
    simp [heq]
  · have hne : score weight ≠ l.clashes := hgt.ne'
    rw [if_neg (by omega), if_neg hne]
    refine ⟨?_, hleast' _ hleast hgt.le, hattained⟩
    rw [List.filter_append, ← hweights]
    simp [hne]

/-- The leaders stay so when weights are tried in turn. -/
theorem Leads.foldl (h : Leads score start tried l) (weights : List Nat) :
    Leads score start (tried ++ weights)
      (weights.foldl (fun l weight => l.consider weight (score weight)) l) := by
  induction weights generalizing tried l with
  | nil => rwa [List.append_nil]
  | cons weight rest ih =>
    have hlater := ih (h.consider weight)
    rwa [List.append_assoc] at hlater

/-! ## The best weights -/

/-- No weight up to `max` of an index leaves fewer conflicts. -/
def LeastAt (keys : List Key) (max : Nat) (a : Association) (i : Index) (weight : Nat) : Prop :=
  weight ≤ max ∧ ∀ other ≤ max,
    conflicts keys (a.set i (UInt16.ofNat weight)) ≤ conflicts keys (a.set i (UInt16.ofNat other))

instance (keys : List Key) (max : Nat) (a : Association) (i : Index) (weight : Nat) :
    Decidable (LeastAt keys max a i weight) :=
  inferInstanceAs (Decidable (_ ∧ _))

/-- The best weights lead among all those up to the largest. -/
theorem exists_leads (hkeys : Short keys) (hmax : max < UInt16.size) (ha : a.AtMost max)
    (i : Index) :
    ∃ l, Leads (fun weight => conflicts keys (a.set i (UInt16.ofNat weight))) (keys.length + 1)
        (List.range (max + 1)) l ∧
      best (hashBound keys max) keys max a i = l.weights.reverse := by
  have hlanding : ∀ weight ∈ List.range (max + 1), ∀ m ∈ movers keys a i,
      m.landing weight < (stationary (hashBound keys max) keys a i).tally.counts.size := by
    intro weight hmem m hm
    have hle := Nat.le_of_lt_succ (List.mem_range.1 hmem)
    exact (landing_lt hkeys ha hmax i hle m hm).trans_eq (Pile.size_ofHashes _ _).symm
  have hscores : scores (movers keys a i) (List.range (max + 1))
        (stationary (hashBound keys max) keys a i) ⟨keys.length + 1, []⟩
      = (List.range (max + 1)).foldl (fun l weight =>
          l.consider weight (conflicts keys (a.set i (UInt16.ofNat weight))))
        ⟨keys.length + 1, []⟩ := by
    rw [scores_eq_foldl hlanding]
    refine List.foldl_ext _ _ _ fun l weight hmem => ?_
    rw [trial_eq_conflicts hkeys hmax ha i (Nat.le_of_lt_succ (List.mem_range.1 hmem))]
  have hleads := (leads_start (fun weight => conflicts keys (a.set i (UInt16.ofNat weight)))
    (keys.length + 1)).foldl (List.range (max + 1))
  refine ⟨_, hleads, ?_⟩
  rw [best_eq, hscores]

/-- The best weights are exactly those that leave the fewest conflicts. -/
theorem mem_best_iff (hkeys : Short keys) (hmax : max < UInt16.size) (ha : a.AtMost max)
    (i : Index) {weight : Nat} :
    weight ∈ best (hashBound keys max) keys max a i ↔ LeastAt keys max a i weight := by
  obtain ⟨l, hleads, hbest⟩ := exists_leads hkeys hmax ha i
  have hmem : ∀ w, w ∈ best (hashBound keys max) keys max a i
      ↔ w ≤ max ∧ conflicts keys (a.set i (UInt16.ofNat w)) = l.clashes := by
    intro w
    rw [hbest, hleads.weights_eq, List.mem_filter, List.mem_range, decide_eq_true_iff,
      Nat.lt_succ_iff]
  have hleast : ∀ other ≤ max, l.clashes ≤ conflicts keys (a.set i (UInt16.ofNat other)) :=
    fun other hle => hleads.least other (List.mem_range.2 (Nat.lt_succ_of_le hle))
  rw [hmem]
  constructor
  · rintro ⟨hle, heq⟩
    exact ⟨hle, fun other hother => heq.trans_le (hleast other hother)⟩
  · rintro ⟨hle, hmin⟩
    -- The leaders are better than the start, so there is one to compare with.
    have hzero := hleast 0 (Nat.zero_le max)
    have hfew := conflicts_le keys (a.set i (UInt16.ofNat 0))
    obtain ⟨leader, hleader⟩ := List.exists_mem_of_ne_nil _ (hleads.attained (by omega))
    rw [← List.mem_reverse, ← hbest, hmem] at hleader
    have hcompare := hmin leader hleader.1
    have hlower := hleast weight hle
    exact ⟨hle, by omega⟩

/-- The best weights are listed once each, in increasing order. -/
theorem best_pairwise (hkeys : Short keys) (hmax : max < UInt16.size) (ha : a.AtMost max)
    (i : Index) : (best (hashBound keys max) keys max a i).Pairwise (· < ·) := by
  obtain ⟨l, hleads, hbest⟩ := exists_leads hkeys hmax ha i
  rw [hbest, hleads.weights_eq]
  exact List.pairwise_lt_range.filter _

/-! ## The walk -/

/-- An index that gets the weight that it has keeps all conflicts. -/
theorem conflicts_set_self (keys : List Key) (a : Association) (i : Index) :
    conflicts keys (a.set i (UInt16.ofNat (a.weight i))) = conflicts keys a := by
  have hsame : keys.map (·.hash (a.set i (UInt16.ofNat (a.weight i)))) = keys.map (·.hash a) := by
    refine List.map_congr_left fun k _ => Key.hash_congr fun j _ => ?_
    rw [Association.weight_set]
    split_ifs with hj
    · rw [← hj, Association.weight, UInt16.ofNat_toNat]
    · rfl
  unfold conflicts
  rw [hsame]

variable {σ : Type} [Source σ]

/-- A move adds no conflict. -/
theorem step_conflicts (hkeys : Short keys) (hmax : max < UInt16.size) (ha : a.AtMost max) {s : σ}
    {a' : Association} (h : (step keys max a s).1 = .moved a') :
    conflicts keys a' ≤ conflicts keys a := by
  obtain ⟨k, -, i, -, ⟨rfl, -⟩ | ⟨weight, hweight, rfl⟩⟩ := step_moved h
  · exact le_rfl
  · -- The weight that the index has is one of those on trial.
    obtain ⟨-, hmin⟩ := (mem_best_iff hkeys hmax ha i).1 hweight
    calc conflicts keys (a.set i (UInt16.ofNat weight))
        ≤ conflicts keys (a.set i (UInt16.ofNat (a.weight i))) := hmin _ (ha i)
      _ = conflicts keys a := conflicts_set_self keys a i

/-- The associations that a walk comes past, the one that it starts from in front. -/
def course (keys : List Key) (max : Nat) : (budget : Nat) → Association → σ → List Association
  | 0, a, _ => [a]
  | budget + 1, a, s =>
    match step keys max a s with
    | (.moved a', s') => a :: course keys max budget a' s'
    | _ => [a]

/-- The start of a walk is the first association that it comes past. -/
theorem course_eq_cons (keys : List Key) (max budget : Nat) (a : Association) (s : σ) :
    ∃ later, course keys max budget a s = a :: later := by
  rcases budget with _ | budget
  · exact ⟨[], rfl⟩
  · unfold course
    split
    · exact ⟨_, rfl⟩
    · exact ⟨[], rfl⟩

/-- A property that every move keeps holds of all associations that a walk comes past. -/
theorem course_invariant {P : Association → Prop}
    (hstep : ∀ (a : Association) (s : σ) (a' : Association), P a →
      (step keys max a s).1 = .moved a' → P a')
    (ha : P a) (budget : Nat) (s : σ) : ∀ b ∈ course keys max budget a s, P b := by
  induction budget generalizing a s with
  | zero => simpa [course] using ha
  | succ budget ih =>
    unfold course
    split
    · next a' s' hmoved =>
      have ha' : P a' := hstep a s a' ha (congrArg Prod.fst hmoved)
      exact List.forall_mem_cons.2 ⟨ha, ih ha' s'⟩
    · simpa using ha

/-- A walk never gets worse: of the associations that it comes past none has more conflicts than one
before it, and all weights keep within the largest. -/
theorem course_antitone (hkeys : Short keys) (hmax : max < UInt16.size) (ha : a.AtMost max)
    (budget : Nat) (s : σ) :
    (∀ b ∈ course keys max budget a s, b.AtMost max) ∧
      (course keys max budget a s).Pairwise fun b c => conflicts keys c ≤ conflicts keys b := by
  refine ⟨course_invariant (P := fun a => a.AtMost max) (fun _ _ _ => step_atMost) ha budget s, ?_⟩
  induction budget generalizing a s with
  | zero => simp [course]
  | succ budget ih =>
    unfold course
    split
    · next a' s' hmoved =>
      have hstep := congrArg Prod.fst hmoved
      have hfewer := step_conflicts hkeys hmax ha hstep
      have hpairwise := ih (step_atMost ha hstep) s'
      -- Nothing later has more conflicts than the association that the move leads to.
      obtain ⟨later, hcourse⟩ := course_eq_cons keys max budget a' s'
      rw [hcourse] at hpairwise ⊢
      refine List.pairwise_cons.2 ⟨fun b hb => ?_, hpairwise⟩
      rcases List.mem_cons.1 hb with rfl | hlater
      · exact hfewer
      · exact ((List.pairwise_cons.1 hpairwise).1 b hlater).trans hfewer
    · simp

/-- A walk that settles does so at the association that it comes past after its steps. -/
theorem course_getElem?_of_descend {budget taken steps : Nat} {a' : Association} {s s' : σ}
    (h : descend keys max budget taken a s = (some (steps, a'), s')) :
    ∃ more, steps = taken + more ∧ (course keys max budget a s)[more]? = some a' := by
  induction budget generalizing taken a s with
  | zero => simp [descend_zero] at h
  | succ budget ih =>
    rcases hstep : step keys max a s with ⟨_ | _ | a₁, s₁⟩
    · rw [descend_of_settled hstep] at h
      obtain ⟨hsome, -⟩ := Prod.mk.inj h
      obtain ⟨rfl, rfl⟩ := Prod.mk.inj (Option.some.inj hsome)
      obtain ⟨later, hcourse⟩ := course_eq_cons keys max (budget + 1) a s
      exact ⟨0, rfl, by rw [hcourse]; rfl⟩
    · simp [descend_of_stuck hstep] at h
    · rw [descend_of_moved hstep] at h
      obtain ⟨more, hsteps, hget⟩ := ih h
      refine ⟨more + 1, by omega, ?_⟩
      rw [course, hstep]
      exact hget

/-- Each step of a walk is optimal and the walk never gets worse. For every index, a trial of a
weight counts the conflicts that all keys have under it and gives the pile back, and the best
weights are exactly those with the fewest conflicts. So from each association that a walk comes past
to the next there are never more conflicts, and where the walk settles, within its budget, there are
none. -/
theorem descent_exact (hkeys : Short keys) (hmax : max < UInt16.size) (ha : a.AtMost max) :
    (∀ i : Index,
      (∀ weight ≤ max,
        trial (movers keys a i) (stationary (hashBound keys max) keys a i) weight
          = (conflicts keys (a.set i (UInt16.ofNat weight)),
            stationary (hashBound keys max) keys a i)) ∧
      (∀ weight, weight ∈ best (hashBound keys max) keys max a i ↔ LeastAt keys max a i weight) ∧
      (best (hashBound keys max) keys max a i).Pairwise (· < ·)) ∧
    ∀ (budget : Nat) (s : σ),
      (∀ b ∈ course keys max budget a s, b.AtMost max) ∧
      (course keys max budget a s).Pairwise (fun b c => conflicts keys c ≤ conflicts keys b) ∧
      ∀ steps a' s', descend keys max budget 0 a s = (some (steps, a'), s') →
        steps < budget ∧ (course keys max budget a s)[steps]? = some a' ∧
          (keys.map (·.hash a')).Nodup ∧ conflicts keys a' = 0 := by
  refine ⟨fun i => ⟨?_, ?_, best_pairwise hkeys hmax ha i⟩, fun budget s => ?_⟩
  · exact fun weight hweight => trial_eq_conflicts hkeys hmax ha i hweight
  · exact fun weight => mem_best_iff hkeys hmax ha i
  · obtain ⟨hatMost, hpairwise⟩ := course_antitone hkeys hmax ha budget s
    refine ⟨hatMost, hpairwise, fun steps a' s' h => ?_⟩
    obtain ⟨-, hlt, -⟩ := descend_invariant (fun _ _ _ => step_atMost) ha h
    obtain ⟨-, hdistinct⟩ := descend_settled hkeys ha h
    obtain ⟨more, hsteps, hget⟩ := course_getElem?_of_descend h
    rw [Nat.zero_add] at hlt hsteps
    subst hsteps
    exact ⟨hlt, hget, hdistinct, conflicts_eq_zero_iff.2 hdistinct⟩

/-- Two words of two letters with the first in common: one reads its index twice, the other once. -/
def twoKeys : List Key := [Key.ofWord (Word.ofText "aa"), Key.ofWord (Word.ofText "ab")]

/-- Without weights the two words collide. Any weight but zero of the common letter tells them
apart, and a walk from there settles. -/
theorem descent_twoKeys :
    conflicts twoKeys (.filled 0) = 1 ∧
      0 ∉ best (hashBound twoKeys 3) twoKeys 3 (.filled 0) (.ofByte 97) ∧
      2 ∈ best (hashBound twoKeys 3) twoKeys 3 (.filled 0) (.ofByte 97) ∧
      ∃ steps a' s', descend twoKeys 3 10 0 (.filled 0) (Keystream.ofSeed 0)
          = (some (steps, a'), s') ∧ steps < 10 ∧ conflicts twoKeys a' = 0 := by
  have hkeys : Short twoKeys := by
    unfold Short
    decide
  have hmax : 3 < UInt16.size := by decide
  have hzero := Association.atMost_zero 3
  obtain ⟨hsteps, hwalks⟩ := @descent_exact twoKeys 3 (.filled 0) Keystream _ hkeys hmax hzero
  obtain ⟨-, hbest, -⟩ := hsteps (.ofByte 97)
  have hplay : (Replay.walk? twoKeys 3 10 []
      (Replay.words (Keystream.keyOfSeed 0) 1 0)).isSome = true := by decide +kernel
  obtain ⟨settings, hsettings⟩ := Option.isSome_iff_exists.1 hplay
  have hstart : (Replay.Settings.association []).AtMost 3 := hzero
  obtain ⟨steps, s', hwalk⟩ := Replay.descend_of_walk? hkeys hmax 0 hstart
    (Replay.follows_ofSeed 0 (by decide)) hsettings
  obtain ⟨-, -, hsettled⟩ := hwalks 10 (Keystream.ofSeed 0)
  obtain ⟨hlt, -, -, hnone⟩ := hsettled steps settings.association s' hwalk
  refine ⟨by decide +kernel, ?_, ?_, steps, settings.association, s', hwalk, hlt, hnone⟩
  · rw [hbest]
    decide +kernel
  · rw [hbest]
    decide +kernel

end Search

end KeywordHash
