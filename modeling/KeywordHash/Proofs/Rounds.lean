import KeywordHash.Proofs.Walk

/-!
# What a search wins with

An attempt wins with weights that are small, hash all keys differently and keep within the allowed
span (`Winning`). The rounds hand on what some attempt won, finished for the table, or report that
they are exhausted (`run_cases`).
-/

namespace KeywordHash.Search

/-- The limit of the weights has 16 bits. -/
theorem weightLimit_lt (longest : Nat) : weightLimit longest < UInt16.size := by
  have hsize : UInt16.size = 65536 := rfl
  unfold weightLimit keyPositions
  omega

/-- What an attempt with weights up to `max` wins with. -/
structure Winning (config : SearchConfig) (keys : List Key) (max : Nat) (a : Association) :
    Prop where
  /-- No weight is past the largest. -/
  atMost : a.AtMost max
  /-- All hashes differ. -/
  distinct : (keys.map (·.hash a)).Nodup
  /-- The table has no more slots than allowed. -/
  span : ∀ span ∈ config.maxSpan, Key.maxHash keys a < span

/-- Weights that win under a bound win under a larger one. -/
theorem Winning.mono {config : SearchConfig} {keys : List Key} {max max' : Nat} {a : Association}
    (h : Winning config keys max a) (hle : max ≤ max') : Winning config keys max' a :=
  ⟨fun i => (h.atMost i).trans hle, h.distinct, h.span⟩

variable {σ : Type} [Source σ] {config : SearchConfig} {keys : List Key} {max : Nat}

/-! ## Attempts -/

section

variable {s s' : σ}

/-- An attempt stalls where its walk does not settle. -/
theorem attempt_of_none
    (h : descend keys max config.iterations 0 (scatter max (Key.used keys) (.filled 0) s).1
      (scatter max (Key.used keys) (.filled 0) s).2 = (none, s')) :
    attempt config keys max s = (.stalled, s') := by
  rw [attempt, attemptM]
  simp only [Id.run_bind, run_scatterM, run_descendM, h, Id.run_pure]

/-- Where its walk settles, the largest hash decides what an attempt comes to. -/
theorem attempt_of_some {steps : Nat} {a : Association}
    (h : descend keys max config.iterations 0 (scatter max (Key.used keys) (.filled 0) s).1
      (scatter max (Key.used keys) (.filled 0) s).2 = (some (steps, a), s')) :
    attempt config keys max s
      = (if config.maxSpan.any (· ≤ Key.maxHash keys a) then .tooWide (Key.maxHash keys a + 1)
        else .found steps (Key.maxHash keys a) a, s') := by
  rw [attempt, attemptM]
  simp only [Id.run_bind, run_scatterM, run_descendM, h]
  split_ifs
  · rfl
  · rfl

end

/-- An attempt that finds a table finds winning weights and their largest hash. -/
theorem attempt_found (hkeys : Short keys) {s s' : σ} {steps maxHash : Nat} {a : Association}
    (h : attempt config keys max s = (.found steps maxHash a, s')) :
    Winning config keys max a ∧ maxHash = Key.maxHash keys a := by
  have hstart := scatter_atMost (Key.used keys) s (Association.atMost_zero max)
  rcases hdescend : descend keys max config.iterations 0
      (scatter max (Key.used keys) (.filled 0) s).1
      (scatter max (Key.used keys) (.filled 0) s).2 with ⟨_ | ⟨steps', a'⟩, s''⟩
  · rw [attempt_of_none hdescend] at h
    exact absurd (Prod.mk.inj h).1 (by simp)
  · rw [attempt_of_some hdescend] at h
    obtain ⟨hend, -⟩ := Prod.mk.inj h
    split_ifs at hend with hspan
    · obtain ⟨rfl, rfl, rfl⟩ := Outcome.found.inj hend
      obtain ⟨hatMost, hdistinct⟩ := descend_settled hkeys hstart hdescend
      refine ⟨⟨hatMost, hdistinct, fun span hmem => ?_⟩, rfl⟩
      have hnot : ¬ span ≤ Key.maxHash keys a' := by
        intro hle
        apply hspan
        rw [Option.mem_def.1 hmem]
        exact decide_eq_true hle
      exact Nat.lt_of_not_le hnot

/-! ## Rounds -/

section

variable {round remaining restart : Nat} {s s' : σ}

/-- A round ends with the attempt that finds a table. -/
theorem attempts_of_found {steps maxHash : Nat} {a : Association}
    (h : attempt config keys max s = (.found steps maxHash a, s')) :
    attempts config keys max round (remaining + 1) restart s
      = (some (finish maxHash (Key.used keys) a), [.found round restart steps max], s') := by
  rw [attempts, attemptsM, Id.run_bind, run_attemptM, h]
  rfl

/-- A round goes on behind an attempt whose table is too wide. -/
theorem attempts_of_tooWide {slots : Nat}
    (h : attempt config keys max s = (.tooWide slots, s')) :
    attempts config keys max round (remaining + 1) restart s
      = ((attempts config keys max round remaining (restart + 1) s').1,
        .tooWide round restart slots ::
          (attempts config keys max round remaining (restart + 1) s').2.1,
        (attempts config keys max round remaining (restart + 1) s').2.2) := by
  rw [attempts, attemptsM, Id.run_bind, run_attemptM, h]
  rfl

/-- A round goes on behind an attempt that stalls. -/
theorem attempts_of_stalled (h : attempt config keys max s = (.stalled, s')) :
    attempts config keys max round (remaining + 1) restart s
      = ((attempts config keys max round remaining (restart + 1) s').1,
        .stalled round restart ::
          (attempts config keys max round remaining (restart + 1) s').2.1,
        (attempts config keys max round remaining (restart + 1) s').2.2) := by
  rw [attempts, attemptsM, Id.run_bind, run_attemptM, h]
  rfl

variable {limit made : Nat} {events : List Event}

/-- A search without rounds is exhausted. -/
theorem rounds_zero (s : σ) :
    rounds config keys limit 0 round max made s = (.error (.exhausted max made), []) := rfl

/-- The rounds end with the one that finds an association. -/
theorem rounds_of_some {a : Association}
    (h : attempts config keys max round config.restarts 0 s = (some a, events, s')) :
    rounds config keys limit (remaining + 1) round max made s = (.ok a, events) := by
  rw [rounds, roundsM, Id.run_bind, run_attemptsM, h]
  rfl

/-- When the last round fails the search is exhausted. -/
theorem rounds_of_none_last
    (h : attempts config keys max round config.restarts 0 s = (none, events, s')) :
    rounds config keys limit 1 round max made s
      = (.error (.exhausted max (made + config.restarts)), events) := by
  rw [rounds, roundsM, Id.run_bind, run_attemptsM, h]
  rfl

/-- When a round before the last fails the next doubles the largest weight. -/
theorem rounds_of_none (hremaining : remaining ≠ 0)
    (h : attempts config keys max round config.restarts 0 s = (none, events, s')) :
    rounds config keys limit (remaining + 1) round max made s
      = ((rounds config keys limit remaining (round + 1) (min (2 * max) limit)
            (made + config.restarts) s').1,
        events ++ (rounds config keys limit remaining (round + 1) (min (2 * max) limit)
            (made + config.restarts) s').2) := by
  rw [rounds, roundsM, Id.run_bind, run_attemptsM, h]
  dsimp only
  rw [if_neg hremaining]
  rfl

/-- A search makes its rounds, and reports if it was asked for weights past the limit. -/
theorem run_eq (config : SearchConfig) (keys : List Key) (s : σ) :
    run config keys s
      = ((rounds config keys (weightLimit (Key.longest keys)) config.rounds 0
            (min (Max.max config.maxWeight.toNat 1) (weightLimit (Key.longest keys))) 0 s).1,
        if weightLimit (Key.longest keys) < config.maxWeight.toNat then
          .capped config.maxWeight.toNat (weightLimit (Key.longest keys)) ::
            (rounds config keys (weightLimit (Key.longest keys)) config.rounds 0
              (min (Max.max config.maxWeight.toNat 1) (weightLimit (Key.longest keys))) 0 s).2
        else (rounds config keys (weightLimit (Key.longest keys)) config.rounds 0
          (min (Max.max config.maxWeight.toNat 1) (weightLimit (Key.longest keys))) 0 s).2) := rfl

end

/-- A round that finds an association finds the finished form of winning weights. -/
theorem attempts_some (hkeys : Short keys) {round remaining restart : Nat} {s : σ}
    {result : Association}
    (h : (attempts config keys max round remaining restart s).1 = some result) :
    ∃ a, Winning config keys max a ∧
      result = finish (Key.maxHash keys a) (Key.used keys) a := by
  induction remaining generalizing restart s with
  | zero => contradiction
  | succ remaining ih =>
    rcases hattempt : attempt config keys max s with ⟨_ | slots | ⟨steps, maxHash, a⟩, s'⟩
    · rw [attempts_of_stalled hattempt] at h
      exact ih h
    · rw [attempts_of_tooWide hattempt] at h
      exact ih h
    · rw [attempts_of_found hattempt] at h
      obtain ⟨hwin, rfl⟩ := attempt_found hkeys hattempt
      exact ⟨a, hwin, (Option.some.inj h).symm⟩

/-- Rounds whose weights keep within the limit end with the finished form of weights that win under
the limit, or exhausted. -/
theorem rounds_cases (hkeys : Short keys) {limit : Nat} (hmax : max ≤ limit)
    (remaining round made : Nat) (s : σ) :
    (∃ a, Winning config keys limit a ∧ (rounds config keys limit remaining round max made s).1
        = .ok (finish (Key.maxHash keys a) (Key.used keys) a)) ∨
      ∃ last count, (rounds config keys limit remaining round max made s).1
        = .error (.exhausted last count) := by
  induction remaining generalizing round max made s with
  | zero => exact .inr ⟨max, made, congrArg Prod.fst (rounds_zero s)⟩
  | succ remaining ih =>
    rcases hattempts : attempts config keys max round config.restarts 0 s
      with ⟨_ | result, events, s'⟩
    · by_cases hlast : remaining = 0
      · subst hlast
        exact .inr ⟨max, made + config.restarts, by rw [rounds_of_none_last hattempts]⟩
      · rw [rounds_of_none hlast hattempts]
        exact ih (Nat.min_le_right _ _) (round + 1) (made + config.restarts) s'
    · obtain ⟨a, hwin, rfl⟩ := attempts_some hkeys (congrArg Prod.fst hattempts)
      exact .inl ⟨a, hwin.mono hmax, by rw [rounds_of_some hattempts]⟩

/-- A search ends with the finished form of weights that win under the limit, or exhausted. -/
theorem run_cases (hkeys : Short keys) (s : σ) :
    (∃ a, Winning config keys (weightLimit (Key.longest keys)) a ∧ (run config keys s).1
        = .ok (finish (Key.maxHash keys a) (Key.used keys) a)) ∨
      ∃ last count, (run config keys s).1 = .error (.exhausted last count) := by
  rw [run_eq]
  exact rounds_cases hkeys (Nat.min_le_right _ _) config.rounds 0 0 s

/-- What a search finds is the finished form of weights that win under the limit. -/
theorem exists_winning_of_run (hkeys : Short keys) {s : σ} {result : Association}
    (h : (run config keys s).1 = .ok result) :
    ∃ a, Winning config keys (weightLimit (Key.longest keys)) a ∧
      result = finish (Key.maxHash keys a) (Key.used keys) a := by
  have hcases : _ ∨ ∃ last count, (run config keys s).1 = .error (.exhausted last count) :=
    run_cases hkeys s
  rcases hcases with ⟨a, hwin, hok⟩ | ⟨_, _, herror⟩
  · exact ⟨a, hwin, Except.ok.inj (h.symm.trans hok)⟩
  · exact absurd (h.symm.trans herror) (by simp)

end KeywordHash.Search
