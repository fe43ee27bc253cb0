import KeywordHash.Proofs.Attempts
import KeywordHash.Proofs.Generation

/-!
# The attempts of a search

A search runs through its rounds and, in each, through its attempts, with a largest weight that it
doubles on the way. Counted through all rounds, these are attempts one after the other: number `n`
is number `n % restarts` of round `n / restarts`, and the largest weight of a round has a closed
form (`roundLimit`). `attempts_eq_tries` says so of one round and `rounds_eq_tries` of all that are
left, each by induction on how many there are left; `run_eq_tries` is the whole search. The sequence
is then looked at by its numbers: which attempt a number is, from which draws it starts
(`tries_getElem?`, `draws_of_tries_succ`), and that all but the last fail (`tries_cases`).
-/

namespace KeywordHash

namespace Search

/-! ## The largest weight of a round -/

/-- The largest weight of a round, for words of up to `longest` bytes: the one that is asked for,
but at least one, doubled for each round before and kept within the limit. -/
def roundLimit (config : SearchConfig) (longest round : Nat) : Nat :=
  min ((65534 - longest) / 4) (max 1 config.maxWeight.toNat * 2 ^ round)

variable {config : SearchConfig} {keys : List Key} {longest round : Nat}

/-- The first round starts from the weight that is asked for. -/
theorem roundLimit_zero :
    min (max config.maxWeight.toNat 1) (weightLimit longest) = roundLimit config longest 0 := by
  show _ = min (weightLimit longest) (max 1 config.maxWeight.toNat * 2 ^ 0)
  omega

/-- From round to round the largest weight doubles. -/
theorem roundLimit_succ :
    min (2 * roundLimit config longest round) (weightLimit longest)
      = roundLimit config longest (round + 1) := by
  have hdouble : max 1 config.maxWeight.toNat * 2 ^ (round + 1)
      = 2 * (max 1 config.maxWeight.toNat * 2 ^ round) := by
    rw [Nat.pow_succ, ← Nat.mul_assoc, Nat.mul_comm]
  show min (2 * min (weightLimit longest) (max 1 config.maxWeight.toNat * 2 ^ round))
      (weightLimit longest)
    = min (weightLimit longest) (max 1 config.maxWeight.toNat * 2 ^ (round + 1))
  rw [hdouble]
  omega

/-- The largest weight of a round has 16 bits. -/
theorem roundLimit_lt (config : SearchConfig) (longest round : Nat) :
    roundLimit config longest round < UInt16.size :=
  (Nat.min_le_left _ _).trans_lt (weightLimit_lt longest)

/-! ## Attempts one after the other -/

/-- An attempt of a search: its number in its round, and the draws that it starts from. -/
structure Try (σ : Type) where
  /-- The round. -/
  round : Nat
  /-- The number in the round. -/
  restart : Nat
  /-- The draws. -/
  draws : σ

namespace Try

variable {σ : Type} [Source σ] (config : SearchConfig) (keys : List Key) (t : Try σ)

/-- The largest weight of the attempt. -/
def limit : Nat := roundLimit config (Key.longest keys) t.round

/-- How the attempt ends, with the draws that it leaves. -/
def played : Outcome × σ := attempt config keys (t.limit config keys) t.draws

/-- Whether the attempt finds no table. -/
def failed : Bool :=
  match (t.played config keys).1 with
  | .found _ _ _ => false
  | _ => true

/-- What the attempt finds. -/
def won? : Option Association :=
  match (t.played config keys).1 with
  | .found _ maxHash a => some (finish maxHash (Key.used keys) a)
  | _ => none

/-- What the attempt reports. -/
def event : Event :=
  match (t.played config keys).1 with
  | .stalled => .stalled t.round t.restart
  | .tooWide slots => .tooWide t.round t.restart slots
  | .found steps _ _ => .found t.round t.restart steps (t.limit config keys)

end Try

variable {σ : Type} [Source σ]

/-- An attempt fails, finds nothing and leaves a record of level `trace`, or it finds a table and
says so. -/
theorem Try.cases (config : SearchConfig) (keys : List Key) (t : Try σ) :
    (t.failed config keys = true ∧ t.won? config keys = none ∧
      (t.event config keys).record.level = .trace) ∨
    ∃ steps maxHash a, (t.played config keys).1 = .found steps maxHash a ∧
      t.failed config keys = false ∧
      t.won? config keys = some (finish maxHash (Key.used keys) a) ∧
      t.event config keys = .found t.round t.restart steps (t.limit config keys) := by
  unfold Try.failed Try.won? Try.event
  rcases (t.played config keys).1 with _ | slots | ⟨steps, maxHash, a⟩
  · exact .inl ⟨rfl, rfl, rfl⟩
  · exact .inl ⟨rfl, rfl, rfl⟩
  · exact .inr ⟨steps, maxHash, a, rfl, rfl, rfl, rfl⟩

/-- The attempts from number `n` on, counted through all rounds, one after the other until one finds
a table, `remaining` of them at most. -/
def tries (config : SearchConfig) (keys : List Key) : (remaining n : Nat) → σ → List (Try σ)
  | 0, _, _ => []
  | remaining + 1, n, s =>
    let t : Try σ := ⟨n / config.restarts, n % config.restarts, s⟩
    t :: if t.failed config keys then tries config keys remaining (n + 1) (t.played config keys).2
      else []

/-- The draws that attempts leave. -/
def left (config : SearchConfig) (keys : List Key) (s : σ) (made : List (Try σ)) : σ :=
  made.foldl (fun _ t => (t.played config keys).2) s

/-- An attempt finds nothing exactly if it fails. -/
theorem Try.won?_eq_none_iff {t : Try σ} :
    t.won? config keys = none ↔ t.failed config keys = true := by
  rcases t.cases config keys with ⟨hfailed, hnone, -⟩ | ⟨_, _, _, -, hfound, hsome, -⟩
  · simp [hfailed, hnone]
  · simp [hfound, hsome]

/-- Attempts find nothing exactly if all of them fail. -/
theorem findSome?_won?_eq_none_iff {made : List (Try σ)} :
    made.findSome? (·.won? config keys) = none ↔ made.all (·.failed config keys) = true := by
  rw [List.findSome?_eq_none_iff, List.all_eq_true]
  exact forall₂_congr fun t _ => Try.won?_eq_none_iff

/-- More attempts go on where the first ones have left off, if all of these have failed. -/
theorem tries_add (first more n : Nat) (s : σ) :
    tries config keys (first + more) n s = tries config keys first n s ++
      if (tries config keys first n s).all (·.failed config keys) then
        tries config keys more (n + first) (left config keys s (tries config keys first n s))
      else [] := by
  induction first generalizing n s with
  | zero => simp [tries, left]
  | succ first ih =>
    rw [Nat.succ_add]
    simp only [tries]
    by_cases hfailed : (⟨n / config.restarts, n % config.restarts, s⟩ : Try σ).failed config keys
    · simp only [hfailed, if_true]
      rw [ih, Nat.add_assoc, Nat.add_comm 1 first]
      simp [hfailed, left]
    · simp [hfailed]

/-- A round goes on behind an attempt that fails and ends with one that does not. -/
theorem attempts_succ (round remaining restart : Nat) (s : σ) {t : Try σ}
    (ht : t = ⟨round, restart, s⟩) :
    attempts config keys (roundLimit config (Key.longest keys) round) round (remaining + 1)
        restart s
      = if t.failed config keys then
          ((attempts config keys (roundLimit config (Key.longest keys) round) round remaining
              (restart + 1) (t.played config keys).2).1,
            t.event config keys ::
              (attempts config keys (roundLimit config (Key.longest keys) round) round remaining
                (restart + 1) (t.played config keys).2).2.1,
            (attempts config keys (roundLimit config (Key.longest keys) round) round remaining
              (restart + 1) (t.played config keys).2).2.2)
        else (t.won? config keys, [t.event config keys], (t.played config keys).2) := by
  have hplayed : t.played config keys
      = attempt config keys (roundLimit config (Key.longest keys) round) s := by
    rw [ht]
    rfl
  have hlimit : t.limit config keys = roundLimit config (Key.longest keys) round := by
    rw [ht]
    rfl
  unfold Try.failed Try.won? Try.event
  rw [hplayed, hlimit]
  rcases hattempt : attempt config keys (roundLimit config (Key.longest keys) round) s with
    ⟨_ | slots | ⟨steps, maxHash, a⟩, s'⟩
  · rw [attempts_of_stalled hattempt, ht]
    rfl
  · rw [attempts_of_tooWide hattempt, ht]
    rfl
  · rw [attempts_of_found hattempt, ht]
    rfl

/-- The attempts of a round are attempts one after the other. -/
theorem attempts_eq_tries (config : SearchConfig) (keys : List Key)
    (round remaining restart : Nat) (s : σ)
    (hrestart : restart + remaining = config.restarts) :
    attempts config keys (roundLimit config (Key.longest keys) round) round remaining restart s
      = ((tries config keys remaining (round * config.restarts + restart) s).findSome?
          (·.won? config keys),
        (tries config keys remaining (round * config.restarts + restart) s).map
          (·.event config keys),
        left config keys s
          (tries config keys remaining (round * config.restarts + restart) s)) := by
  induction remaining generalizing restart s with
  | zero => rfl
  | succ remaining ih =>
    -- The round is not over, so the number in the sequence gives back both numbers.
    have hlt : restart < config.restarts := by omega
    have hround : (round * config.restarts + restart) / config.restarts = round := by
      rw [Nat.mul_comm, Nat.mul_add_div (by omega), Nat.div_eq_of_lt hlt, Nat.add_zero]
    have hnumber : (round * config.restarts + restart) % config.restarts = restart := by
      rw [Nat.mul_comm, Nat.mul_add_mod, Nat.mod_eq_of_lt hlt]
    rw [attempts_succ round remaining restart s rfl, tries]
    simp only [hround, hnumber]
    by_cases hfailed : (⟨round, restart, s⟩ : Try σ).failed config keys = true
    · have hrest := ih (restart + 1) ((⟨round, restart, s⟩ : Try σ).played config keys).2 (by omega)
      rw [if_pos hfailed, if_pos hfailed, hrest, List.findSome?_cons,
        Try.won?_eq_none_iff.2 hfailed]
      rfl
    · rw [if_neg hfailed, if_neg hfailed, List.findSome?_cons]
      rcases Try.won? config keys _ with _ | a
      · rfl
      · rfl

/-- What the rounds of a search come to is what their attempts come to one after the other. -/
theorem rounds_eq_tries (config : SearchConfig) (keys : List Key)
    (remaining round made : Nat) (s : σ) :
    rounds config keys (weightLimit (Key.longest keys)) remaining round
        (roundLimit config (Key.longest keys) round) made s
      = (match (tries config keys (remaining * config.restarts) (round * config.restarts)
            s).findSome? (·.won? config keys) with
          | some a => .ok a
          | none => .error (.exhausted
              (roundLimit config (Key.longest keys) (round + (remaining - 1)))
              (made + remaining * config.restarts)),
        (tries config keys (remaining * config.restarts) (round * config.restarts) s).map
          (·.event config keys)) := by
  induction remaining generalizing round made s with
  | zero =>
    rw [rounds_zero, Nat.zero_mul, tries]
    rfl
  | succ remaining ih =>
    have hround := attempts_eq_tries config keys round config.restarts 0 s (Nat.zero_add _)
    rw [Nat.add_zero] at hround
    have hcount : (remaining + 1) * config.restarts
        = config.restarts + remaining * config.restarts := by
      rw [Nat.succ_mul, Nat.add_comm]
    rw [hcount, tries_add]
    rcases hwon : (tries config keys config.restarts (round * config.restarts) s).findSome?
        (·.won? config keys) with _ | a
    · -- All attempts of the round fail, so the sequence goes on with those of the next.
      have hall := findSome?_won?_eq_none_iff.1 hwon
      rw [hwon] at hround
      rw [hall, if_pos rfl]
      by_cases hlast : remaining = 0
      · subst hlast
        rw [rounds_of_none_last hround, Nat.zero_mul, tries, List.append_nil, hwon]
        rfl
      · have hnext : round + 1 + (remaining - 1) = round + (remaining + 1 - 1) := by omega
        have hmade : made + config.restarts + remaining * config.restarts
            = made + (config.restarts + remaining * config.restarts) := Nat.add_assoc _ _ _
        have hrest := ih (round + 1) (made + config.restarts)
          (left config keys s (tries config keys config.restarts (round * config.restarts) s))
        rw [hnext, hmade, Nat.succ_mul] at hrest
        rw [rounds_of_none hlast hround, roundLimit_succ, hrest, List.findSome?_append, hwon,
          List.map_append, Option.none_or]
    · -- The sequence ends in this round.
      have hnot : (tries config keys config.restarts (round * config.restarts) s).all
          (·.failed config keys) ≠ true := by
        intro hall
        rw [findSome?_won?_eq_none_iff.2 hall] at hwon
        contradiction
      rw [hwon] at hround
      rw [rounds_of_some hround, if_neg hnot, List.append_nil, hwon]

/-- The event of a search that is asked for weights past the limit. -/
def capping (config : SearchConfig) (keys : List Key) : List Event :=
  if weightLimit (Key.longest keys) < config.maxWeight.toNat then
    [.capped config.maxWeight.toNat (weightLimit (Key.longest keys))]
  else []

/-- What a search comes to is what its attempts come to one after the other. -/
theorem run_eq_tries (config : SearchConfig) (keys : List Key) (s : σ) :
    run config keys s
      = (match (tries config keys (config.rounds * config.restarts) 0 s).findSome?
            (·.won? config keys) with
          | some a => .ok a
          | none => .error (.exhausted (roundLimit config (Key.longest keys) (config.rounds - 1))
              (config.rounds * config.restarts)),
        capping config keys ++
          (tries config keys (config.rounds * config.restarts) 0 s).map (·.event config keys)) := by
  have hrounds := rounds_eq_tries config keys config.rounds 0 0 s
  rw [Nat.zero_mul, Nat.zero_add, Nat.zero_add] at hrounds
  rw [run_eq, capping, roundLimit_zero, hrounds]
  split_ifs
  · rfl
  · rfl

/-! ## The sequence of the attempts -/

/-- A number in the sequence is a number in a round. -/
theorem tries_getElem? {remaining n m : Nat} {s : σ} {t : Try σ}
    (h : (tries config keys remaining n s)[m]? = some t) :
    m < remaining ∧ t.round = (n + m) / config.restarts ∧
      t.restart = (n + m) % config.restarts := by
  induction remaining generalizing n m s with
  | zero => simp [tries] at h
  | succ remaining ih =>
    rw [tries] at h
    rcases m with _ | m
    · obtain rfl := Option.some.inj h
      exact ⟨by omega, rfl, rfl⟩
    · rw [List.getElem?_cons_succ] at h
      split_ifs at h
      · obtain ⟨hlt, hround, hrestart⟩ := ih h
        have hnumber : n + 1 + m = n + (m + 1) := by omega
        rw [hnumber] at hround hrestart
        exact ⟨by omega, hround, hrestart⟩
      · simp at h

/-- The first attempt starts from the draws that there are. -/
theorem draws_of_tries_zero {remaining n : Nat} {s : σ} {t : Try σ}
    (h : (tries config keys remaining n s)[0]? = some t) : t.draws = s := by
  rcases remaining with _ | remaining
  · simp [tries] at h
  · rw [tries] at h
    obtain rfl := Option.some.inj h
    rfl

/-- Every other attempt starts from the draws that the one before it leaves. -/
theorem draws_of_tries_succ {remaining n m : Nat} {s : σ} {t t' : Try σ}
    (h : (tries config keys remaining n s)[m]? = some t)
    (h' : (tries config keys remaining n s)[m + 1]? = some t') :
    t'.draws = (t.played config keys).2 := by
  induction remaining generalizing n m s with
  | zero => simp [tries] at h
  | succ remaining ih =>
    rw [tries] at h h'
    rw [List.getElem?_cons_succ] at h'
    split_ifs at h'
    · rcases m with _ | m
      · obtain rfl := Option.some.inj h
        exact draws_of_tries_zero h'
      · rw [List.getElem?_cons_succ] at h
        split_ifs at h
        exact ih h h'
    · simp at h'

/-- Either all attempts are made and fail, or the last is the only one that does not fail. -/
theorem tries_cases (config : SearchConfig) (keys : List Key) (remaining n : Nat) (s : σ) :
    ((tries config keys remaining n s).length = remaining ∧
      ∀ t ∈ tries config keys remaining n s, t.failed config keys = true) ∨
    ∃ front t, tries config keys remaining n s = front ++ [t] ∧
      (∀ t' ∈ front, t'.failed config keys = true) ∧ t.failed config keys = false := by
  induction remaining generalizing n s with
  | zero => exact .inl ⟨rfl, by simp [tries]⟩
  | succ remaining ih =>
    rw [tries]
    generalize (⟨n / config.restarts, n % config.restarts, s⟩ : Try σ) = t
    by_cases hfailed : t.failed config keys = true
    · rw [if_pos hfailed]
      rcases ih (n + 1) (t.played config keys).2 with ⟨hlength, hall⟩ | ⟨front, t', heq, hall, hend⟩
      · exact .inl ⟨congrArg (· + 1) hlength, List.forall_mem_cons.2 ⟨hfailed, hall⟩⟩
      · refine .inr ⟨t :: front, t', ?_, List.forall_mem_cons.2 ⟨hfailed, hall⟩, hend⟩
        rw [heq]
        rfl
    · rw [if_neg hfailed]
      exact .inr ⟨[], t, rfl, by simp, Bool.eq_false_iff.2 hfailed⟩

end Search

end KeywordHash
