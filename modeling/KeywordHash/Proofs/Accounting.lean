import KeywordHash.Proofs.Counting
import KeywordHash.Proofs.MissWeight
import KeywordHash.Proofs.Tries

/-!
# The account that a search gives

What generation answers and what it logs are read off the sequence of its attempts. All that it logs
is one event of each attempt, in order, behind the limit of the weights and in front of the events
of the finished table (`log_eq_tries`). The failed attempts are those that leave records of level
`trace` (`traces_map_event`), and of the other events only the last can be a warning, so the records
can be counted and the warning told from the table. Whether an attempt fails, and what it reports,
depends on the weights that it comes past (`Try.failed_iff`, `Try.tooWide_iff`).
-/

namespace KeywordHash

namespace Search

variable {σ : Type} [Source σ] {config : SearchConfig} {keys : List Key}

/-! ## The records of the attempts -/

/-- The events that leave records of level `trace`. -/
def traces (log : List Event) : List Event := log.filter fun e => e.record.level = .trace

/-- The records of level `trace` of two logs in turn. -/
theorem traces_append (log log' : List Event) :
    traces (log ++ log') = traces log ++ traces log' :=
  List.filter_append _ _

/-- The failed attempts leave records of level `trace`. -/
theorem traces_map_event (made : List (Try σ)) :
    traces (made.map (·.event config keys))
      = (made.filter (·.failed config keys)).map (·.event config keys) := by
  unfold traces
  rw [List.filter_map]
  congr 1
  refine List.filter_congr fun t _ => ?_
  rcases t.cases config keys with ⟨hfailed, -, htrace⟩ | ⟨_, _, _, -, hfound, -, hevent⟩
  · simp [hfailed, htrace]
  · simp [hfound, hevent, Event.record, Event.ofStage]

/-- The limit of the weights is no record of level `trace`. -/
theorem traces_capping (config : SearchConfig) (keys : List Key) :
    traces (capping config keys) = [] := by
  unfold capping
  split_ifs
  · rfl
  · rfl

/-- The event of an attempt is no warning. -/
theorem Try.event_level_ne (t : Try σ) :
    (t.event config keys).record.level ≠ .warning := by
  rcases t.cases config keys with ⟨-, -, htrace⟩ | ⟨_, _, _, -, -, -, hevent⟩
  · simp [htrace]
  · simp [hevent, Event.record, Event.ofStage]

/-- The limit of the weights is no warning. -/
theorem level_ne_of_mem_capping {e : Event} (h : e ∈ capping config keys) :
    e.record.level ≠ .warning := by
  unfold capping at h
  split_ifs at h
  · rw [List.mem_singleton.1 h]
    simp [Event.record, Event.ofStage]
  · contradiction

/-- No event of a search is a warning. -/
theorem level_ne_of_mem_search {made : List (Try σ)} {e : Event}
    (h : e ∈ capping config keys ++ made.map (·.event config keys)) :
    e.record.level ≠ .warning := by
  rcases List.mem_append.1 h with hcapping | hmade
  · exact level_ne_of_mem_capping hcapping
  · obtain ⟨t, -, rfl⟩ := List.mem_map.1 hmade
    exact t.event_level_ne

/-! ## What an attempt reports -/

variable {t : Try σ}

/-- An attempt fails exactly if it does not find a table. -/
theorem Try.failed_iff_ne :
    t.failed config keys = true ↔
      ∀ steps maxHash a, (t.played config keys).1 ≠ .found steps maxHash a := by
  unfold Try.failed
  rcases (t.played config keys).1 with _ | slots | ⟨steps, maxHash, a⟩
  · simp
  · simp
  · simp

/-- An attempt fails exactly if all weights without collisions that it comes past make a table that
is too wide. -/
theorem Try.failed_iff (hkeys : Short keys) :
    t.failed config keys = true ↔
      ∀ steps a, Reaches config keys (t.limit config keys) t.draws steps a →
        ∃ span ∈ config.maxSpan, span ≤ Key.maxHash keys a := by
  rw [Try.failed_iff_ne]
  constructor
  · intro hfailed steps a hreach
    by_contra hnone
    have hnarrow : ∀ span ∈ config.maxSpan, Key.maxHash keys a < span := by
      intro span hspan
      by_contra hle
      exact hnone ⟨span, hspan, Nat.le_of_not_lt hle⟩
    exact hfailed _ _ _ ((attempt_found_iff hkeys).2 ⟨hreach, hnarrow, rfl⟩)
  · intro hwide steps maxHash a hfound
    obtain ⟨hreach, hnarrow, -⟩ := (attempt_found_iff hkeys).1 hfound
    obtain ⟨span, hspan, hle⟩ := hwide steps a hreach
    have hlt := hnarrow span hspan
    omega

/-- A failed attempt leaves a record of level `trace` with its round and its number in the round. -/
theorem Try.record_of_failed (h : t.failed config keys = true) :
    (t.event config keys).record.level = .trace ∧
      ("round", toString t.round) ∈ (t.event config keys).record.fields ∧
      ("restart", toString t.restart) ∈ (t.event config keys).record.fields := by
  unfold Try.event
  rcases hplayed : (t.played config keys).1 with _ | slots | ⟨steps, maxHash, a⟩
  · simp [Event.record, Event.ofStage]
  · simp [Event.record, Event.ofStage]
  · exact absurd hplayed (Try.failed_iff_ne.1 h _ _ _)

/-- The message of the record tells how the attempt ends. -/
theorem Try.message_iff (config : SearchConfig) (keys : List Key) (t : Try σ) :
    ((t.event config keys).record.message = "restart" ↔ (t.played config keys).1 = .stalled) ∧
      ((t.event config keys).record.message = "table too wide" ↔
        ∃ slots, (t.played config keys).1 = .tooWide slots) := by
  unfold Try.event
  rcases (t.played config keys).1 with _ | slots | ⟨steps, maxHash, a⟩
  · simp [Event.record, Event.ofStage]
  · simp [Event.record, Event.ofStage]
  · simp [Event.record, Event.ofStage]

/-- The record is of a walk that was given up exactly if the attempt comes past no weights without
collisions. -/
theorem Try.stalled_iff (hkeys : Short keys) :
    (t.event config keys).record.message = "restart" ↔
      ∀ steps a, ¬ Reaches config keys (t.limit config keys) t.draws steps a := by
  obtain ⟨hmessage, -⟩ := Try.message_iff config keys t
  rw [hmessage]
  exact attempt_stalled_iff hkeys

/-- The record says that the table is too wide exactly if the attempt comes past weights without
collisions that make such a table. -/
theorem Try.tooWide_iff (hkeys : Short keys) :
    (t.event config keys).record.message = "table too wide" ↔
      ∃ steps a, Reaches config keys (t.limit config keys) t.draws steps a ∧
        ∃ span ∈ config.maxSpan, span ≤ Key.maxHash keys a := by
  obtain ⟨-, hmessage⟩ := Try.message_iff config keys t
  rw [hmessage]
  constructor
  · rintro ⟨slots, hwide⟩
    obtain ⟨steps, a, hreach, hspan, -⟩ := (attempt_tooWide_iff hkeys).1 hwide
    exact ⟨steps, a, hreach, hspan⟩
  · rintro ⟨steps, a, hreach, hspan⟩
    exact ⟨_, (attempt_tooWide_iff hkeys).2 ⟨steps, a, hreach, hspan, rfl⟩⟩

end Search

open Search

namespace Table

variable {C : Type}

/-! ## What is logged behind the search -/

/-- The events behind the search. -/
def closed : Except BuildError (Table C) → List Event
  | .ok t => closing t
  | .error _ => []

/-- A finished table is logged, with a warning behind it if it is sparse. -/
theorem closed_cases (result : Except BuildError (Table C)) :
    (∃ error, result = .error error ∧ closed result = []) ∨
    ∃ t : Table C, result = .ok t ∧
      ((t.maxHashValue < 4 * t.totalKeywords ∧
          closed result = [.generated t.totalKeywords t.maxHashValue]) ∨
        (4 * t.totalKeywords ≤ t.maxHashValue ∧
          closed result = [.generated t.totalKeywords t.maxHashValue,
            .sparse t.totalKeywords (t.maxHashValue + 1)])) := by
  rcases result with error | t
  · exact .inl ⟨error, rfl, rfl⟩
  · refine .inr ⟨t, rfl, ?_⟩
    show (_ ∧ closing t = _) ∨ (_ ∧ closing t = _)
    unfold closing sparseFactor
    split_ifs with hsparse
    · exact .inr ⟨hsparse, rfl⟩
    · exact .inl ⟨Nat.lt_of_not_le hsparse, rfl⟩

/-- The events of a finished table are no records of level `trace`. -/
theorem traces_closed (result : Except BuildError (Table C)) : traces (closed result) = [] := by
  rcases closed_cases result with ⟨_, -, heq⟩ | ⟨t, -, ⟨-, heq⟩ | ⟨-, heq⟩⟩
  · rw [heq]
    rfl
  · rw [heq]
    rfl
  · rw [heq]
    rfl

/-- There is a warning behind the search exactly if it ends with a table that is sparse. -/
theorem exists_warning_closed_iff (result : Except BuildError (Table C)) :
    (∃ e ∈ closed result, e.record.level = .warning) ↔
      ∃ t, result = .ok t ∧ 4 * t.totalKeywords ≤ t.maxHashValue := by
  rcases closed_cases result with ⟨_, rfl, heq⟩ | ⟨t, rfl, ⟨hdense, heq⟩ | ⟨hsparse, heq⟩⟩
  · simp [heq]
  · simp [heq, Event.record, Event.ofStage, hdense]
  · simp [heq, Event.record, Event.ofStage, hsparse]

/-- Only the last of the events behind the search can be a warning. -/
theorem level_ne_of_mem_dropLast_closed {result : Except BuildError (Table C)} {e : Event}
    (h : e ∈ (closed result).dropLast) : e.record.level ≠ .warning := by
  rcases closed_cases result with ⟨_, -, heq⟩ | ⟨t, -, ⟨-, heq⟩ | ⟨-, heq⟩⟩
  · rw [heq] at h
    contradiction
  · rw [heq] at h
    contradiction
  · rw [heq] at h
    rw [List.mem_singleton.1 h]
    simp [Event.record, Event.ofStage]

/-! ## What generation answers and logs -/

variable [Code C] {v : Vocabulary C} {σ : Type} [Source σ] {config : SearchConfig} {s : σ}

/-- The longest key is the key of the longest text. -/
theorem longest_keys (v : Vocabulary C) : Key.longest v.keys = v.maxLength := by
  unfold Key.longest Vocabulary.maxLength Vocabulary.keys
  rw [List.map_map]
  rfl

/-- Generation that is not refused up front makes attempts until one finds a table, or all that
there are. -/
theorem generateFrom_cases_tries (htwins : twins? [] v.entries = none) {made : List (Try σ)}
    (hmade : made = tries config v.keys (config.rounds * config.restarts) 0 s) :
    (made.length = config.rounds * config.restarts ∧
      (∀ t ∈ made, t.failed config v.keys = true) ∧
      generateFrom config v s = (.error (.exhausted
          (roundLimit config v.maxLength (config.rounds - 1)) (config.rounds * config.restarts)),
        capping config v.keys ++ made.map (·.event config v.keys))) ∨
    ∃ front t steps a table, made = front ++ [t] ∧
      (∀ t' ∈ front, t'.failed config v.keys = true) ∧ t.failed config v.keys = false ∧
      (t.played config v.keys).1 = .found steps (Key.maxHash v.keys a) a ∧
      place v (finish (Key.maxHash v.keys a) (Key.used v.keys) a) = .ok table ∧
      generateFrom config v s = (.ok table,
        capping config v.keys ++ made.map (·.event config v.keys) ++ closing table) := by
  have hrun := run_eq_tries config v.keys s
  rw [← hmade, longest_keys] at hrun
  have hends := tries_cases config v.keys (config.rounds * config.restarts) 0 s
  rw [← hmade] at hends
  rcases hends with ⟨hlength, hall⟩ | ⟨front, t, heq, hall, hend⟩
  · have hnone : made.findSome? (·.won? config v.keys) = none :=
      findSome?_won?_eq_none_iff.2 (List.all_eq_true.2 hall)
    rw [hnone] at hrun
    exact .inl ⟨hlength, hall, generateFrom_of_error htwins hrun⟩
  · rcases t.cases config v.keys with ⟨hfailed, -⟩ | ⟨steps, maxHash, a, hplayed, -, hwon, -⟩
    · rw [hend] at hfailed
      contradiction
    · -- What the last attempt finds separates the entries, so that it can be placed.
      obtain ⟨hwin, rfl⟩ := attempt_found (short_keys v.entries) (Prod.ext hplayed rfl)
      obtain ⟨table, hplace⟩ := place_ok_iff.2
        (separates_finish (Key.maxHash v.keys a) hwin.distinct)
      have hfront : front.findSome? (·.won? config v.keys) = none :=
        findSome?_won?_eq_none_iff.2 (List.all_eq_true.2 hall)
      have hsome : made.findSome? (·.won? config v.keys)
          = some (finish (Key.maxHash v.keys a) (Key.used v.keys) a) := by
        rw [heq, List.findSome?_append, hfront, Option.none_or, List.findSome?_cons, hwon]
        rfl
      rw [hsome] at hrun
      exact .inr ⟨front, t, steps, a, table, heq, hall, hend, hplayed, hplace,
        generateFrom_of_ok htwins hrun hplace⟩

/-- What generation logs is one event of each attempt, between the limit of the weights and the
events of the finished table. -/
theorem log_eq_tries (htwins : twins? [] v.entries = none) {made : List (Try σ)}
    (hmade : made = tries config v.keys (config.rounds * config.restarts) 0 s) :
    (generateFrom config v s).2 = capping config v.keys ++ made.map (·.event config v.keys)
      ++ closed (generateFrom config v s).1 := by
  rcases generateFrom_cases_tries htwins hmade with
    ⟨-, -, heq⟩ | ⟨_, _, _, _, _, -, -, -, -, -, heq⟩
  · rw [heq]
    exact (List.append_nil _).symm
  · rw [heq]
    rfl

/-! ## The account -/

/-- The attempts of a search, in the order in which they are made. -/
structure Scheduled (config : SearchConfig) (v : Vocabulary C) (s : σ) (made : List (Try σ)) :
    Prop where
  /-- They are counted through the rounds, and there are as many in each. -/
  order : ∀ n t, made[n]? = some t →
    n < config.rounds * config.restarts ∧ t.round = n / config.restarts ∧
      t.restart = n % config.restarts
  /-- The first one starts from the draws that there are. -/
  start : ∀ t, made[0]? = some t → t.draws = s
  /-- Every other one starts from the draws that the one before it leaves. -/
  next : ∀ n t t', made[n]? = some t → made[n + 1]? = some t' →
    t'.draws = (t.played config v.keys).2
  /-- Each is made with weights up to the largest of its round. -/
  played : ∀ t ∈ made, t.played config v.keys
    = attempt config v.keys (roundLimit config v.maxLength t.round) t.draws
  /-- It comes past no weights that are larger. -/
  atMost : ∀ t ∈ made,
    ∀ a ∈ attemptCourse config v.keys (roundLimit config v.maxLength t.round) t.draws,
      a.AtMost (roundLimit config v.maxLength t.round)
  /-- It fails exactly if all weights without collisions that it comes past make a table that is too
  wide. -/
  failed_iff : ∀ t ∈ made, t.failed config v.keys = true ↔
    ∀ steps a, Reaches config v.keys (roundLimit config v.maxLength t.round) t.draws steps a →
      ∃ span ∈ config.maxSpan, span ≤ Key.maxHash v.keys a
  /-- Either all that there are to be are made and fail, or the last is the only one that does
  not. -/
  ended : (made.length = config.rounds * config.restarts ∧
      ∀ t ∈ made, t.failed config v.keys = true) ∨
    ∃ front t, made = front ++ [t] ∧ (∀ t' ∈ front, t'.failed config v.keys = true) ∧
      t.failed config v.keys = false

/-- What a result and a log tell of the attempts of a search. -/
structure Accounts (config : SearchConfig) (v : Vocabulary C) (made : List (Try σ))
    (result : Except BuildError (Table C)) (log : List Event) : Prop where
  /-- The attempts are logged in order, between the limit of the weights and the finished table. -/
  logged : log = capping config v.keys ++ made.map (·.event config v.keys) ++ closed result
  /-- One record of level `trace` is left by each failed attempt, and by nothing else. -/
  traced : traces log = (made.filter (·.failed config v.keys)).map (·.event config v.keys)
  /-- It has the round of the attempt and its number in the round. -/
  recorded : ∀ t ∈ made, t.failed config v.keys = true →
    (t.event config v.keys).record.level = .trace ∧
      ("round", toString t.round) ∈ (t.event config v.keys).record.fields ∧
      ("restart", toString t.restart) ∈ (t.event config v.keys).record.fields
  /-- It says that the table is too wide exactly if the attempt comes past weights without
  collisions that make such a table. -/
  tooWide_iff : ∀ t ∈ made, (t.event config v.keys).record.message = "table too wide" ↔
    ∃ steps a, Reaches config v.keys (roundLimit config v.maxLength t.round) t.draws steps a ∧
      ∃ span ∈ config.maxSpan, span ≤ Key.maxHash v.keys a
  /-- It says that the attempt was given up exactly if it comes past no weights without
  collisions. -/
  stalled_iff : ∀ t ∈ made, (t.event config v.keys).record.message = "restart" ↔
    ∀ steps a, ¬ Reaches config v.keys (roundLimit config v.maxLength t.round) t.draws steps a
  /-- The search is exhausted exactly if all attempts of all rounds fail. It names the largest
  weight of the last round, or of the first if there is no round, and how many attempts there were.
  -/
  exhausted_iff : ∀ maxWeight attempts, result = .error (.exhausted maxWeight attempts) ↔
    made.length = config.rounds * config.restarts ∧
      (∀ t ∈ made, t.failed config v.keys = true) ∧
      maxWeight = roundLimit config v.maxLength (max config.rounds 1 - 1) ∧
      attempts = config.rounds * config.restarts
  /-- Then there are as many records of level `trace`. -/
  counted : ∀ maxWeight attempts, result = .error (.exhausted maxWeight attempts) →
    (traces log).length = attempts
  /-- There is a table exactly if an attempt does not fail. -/
  answered_iff : (∃ table, result = .ok table) ↔ ∃ t ∈ made, t.failed config v.keys = false
  /-- The record of the attempt that finds it has as many records of level `trace` in front of it as
  there are attempts before, the largest weight of the round and a number of steps within the
  budget, and the weights that the texts read are within that largest one. -/
  found : ∀ table, result = .ok table → ∃ round restart steps before,
    round < config.rounds ∧ restart < config.restarts ∧ steps < config.iterations ∧
      log = before ++ .found round restart steps (roundLimit config v.maxLength round)
        :: closing table ∧
      (traces before).length = round * config.restarts + restart ∧
      ∀ e ∈ v.entries, ∀ i ∈ Index.ofWord e.word,
        table.association.weight i ≤ roundLimit config v.maxLength round
  /-- There is a warning exactly if the table is sparse. -/
  warned_iff : (∃ e ∈ log, e.record.level = .warning) ↔
    ∃ table, result = .ok table ∧ 4 * table.totalKeywords ≤ table.maxHashValue
  /-- It is the last that is logged. -/
  last : ∀ e ∈ log.dropLast, e.record.level ≠ .warning

/-- The attempts one after the other are those of the search. -/
theorem scheduled_tries (config : SearchConfig) (v : Vocabulary C) (s : σ) :
    Scheduled config v s (tries config v.keys (config.rounds * config.restarts) 0 s) where
  order n t h := by
    obtain ⟨hlt, hround, hrestart⟩ := tries_getElem? h
    rw [Nat.zero_add] at hround hrestart
    exact ⟨hlt, hround, hrestart⟩
  start t h := draws_of_tries_zero h
  next n t t' h h' := draws_of_tries_succ h h'
  played t _ := by
    rw [← longest_keys]
    rfl
  atMost t _ a ha :=
    atMost_of_mem_attemptCourse (short_keys v.entries) (roundLimit_lt _ _ _) ha
  failed_iff t _ := by
    rw [← longest_keys]
    exact Try.failed_iff (short_keys v.entries)
  ended := tries_cases config v.keys _ 0 s

/-- The attempt that finds a table is the last, so the number of those in front of it is its own. -/
theorem round_mul_add_restart {made front : List (Try σ)} {t : Try σ}
    (h : Scheduled config v s made) (heq : made = front ++ [t]) :
    t.round < config.rounds ∧ t.restart < config.restarts ∧
      front.length = t.round * config.restarts + t.restart := by
  have hget : made[front.length]? = some t := by
    rw [heq, List.getElem?_concat_length]
  obtain ⟨hlt, hround, hrestart⟩ := h.order _ _ hget
  have hpos : 0 < config.restarts := by
    rcases Nat.eq_zero_or_pos config.restarts with hzero | hpos
    · rw [hzero, Nat.mul_zero] at hlt
      contradiction
    · exact hpos
  rw [hround, hrestart]
  exact ⟨Nat.div_lt_of_lt_mul (by rwa [Nat.mul_comm]), Nat.mod_lt _ hpos,
    (Nat.div_add_mod' _ _).symm⟩

/-- What the record of the attempt that finds a table tells. -/
theorem exists_found_of_generateFrom (htwins : twins? [] v.entries = none) {table : Table C}
    (h : (generateFrom config v s).1 = .ok table) : ∃ round restart steps before,
    round < config.rounds ∧ restart < config.restarts ∧ steps < config.iterations ∧
      (generateFrom config v s).2 = before ++
        .found round restart steps (roundLimit config v.maxLength round) :: closing table ∧
      (traces before).length = round * config.restarts + restart ∧
      ∀ e ∈ v.entries, ∀ i ∈ Index.ofWord e.word,
        table.association.weight i ≤ roundLimit config v.maxLength round := by
  have hscheduled := scheduled_tries config v s
  generalize hmade : tries config v.keys (config.rounds * config.restarts) 0 s = made
    at hscheduled
  rcases generateFrom_cases_tries htwins hmade.symm with
    ⟨-, -, hresult⟩ | ⟨front, t, steps, a, table', heq, hall, -, hplayed, hplace, hresult⟩
  · rw [hresult] at h
    contradiction
  · rw [hresult] at h ⊢
    obtain rfl := Except.ok.inj h
    -- The last attempt is the one that does not fail; what it came past and reports is its own.
    have hmem : t ∈ made := by
      rw [heq]
      exact List.mem_concat_self
    obtain ⟨hround, hrestart, hlength⟩ := round_mul_add_restart hscheduled heq
    rw [hscheduled.played t hmem] at hplayed
    obtain ⟨⟨hsteps, hreached, -⟩, -, -⟩ := (attempt_found_iff (short_keys v.entries)).1 hplayed
    have hatMost := hscheduled.atMost t hmem a (List.mem_of_getElem? hreached)
    have hevent : t.event config v.keys
        = .found t.round t.restart steps (roundLimit config v.maxLength t.round) := by
      unfold Try.event
      rw [hscheduled.played t hmem, hplayed, Try.limit, longest_keys]
    refine ⟨t.round, t.restart, steps,
      capping config v.keys ++ front.map (·.event config v.keys), hround, hrestart, hsteps, ?_, ?_,
      fun e he i hi => ?_⟩
    · rw [heq, List.map_append, List.map_singleton, hevent]
      simp only [List.append_assoc, List.singleton_append]
    · -- All attempts in front of it have failed.
      rw [traces_append, traces_capping, traces_map_event, List.nil_append, List.length_map,
        List.filter_eq_self.2 hall, hlength]
    · have hused : i ∈ Key.used v.keys :=
        Key.mem_used.2 ⟨Key.ofWord e.word, List.mem_map_of_mem he, hi⟩
      rw [association_place hplace, weight_finish hused]
      exact hatMost i

/-- A search is exhausted exactly if all of its attempts fail. -/
theorem generateFrom_eq_exhausted_iff (htwins : twins? [] v.entries = none) {made : List (Try σ)}
    (hmade : made = tries config v.keys (config.rounds * config.restarts) 0 s)
    (maxWeight attempts : Nat) :
    (generateFrom config v s).1 = .error (.exhausted maxWeight attempts) ↔
      made.length = config.rounds * config.restarts ∧
        (∀ t ∈ made, t.failed config v.keys = true) ∧
        maxWeight = roundLimit config v.maxLength (max config.rounds 1 - 1) ∧
        attempts = config.rounds * config.restarts := by
  have hround : max config.rounds 1 - 1 = config.rounds - 1 := by omega
  rw [hround]
  rcases generateFrom_cases_tries htwins hmade with
    ⟨hlength, hall, hresult⟩ | ⟨front, t, steps, a, table, heq, -, hend, -, -, hresult⟩
  · rw [hresult, Except.error.injEq, BuildError.exhausted.injEq]
    constructor
    · rintro ⟨hweight, hattempts⟩
      exact ⟨hlength, hall, hweight.symm, hattempts.symm⟩
    · rintro ⟨-, -, hweight, hattempts⟩
      exact ⟨hweight.symm, hattempts.symm⟩
  · rw [hresult]
    constructor
    · intro h
      contradiction
    · rintro ⟨-, hall, -⟩
      have hfailed := hall t (by simp [heq])
      rw [hend] at hfailed
      contradiction

/-- Generation makes a table exactly if one of its attempts does not fail. -/
theorem exists_table_iff (htwins : twins? [] v.entries = none) {made : List (Try σ)}
    (hmade : made = tries config v.keys (config.rounds * config.restarts) 0 s) :
    (∃ table, (generateFrom config v s).1 = .ok table) ↔
      ∃ t ∈ made, t.failed config v.keys = false := by
  rcases generateFrom_cases_tries htwins hmade with
    ⟨-, hall, hresult⟩ | ⟨front, t, steps, a, table, heq, -, hend, -, -, hresult⟩
  · rw [hresult]
    constructor
    · rintro ⟨_, h⟩
      contradiction
    · rintro ⟨t, ht, hend⟩
      rw [hall t ht] at hend
      contradiction
  · rw [hresult]
    exact ⟨fun _ => ⟨t, by simp [heq], hend⟩, fun _ => ⟨table, rfl⟩⟩

/-- In a log of attempts only what is behind the search can be a warning. -/
theorem exists_warning_iff {made : List (Try σ)} {result : Except BuildError (Table C)} :
    (∃ e ∈ capping config v.keys ++ made.map (·.event config v.keys) ++ closed result,
        e.record.level = .warning) ↔ ∃ e ∈ closed result, e.record.level = .warning := by
  constructor
  · rintro ⟨e, he, hlevel⟩
    rcases List.mem_append.1 he with hsearch | hclosed
    · exact absurd hlevel (level_ne_of_mem_search hsearch)
    · exact ⟨e, hclosed, hlevel⟩
  · rintro ⟨e, he, hlevel⟩
    exact ⟨e, List.mem_append_right _ he, hlevel⟩

/-- The account of a search. If the entries can be told apart, attempts are made in the order of
their rounds until one finds a table, each with weights up to the largest of its round, which
doubles from round to round within its limit. Each failed one leaves one record of level `trace`.
The search is exhausted exactly if all of them fail, and then tells how many there were. Otherwise
the one that finds a table tells its place, and a warning is logged behind it exactly if the table
is sparse. -/
theorem accounting_exact (config : SearchConfig) (v : Vocabulary C) (s : σ)
    (h : ∀ first second,
      (generateFrom config v s).1 ≠ .error (.indistinguishable first second)) :
    ∃ made, Scheduled config v s made ∧
      Accounts config v made (generateFrom config v s).1 (generateFrom config v s).2 := by
  have htwins : twins? [] v.entries = none := by
    by_contra hsome
    rw [twins?_eq_none_iff] at hsome
    obtain ⟨first, second, hrefused⟩ := (generateFrom_indistinguishable_iff config v s).2 hsome
    exact h first second hrefused
  have hscheduled := scheduled_tries config v s
  generalize hmade : tries config v.keys (config.rounds * config.restarts) 0 s = made at hscheduled
  have hlog := log_eq_tries htwins hmade.symm
  have htraces : traces (generateFrom config v s).2
      = (made.filter (·.failed config v.keys)).map (·.event config v.keys) := by
    rw [hlog, traces_append, traces_append, traces_capping, traces_map_event, traces_closed,
      List.append_nil, List.nil_append]
  have hexhausted := generateFrom_eq_exhausted_iff htwins hmade.symm
  refine ⟨made, hscheduled, ?_⟩
  constructor
  case logged => exact hlog
  case traced => exact htraces
  case recorded => exact fun t _ hfailed => Try.record_of_failed hfailed
  case tooWide_iff =>
    intro t _
    rw [← longest_keys]
    exact Try.tooWide_iff (short_keys v.entries)
  case stalled_iff =>
    intro t _
    rw [← longest_keys]
    exact Try.stalled_iff (short_keys v.entries)
  case exhausted_iff => exact hexhausted
  case counted =>
    intro maxWeight attempts hresult
    obtain ⟨hlength, hall, -, hattempts⟩ := (hexhausted _ _).1 hresult
    rw [htraces, List.length_map, List.filter_eq_self.2 hall, hlength, hattempts]
  case answered_iff => exact exists_table_iff htwins hmade.symm
  case found => exact fun table hresult => exists_found_of_generateFrom htwins hresult
  case warned_iff =>
    rw [hlog, exists_warning_iff]
    exact exists_warning_closed_iff _
  case last =>
    intro e he
    rw [hlog, List.dropLast_append] at he
    split_ifs at he
    · exact level_ne_of_mem_search (List.mem_of_mem_dropLast he)
    · rcases List.mem_append.1 he with hsearch | hclosed
      · exact level_ne_of_mem_search hsearch
      · exact level_ne_of_mem_dropLast_closed hclosed

/-- The four words can be told apart. -/
theorem generateFrom_fourWords_ne (config : SearchConfig) (s : σ) (first second : String) :
    (generateFrom config fourWords s).1 ≠ .error (.indistinguishable first second) := by
  intro h
  have hseparates : fourWeights.Separates fourWords.entries := by decide +kernel
  exact (generateFrom_indistinguishable_iff config fourWords s).1 ⟨first, second, h⟩
    (tellable_of_separates hseparates)

/-- All 128 attempts to find a table of four slots for the four words fail, the last of them with
weights up to 512. A table of any size is found, and all attempts before are in the log. -/
theorem accounting_fourWords :
    (generate { maxSpan := some 4 } fourWords).1 = .error (.exhausted 512 128) ∧
      (traces (generate { maxSpan := some 4 } fourWords).2).length = 128 ∧
      ∃ t round restart steps before, (generate {} fourWords).1 = .ok t ∧
        (generate {} fourWords).2 = before ++
          .found round restart steps (roundLimit {} fourWords.maxLength round) :: closing t ∧
        (traces before).length = round * 32 + restart := by
  have hexhausted : (generate { maxSpan := some 4 } fourWords).1 = .error (.exhausted 512 128) ∧
      (traces (generate { maxSpan := some 4 } fourWords).2).length = 128 := by
    obtain ⟨made, hscheduled, haccounts⟩ := accounting_exact { maxSpan := some 4 } fourWords
      (Keystream.ofSeed _) (generateFrom_fourWords_ne _ _)
    have hnarrow : 4 < fourWords.size + fourWords.minLength := by decide +kernel
    have hresult : (generate { maxSpan := some 4 } fourWords).1 = .error (.exhausted 512 128) := by
      rcases hscheduled.ended with ⟨hlength, hall⟩ | ⟨front, t, heq, -, hend⟩
      · have hweight : 512 = roundLimit { maxSpan := some 4 } fourWords.maxLength 3 := by
          decide +kernel
        exact (haccounts.exhausted_iff 512 128).2 ⟨hlength, hall, hweight, rfl⟩
      · obtain ⟨table, htable⟩ := haccounts.answered_iff.2 ⟨t, by simp [heq], hend⟩
        exact absurd htable (generateFrom_ne_ok_of_narrow rfl hnarrow table)
    exact ⟨hresult, haccounts.counted _ _ hresult⟩
  obtain ⟨made, -, haccounts⟩ := accounting_exact {} fourWords (Keystream.ofSeed _)
    (generateFrom_fourWords_ne _ _)
  obtain ⟨t, ht⟩ := exists_generate_fourWords
  obtain ⟨round, restart, steps, before, -, -, -, hlog, hcount, -⟩ := haccounts.found t ht
  exact ⟨hexhausted.1, hexhausted.2, t, round, restart, steps, before, ht, hlog, hcount⟩

end Table

end KeywordHash
