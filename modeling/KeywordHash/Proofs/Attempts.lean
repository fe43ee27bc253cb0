import KeywordHash.Proofs.Conflicts

/-!
# What an attempt comes to

A walk looks at the association it has before each of its steps and settles at the first under which
no two keys hash alike, so whether it settles can be read off its course (`descend_eq_some_iff`). An
attempt scatters weights and walks: it stalls if its walk comes past no such association in time,
and otherwise the largest hash under the one that it reaches decides whether the table is too wide
(`attempt_stalled_iff`, `attempt_tooWide_iff`, `attempt_found_iff`). All weights on the way are
within the largest that is allowed (`atMost_of_mem_attemptCourse`).
-/

namespace KeywordHash.Search

variable {σ : Type} [Source σ] {config : SearchConfig} {keys : List Key} {max : Nat}
  {a : Association} {s : σ}

/-! ## Where a walk settles -/

/-- A step settles where no two keys hash alike. -/
theorem step_of_nodup (hkeys : Short keys) (ha : a.AtMost max)
    (h : (keys.map (·.hash a)).Nodup) (s : σ) : (step keys max a s).1 = .settled := by
  have hnone : colliding (hashBound keys max) keys a = [] :=
    (colliding_eq_nil_iff (hash_lt_bound hkeys ha)).2 h
  rcases step_cases keys max a s with ⟨hsettled, -⟩ | ⟨-, k, hk, -⟩ | ⟨k, hk, -⟩
  · exact hsettled
  · rw [hnone] at hk
    contradiction
  · rw [hnone] at hk
    contradiction

/-- A walk settles at an association of its course under which no two keys hash alike, if it comes
past it within its budget. -/
theorem descend_of_course (hkeys : Short keys) (ha : a.AtMost max) {budget more : Nat}
    (taken : Nat) {a' : Association} (hmore : more < budget)
    (hget : (course keys max budget a s)[more]? = some a')
    (hdistinct : (keys.map (·.hash a')).Nodup) :
    (descend keys max budget taken a s).1 = some (taken + more, a') := by
  induction budget generalizing taken more a s with
  | zero => omega
  | succ budget ih =>
    unfold course at hget
    split at hget
    · next a₁ s₁ hmoved =>
      rcases more with _ | more
      · -- A step that moves starts where two keys hash alike.
        obtain rfl := Option.some.inj hget
        have hsettled := step_of_nodup hkeys ha hdistinct s
        rw [hmoved] at hsettled
        contradiction
      · have ha₁ : a₁.AtMost max := step_atMost ha (congrArg Prod.fst hmoved)
        have hrest := ih ha₁ (taken + 1) (by omega) hget
        rw [descend_of_moved hmoved, hrest, Nat.add_assoc, Nat.add_comm 1]
    · -- A course that does not move ends where it is.
      obtain ⟨rfl, rfl⟩ : more = 0 ∧ a = a' := by
        rcases more with _ | more
        · exact ⟨rfl, Option.some.inj hget⟩
        · contradiction
      have hsettled := step_of_nodup hkeys ha hdistinct s
      rcases hstep : step keys max a s with ⟨_ | _ | _, s₁⟩
      · rw [descend_of_settled hstep]
        rfl
      · rw [hstep] at hsettled
        contradiction
      · rw [hstep] at hsettled
        contradiction

/-- A walk settles exactly where it comes past an association, within its budget, under which no two
keys hash alike. -/
theorem descend_eq_some_iff (hkeys : Short keys) (ha : a.AtMost max) {budget steps : Nat}
    {a' : Association} :
    (descend keys max budget 0 a s).1 = some (steps, a') ↔
      steps < budget ∧ (course keys max budget a s)[steps]? = some a' ∧
        (keys.map (·.hash a')).Nodup := by
  constructor
  · intro h
    have hwalk : descend keys max budget 0 a s
        = (some (steps, a'), (descend keys max budget 0 a s).2) := Prod.ext h rfl
    obtain ⟨-, hlt, -⟩ := descend_invariant (fun _ _ _ => step_atMost) ha hwalk
    obtain ⟨-, hdistinct⟩ := descend_settled hkeys ha hwalk
    obtain ⟨more, hsteps, hget⟩ := course_getElem?_of_descend hwalk
    rw [Nat.zero_add] at hlt hsteps
    subst hsteps
    exact ⟨hlt, hget, hdistinct⟩
  · rintro ⟨hlt, hget, hdistinct⟩
    have hsettled := descend_of_course hkeys ha 0 hlt hget hdistinct
    rwa [Nat.zero_add] at hsettled

/-! ## How an attempt ends -/

/-- The associations that an attempt with weights up to `max` comes past. -/
def attemptCourse (config : SearchConfig) (keys : List Key) (max : Nat) (s : σ) :
    List Association :=
  course keys max config.iterations (scatter max (Key.used keys) (.filled 0) s).1
    (scatter max (Key.used keys) (.filled 0) s).2

/-- Within its steps, an attempt with weights up to `max` comes past weights under which no two keys
hash alike: it has them after so many steps. -/
def Reaches (config : SearchConfig) (keys : List Key) (max : Nat) (s : σ) (steps : Nat)
    (a : Association) : Prop :=
  steps < config.iterations ∧ (attemptCourse config keys max s)[steps]? = some a ∧
    (keys.map (·.hash a)).Nodup

/-- All weights of an attempt are within the largest. -/
theorem atMost_of_mem_attemptCourse (hkeys : Short keys) (hmax : max < UInt16.size)
    (h : a ∈ attemptCourse config keys max s) : a.AtMost max := by
  have hstart := scatter_atMost (Key.used keys) s (Association.atMost_zero max)
  obtain ⟨hatMost, -⟩ := course_antitone hkeys hmax hstart config.iterations
    (scatter max (Key.used keys) (.filled 0) s).2
  exact hatMost a h

/-- An attempt reaches what its walk settles at. -/
theorem reaches_iff (hkeys : Short keys) {steps : Nat} :
    Reaches config keys max s steps a ↔
      (descend keys max config.iterations 0 (scatter max (Key.used keys) (.filled 0) s).1
        (scatter max (Key.used keys) (.filled 0) s).2).1 = some (steps, a) :=
  (descend_eq_some_iff hkeys (scatter_atMost _ s (Association.atMost_zero max))).symm

/-- A largest hash is past the allowed span exactly if there is such a span and it is not larger. -/
theorem any_maxSpan_iff {width : Nat} :
    config.maxSpan.any (· ≤ width) = true ↔ ∃ span ∈ config.maxSpan, span ≤ width := by
  rcases config.maxSpan with _ | span
  · simp
  · simp

/-- All that an attempt can come to: it stalls and reaches nothing, or it reaches weights and its
table is too wide, or it finds a table with them. -/
theorem attempt_cases (hkeys : Short keys) (config : SearchConfig) (max : Nat) (s : σ) :
    ((attempt config keys max s).1 = .stalled ∧ ∀ steps a, ¬ Reaches config keys max s steps a) ∨
    ∃ steps a, (∀ steps' a', Reaches config keys max s steps' a' ↔ steps' = steps ∧ a' = a) ∧
      (((attempt config keys max s).1 = .tooWide (Key.maxHash keys a + 1) ∧
          ∃ span ∈ config.maxSpan, span ≤ Key.maxHash keys a) ∨
        ((attempt config keys max s).1 = .found steps (Key.maxHash keys a) a ∧
          ∀ span ∈ config.maxSpan, Key.maxHash keys a < span)) := by
  rcases hwalk : descend keys max config.iterations 0
      (scatter max (Key.used keys) (.filled 0) s).1
      (scatter max (Key.used keys) (.filled 0) s).2 with ⟨_ | ⟨steps, a⟩, s'⟩
  · refine .inl ⟨?_, fun steps a hreach => ?_⟩
    · rw [attempt_of_none hwalk]
    · have hsome := (reaches_iff hkeys).1 hreach
      rw [hwalk] at hsome
      contradiction
  · refine .inr ⟨steps, a, fun steps' a' => ?_, ?_⟩
    · rw [reaches_iff hkeys, hwalk, Option.some.injEq, Prod.mk.injEq]
      exact and_congr eq_comm eq_comm
    · by_cases hwide : config.maxSpan.any (· ≤ Key.maxHash keys a) = true
      · refine .inl ⟨?_, any_maxSpan_iff.1 hwide⟩
        rw [attempt_of_some hwalk, if_pos hwide]
      · refine .inr ⟨?_, fun span hspan => ?_⟩
        · rw [attempt_of_some hwalk, if_neg hwide]
        · by_contra hle
          exact hwide (any_maxSpan_iff.2 ⟨span, hspan, Nat.le_of_not_lt hle⟩)

/-- An attempt stalls exactly if it reaches nothing. -/
theorem attempt_stalled_iff (hkeys : Short keys) :
    (attempt config keys max s).1 = .stalled ↔
      ∀ steps a, ¬ Reaches config keys max s steps a := by
  rcases attempt_cases hkeys config max s with ⟨hstalled, hnone⟩ | ⟨steps, a, hreach, hend⟩
  · exact ⟨fun _ => hnone, fun _ => hstalled⟩
  · constructor
    · intro hstalled
      rcases hend with ⟨hwide, -⟩ | ⟨hfound, -⟩
      · rw [hstalled] at hwide
        contradiction
      · rw [hstalled] at hfound
        contradiction
    · intro hnone
      exact absurd ((hreach steps a).2 ⟨rfl, rfl⟩) (hnone steps a)

/-- The table of an attempt is too wide exactly if the attempt reaches weights under which it is. -/
theorem attempt_tooWide_iff (hkeys : Short keys) {slots : Nat} :
    (attempt config keys max s).1 = .tooWide slots ↔
      ∃ steps a, Reaches config keys max s steps a ∧
        (∃ span ∈ config.maxSpan, span ≤ Key.maxHash keys a) ∧ slots = Key.maxHash keys a + 1 := by
  rcases attempt_cases hkeys config max s with ⟨hstalled, hnone⟩ | ⟨steps, a, hreach, hend⟩
  · rw [hstalled]
    constructor
    · intro hwide
      contradiction
    · rintro ⟨steps, a, hreach, -⟩
      exact absurd hreach (hnone steps a)
  · constructor
    · intro hwide
      rcases hend with ⟨hwide', hspan⟩ | ⟨hfound, -⟩
      · rw [hwide] at hwide'
        exact ⟨steps, a, (hreach _ _).2 ⟨rfl, rfl⟩, hspan, Outcome.tooWide.inj hwide'⟩
      · rw [hwide] at hfound
        contradiction
    · rintro ⟨steps', a', hreach', ⟨span, hspan, hle⟩, rfl⟩
      obtain ⟨rfl, rfl⟩ := (hreach _ _).1 hreach'
      rcases hend with ⟨hwide, -⟩ | ⟨-, hnarrow⟩
      · exact hwide
      · exact absurd (hnarrow span hspan) (Nat.not_lt_of_le hle)

/-- An attempt finds a table exactly if it reaches weights under which the table is not too wide. -/
theorem attempt_found_iff (hkeys : Short keys) {steps maxHash : Nat} :
    (attempt config keys max s).1 = .found steps maxHash a ↔
      Reaches config keys max s steps a ∧ (∀ span ∈ config.maxSpan, Key.maxHash keys a < span) ∧
        maxHash = Key.maxHash keys a := by
  rcases attempt_cases hkeys config max s with ⟨hstalled, hnone⟩ | ⟨steps', a', hreach, hend⟩
  · rw [hstalled]
    constructor
    · intro hfound
      contradiction
    · rintro ⟨hreach, -⟩
      exact absurd hreach (hnone steps a)
  · constructor
    · intro hfound
      rcases hend with ⟨hwide, -⟩ | ⟨hfound', hnarrow⟩
      · rw [hfound] at hwide
        contradiction
      · rw [hfound] at hfound'
        obtain ⟨rfl, rfl, rfl⟩ := Outcome.found.inj hfound'
        exact ⟨(hreach _ _).2 ⟨rfl, rfl⟩, hnarrow, rfl⟩
    · rintro ⟨hreach', hnarrow, rfl⟩
      obtain ⟨rfl, rfl⟩ := (hreach _ _).1 hreach'
      rcases hend with ⟨-, span, hspan, hle⟩ | ⟨hfound, -⟩
      · exact absurd (hnarrow span hspan) (Nat.not_lt_of_le hle)
      · exact hfound

end KeywordHash.Search
