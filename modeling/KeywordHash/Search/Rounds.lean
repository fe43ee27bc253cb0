import KeywordHash.Search.Basic
import KeywordHash.Search.Descent

/-!
# Attempts, rounds and the miss weight

A search makes attempts from random weights, `restarts` of them in a round, and doubles the largest
weight from round to round up to `weightLimit`. The first attempt that ends without collisions and
within the allowed span wins. Each failed attempt leaves one event, in order. The winning weights
are kept at the indices that some key reads (`finish`); every other index gets a weight past the
largest hash, so that a word which reads one misses the table.

As the walk, the attempts and rounds are written over any monad with checks.
-/

namespace KeywordHash.Search

/-- The largest weight for which every hash of a word of up to `longest` bytes, plus one, is a
16-bit number. -/
def weightLimit (longest : Nat) : Nat := (UInt16.size - 2 - longest) / keyPositions

/-- The association with the given weights at the `used` indices and a weight past `maxHash`
elsewhere. -/
def finish (maxHash : Nat) (used : List Index) (a : Association) : Association :=
  used.foldl (fun table i => table.set i (a.get i))
    (Association.filled (UInt16.ofNat (min (maxHash + 1) (UInt16.size - 1))))

/-- How an attempt ends. -/
inductive Outcome where
  /-- With collisions. -/
  | stalled
  /-- Without collisions, but with too many slots. -/
  | tooWide (slots : Nat)
  /-- With a table. -/
  | found (steps maxHash : Nat) (a : Association)

variable {σ : Type} [Source σ]

section

variable {m : Type → Type} [Monad m] [Checks m]

/-! ## Attempts -/

/-- Draws a weight up to `max` for each of the given indices, in turn. -/
@[specialize]
def scatterM (max : Nat) : List Index → Association → σ → m (Association × σ)
  | [], a, s => return (a, s)
  | i :: rest, a, s => do
    let (weight, s) := Source.weight max s
    scatterM max rest (a.set i (← Checks.narrow weight)) s

/-- One attempt with weights up to `max`. -/
@[specialize]
def attemptM (config : SearchConfig) (keys : List Key) (max : Nat) (s : σ) : m (Outcome × σ) := do
  -- Only the indices that some key reads get a weight; the others stay at zero.
  let (a, s) ← scatterM max (Key.used keys) (Association.filled 0) s
  match ← descendM keys max config.iterations 0 a s with
  | (none, s) => return (.stalled, s)
  | (some (steps, a), s) =>
    -- The table will have one slot more than the largest hash.
    let maxHash := Key.maxHash keys a
    if config.maxSpan.any (· ≤ maxHash) then return (.tooWide (maxHash + 1), s)
    else return (.found steps maxHash a, s)

/-! ## Rounds -/

/-- The attempts of a round from number `restart` on, `remaining` of them at most. -/
@[specialize]
def attemptsM (config : SearchConfig) (keys : List Key) (max round : Nat) :
    (remaining restart : Nat) → σ → m (Option Association × List Event × σ)
  | 0, _, s => return (none, [], s)
  | remaining + 1, restart, s => do
    match ← attemptM config keys max s with
    | (.found steps maxHash a, s) =>
      return (some (finish maxHash (Key.used keys) a), [.found round restart steps max], s)
    | (.tooWide slots, s) =>
      let (result, events, s) ← attemptsM config keys max round remaining (restart + 1) s
      return (result, .tooWide round restart slots :: events, s)
    | (.stalled, s) =>
      let (result, events, s) ← attemptsM config keys max round remaining (restart + 1) s
      return (result, .stalled round restart :: events, s)

/-- The rounds from number `round` on, `remaining` of them at most, with `made` attempts behind
them. -/
@[specialize]
def roundsM (config : SearchConfig) (keys : List Key) (limit : Nat) :
    (remaining round max made : Nat) → σ → m (Except BuildError Association × List Event)
  | 0, _, max, made, _ => return (.error (.exhausted max made), [])
  | remaining + 1, round, max, made, s => do
    match ← attemptsM config keys max round config.restarts 0 s with
    | (some a, events, _) => return (.ok a, events)
    | (none, events, s) =>
      -- Every attempt of the round has failed.
      let made := made + config.restarts
      if remaining = 0 then return (.error (.exhausted max made), events)
      else
        let (result, later) ← roundsM config keys limit remaining (round + 1)
          (min (2 * max) limit) made s
        return (result, events ++ later)

/-- Searches for weights that send the keys to different slots. -/
@[specialize]
def runM (config : SearchConfig) (keys : List Key) (s : σ) :
    m (Except BuildError Association × List Event) := do
  let limit := weightLimit (Key.longest keys)
  let requested := config.maxWeight.toNat
  -- A search for weights up to zero is one for weights up to one.
  let (result, events) ←
    roundsM config keys limit config.rounds 0 (min (max requested 1) limit) 0 s
  return (result, if limit < requested then .capped requested limit :: events else events)

end

/-! ## Without checks -/

/-- Draws a weight up to `max` for each of the given indices, in turn. -/
def scatter (max : Nat) (indices : List Index) (a : Association) (s : σ) : Association × σ :=
  Id.run (scatterM max indices a s)

/-- The program in `Id` is `scatter`. -/
@[simp]
theorem run_scatterM (max : Nat) (indices : List Index) (a : Association) (s : σ) :
    Id.run (scatterM max indices a s) = scatter max indices a s := rfl

/-- One attempt with weights up to `max`. -/
def attempt (config : SearchConfig) (keys : List Key) (max : Nat) (s : σ) : Outcome × σ :=
  Id.run (attemptM config keys max s)

/-- The program in `Id` is `attempt`. -/
@[simp]
theorem run_attemptM (config : SearchConfig) (keys : List Key) (max : Nat) (s : σ) :
    Id.run (attemptM config keys max s) = attempt config keys max s := rfl

/-- The attempts of a round from number `restart` on, `remaining` of them at most. -/
def attempts (config : SearchConfig) (keys : List Key) (max round remaining restart : Nat) (s : σ) :
    Option Association × List Event × σ :=
  Id.run (attemptsM config keys max round remaining restart s)

/-- The program in `Id` is `attempts`. -/
@[simp]
theorem run_attemptsM (config : SearchConfig) (keys : List Key) (max round remaining restart : Nat)
    (s : σ) :
    Id.run (attemptsM config keys max round remaining restart s)
      = attempts config keys max round remaining restart s := rfl

/-- The rounds from number `round` on, `remaining` of them at most, with `made` attempts behind
them. -/
def rounds (config : SearchConfig) (keys : List Key) (limit remaining round max made : Nat)
    (s : σ) : Except BuildError Association × List Event :=
  Id.run (roundsM config keys limit remaining round max made s)

/-- Searches for weights that send the keys to different slots. -/
def run (config : SearchConfig) (keys : List Key) (s : σ) :
    Except BuildError Association × List Event :=
  Id.run (runM config keys s)

end KeywordHash.Search
