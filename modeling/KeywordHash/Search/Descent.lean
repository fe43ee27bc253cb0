import KeywordHash.Association
import KeywordHash.Random

/-!
# Descent by least conflicts

One attempt of the search walks from given weights towards a table without collisions. A step picks
a key that shares its hash and one of its indices, scores every weight that the index could have by
the clashes it would leave (`scoresM`), and gives it one of the best. Keys that do not read the
index stay where they are and are counted once; the others move in proportion to how often they read
it and are added and taken away for each weight. The walk ends when no key shares its hash or its
steps are used up.

All of it is written over any monad with checks. What it comes to without them is at the end.
-/

namespace KeywordHash.Search

/-! ## One step -/

/-- A key that moves with the weight under trial. -/
structure Mover where
  /-- Its hash without the weight. -/
  base : Nat
  /-- How often it reads the weight. -/
  multiplicity : Nat

/-- Where a key comes to lie under a weight. -/
def Mover.landing (m : Mover) (weight : Nat) : Nat := m.base + m.multiplicity * weight

/-- The weights with the fewest clashes so far, the last tried in front. -/
structure Leaders where
  /-- Their clashes. -/
  clashes : Nat
  /-- The weights. -/
  weights : List Nat

/-- Takes a weight with its clashes into account. -/
def Leaders.consider (l : Leaders) (weight clashes : Nat) : Leaders :=
  if clashes < l.clashes then ⟨clashes, [weight]⟩
  else if clashes = l.clashes then ⟨l.clashes, weight :: l.weights⟩
  else l

/-- One more than the largest hash of keys under weights up to `max`. -/
def hashBound (keys : List Key) (max : Nat) : Nat := Key.longest keys + keyPositions * max + 1

/-- What a step comes to. -/
inductive Step where
  /-- No keys share their hash. -/
  | settled
  /-- The key that was picked reads no index. -/
  | stuck
  /-- The walk goes on from this association. -/
  | moved (a : Association)

section

variable {m : Type → Type} [Monad m] [Checks m]

/-- The keys that read an index, as movers, under the association they are hashed with. -/
@[specialize]
def moversM (keys : List Key) (a : Association) (i : Index) : m (List Mover) :=
  (keys.filter fun k => k.multiplicity i ≠ 0).mapM fun k => do
    let base ← Checks.sub (k.hash a) (k.multiplicity i * a.weight i)
    return ⟨base, k.multiplicity i⟩

/-- The keys that do not read an index, piled up. -/
@[specialize]
def stationaryM (bound : Nat) (keys : List Key) (a : Association) (i : Index) : m Pile :=
  Pile.ofHashesM bound ((keys.filter fun k => k.multiplicity i = 0).map (·.hash a))

/-- The clashes that a weight leaves, and the tally as it was before the trial. -/
@[specialize]
def trialM (movers : List Mover) (p : Pile) (weight : Nat) : m (Nat × Pile) := do
  -- The clashes of the pile are read first, so that its tally can be changed in place.
  let before := p.clashes
  let landings := movers.map (·.landing weight)
  let piled ← landings.foldlM Pile.addM p
  let clashes := piled.clashes
  let tally ← landings.foldlM Tally.removeM piled.tally
  return (clashes, ⟨before, tally⟩)

/-- Tries weights in turn and keeps the leaders. -/
@[specialize]
def scoresM (movers : List Mover) : List Nat → Pile → Leaders → m Leaders
  | [], _, l => return l
  | weight :: rest, p, l => do
    -- The pile that comes back is the one that went in, for the next weight to be tried on.
    let (clashes, p) ← trialM movers p weight
    scoresM movers rest p (l.consider weight clashes)

/-- The weights up to `max` that leave the fewest clashes, in increasing order. No weight leaves as
many clashes as there are keys and one more. -/
@[specialize]
def bestM (bound : Nat) (keys : List Key) (max : Nat) (a : Association) (i : Index) :
    m (List Nat) := do
  let movers ← moversM keys a i
  let p ← stationaryM bound keys a i
  let l ← scoresM movers (List.range (max + 1)) p ⟨keys.length + 1, []⟩
  return l.weights.reverse

/-- The keys that share their hash with another. -/
@[specialize]
def collidingM (bound : Nat) (keys : List Key) (a : Association) : m (List Key) := do
  let hashes := keys.map fun k => (k, k.hash a)
  let tally ← hashes.foldlM (fun t p => t.addM p.2) (Tally.empty bound)
  let counted ← hashes.mapM fun p => do
    let n ← tally.countM p.2
    return (p.1, n)
  return (counted.filter fun p => 1 < p.2).map Prod.fst

variable {σ : Type} [Source σ]

/-- One step of a walk under weights up to `max`. -/
@[specialize]
def stepM (keys : List Key) (max : Nat) (a : Association) (s : σ) : m (Step × σ) := do
  let bound := hashBound keys max
  -- A key that collides, one of its indices, and one of the best weights for it.
  match Source.choose (← collidingM bound keys a) s with
  | (none, s) => return (.settled, s)
  | (some key, s) =>
    match Source.choose key.indices s with
    | (none, s) => return (.stuck, s)
    | (some i, s) =>
      -- Some weight always leaves the fewest clashes, so there is one to choose.
      match Source.choose (← bestM bound keys max a i) s with
      | (none, s) => return (.moved a, s)
      | (some weight, s) => return (.moved (a.set i (← Checks.narrow weight)), s)

/-! ## The walk -/

/-- Walks from an association for at most `budget` steps, with `taken` behind it. Answers the number
of steps taken and the association without collisions, if the walk reaches one. -/
@[specialize]
def descendM (keys : List Key) (max : Nat) :
    (budget taken : Nat) → Association → σ → m (Option (Nat × Association) × σ)
  | 0, _, _, s => return (none, s)
  | budget + 1, taken, a, s => do
    match ← stepM keys max a s with
    | (.settled, s) => return (some (taken, a), s)
    | (.stuck, s) => return (none, s)
    | (.moved a, s) => descendM keys max budget (taken + 1) a s

end

/-! ## Without checks -/

/-- The keys that read an index, as movers, under the association they are hashed with. -/
def movers (keys : List Key) (a : Association) (i : Index) : List Mover :=
  Id.run (moversM keys a i)

/-- The keys that do not read an index, piled up. -/
def stationary (bound : Nat) (keys : List Key) (a : Association) (i : Index) : Pile :=
  Id.run (stationaryM bound keys a i)

/-- The clashes that a weight leaves, and the tally as it was before the trial. -/
def trial (movers : List Mover) (p : Pile) (weight : Nat) : Nat × Pile :=
  Id.run (trialM movers p weight)

/-- Tries weights in turn and keeps the leaders. -/
def scores (movers : List Mover) (weights : List Nat) (p : Pile) (l : Leaders) : Leaders :=
  Id.run (scoresM movers weights p l)

/-- The weights up to `max` that leave the fewest clashes, in increasing order. -/
def best (bound : Nat) (keys : List Key) (max : Nat) (a : Association) (i : Index) : List Nat :=
  Id.run (bestM bound keys max a i)

/-- The program in `Id` is `best`. -/
@[simp]
theorem run_bestM (bound : Nat) (keys : List Key) (max : Nat) (a : Association) (i : Index) :
    Id.run (bestM bound keys max a i) = best bound keys max a i := rfl

/-- The keys that share their hash with another. -/
def colliding (bound : Nat) (keys : List Key) (a : Association) : List Key :=
  Id.run (collidingM bound keys a)

/-- The program in `Id` is `colliding`. -/
@[simp]
theorem run_collidingM (bound : Nat) (keys : List Key) (a : Association) :
    Id.run (collidingM bound keys a) = colliding bound keys a := rfl

section

variable {σ : Type} [Source σ]

/-- One step of a walk under weights up to `max`. -/
def step (keys : List Key) (max : Nat) (a : Association) (s : σ) : Step × σ :=
  Id.run (stepM keys max a s)

/-- The program in `Id` is `step`. -/
@[simp]
theorem run_stepM (keys : List Key) (max : Nat) (a : Association) (s : σ) :
    Id.run (stepM keys max a s) = step keys max a s := rfl

/-- Walks from an association for at most `budget` steps, with `taken` behind it. -/
def descend (keys : List Key) (max budget taken : Nat) (a : Association) (s : σ) :
    Option (Nat × Association) × σ :=
  Id.run (descendM keys max budget taken a s)

/-- The program in `Id` is `descend`. -/
@[simp]
theorem run_descendM (keys : List Key) (max budget taken : Nat) (a : Association) (s : σ) :
    Id.run (descendM keys max budget taken a s) = descend keys max budget taken a s := rfl

end

end KeywordHash.Search
