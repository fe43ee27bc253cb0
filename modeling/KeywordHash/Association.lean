import KeywordHash.Checks
import KeywordHash.Text.Basic

/-!
# Associations and the hash

An association gives a weight to each of 257 indices. The hash of a word is its length plus the
weights at the indices that its first four bytes read: each byte reads the index of its value, the
third byte the one after. `Association.hashM` looks them up byte by byte; `Index.ofWord` lists the
indices by position. Bytes past the fourth count through the length alone, so words with the same
`Signature` hash alike under every association.

The search counts how often a word reads each index. What it sees of a word is a `Key`: the length
and the indices. The hash of a key is the hash of its word.
-/

namespace KeywordHash

/-- The number of weights in an association: one for each byte and one for the shifted last. -/
def associationLength : Nat := 257

/-- The number of bytes of a word whose weights count. -/
def keyPositions : Nat := 4

/-- The index of a weight. -/
abbrev Index := Fin associationLength

namespace Index

/-- The index that a byte reads in most positions: its value. -/
def ofByte (b : UInt8) : Index :=
  ⟨b.toNat, Nat.lt_succ_of_lt b.toNat_lt⟩

/-- The index that a byte reads in the third position: the one after its value. -/
def afterByte (b : UInt8) : Index :=
  ⟨b.toNat + 1, Nat.succ_lt_succ b.toNat_lt⟩

/-- The index that a byte reads in a given position. -/
def atPosition (position : Nat) (b : UInt8) : Index :=
  if position = 2 then afterByte b else ofByte b

/-- The indices that the hash of a word reads, in the order of its bytes. -/
def ofWord (word : Word) : List Index :=
  (word.take keyPositions).zipIdx.map fun p => atPosition p.2 p.1

end Index

/-- A weight for every index. -/
structure Association where
  /-- The weights. -/
  weights : Vector UInt16 associationLength
deriving DecidableEq

namespace Association

/-- The association with the same weight everywhere. -/
def filled (weight : UInt16) : Association := ⟨Vector.replicate associationLength weight⟩

instance : Inhabited Association := ⟨filled 0⟩

/-- The weight at an index. -/
def get (a : Association) (i : Index) : UInt16 := a.weights[i]

/-- The weight at an index, as a number. -/
def weight (a : Association) (i : Index) : Nat := (a.get i).toNat

/-- The association with the weight at one index replaced. -/
def set (a : Association) (i : Index) (weight : UInt16) : Association :=
  ⟨a.weights.set i weight⟩

/-- The association with weights replaced at the given positions, in turn; a position past the last
changes nothing. -/
def replaced (a : Association) : List (Nat × UInt16) → Association
  | [] => a
  | (i, weight) :: rest =>
    (if h : i < associationLength then a.set ⟨i, h⟩ weight else a).replaced rest

/-- The weight at a position, `none` past the last. -/
def get? (a : Association) (position : Nat) : Option UInt16 := a.weights[position]?

section

variable {m : Type → Type} [Monad m] [Checks m]

/-- The weight at a position that is not past the last, as a number. -/
@[inline]
def weightM (a : Association) (position : Nat) : m Nat := do
  Checks.check (position < associationLength)
  return ((a.get? position).getD 0).toNat

/-- The weights that the first four bytes of a word add to its hash. A byte reads the position of
its value. -/
@[specialize]
def keyWeightM (a : Association) : Word → m Nat
  | [] => return 0
  | [p] => a.weightM p.toNat
  | [p, q] => return (← a.weightM p.toNat) + (← a.weightM q.toNat)
  -- From the third byte on, the third reads the position after its value.
  | [p, q, r] =>
    return (← a.weightM p.toNat) + (← a.weightM q.toNat) + (← a.weightM (r.toNat + 1))
  | p :: q :: r :: s :: _ =>
    return (← a.weightM p.toNat) + (← a.weightM q.toNat) + (← a.weightM (r.toNat + 1))
      + (← a.weightM s.toNat)

/-- The hash of a word: its length and its key weight. -/
@[specialize]
def hashM (a : Association) (word : Word) : m Nat :=
  return word.length + (← a.keyWeightM word)

end

/-- The hash of a word: its length and its key weight. -/
def hash (a : Association) (word : Word) : Nat := Id.run (a.hashM word)

/-- Hashing in `Id` is hashing without checks. -/
@[simp]
theorem run_hashM (a : Association) (word : Word) : Id.run (a.hashM word) = a.hash word := rfl

/-- The indices that differ in weight from the first, with their weights, in increasing order. -/
def differing (a : Association) : List (Nat × UInt16) :=
  (a.weights.toList.zipIdx.filter fun p => p.1 ≠ a.weights[0]).map fun p => (p.2, p.1)

/-- The differing weights in braces, as `index: weight`. -/
def render (a : Association) : String :=
  "\x7b" ++ String.intercalate ", " (a.differing.map fun p => toString p.1 ++ ": " ++ toString p.2)
    ++ "\x7d"

end Association

/-- What determines the hash of a word under every association. -/
structure Signature where
  /-- The length of the word. -/
  length : Nat
  /-- The indices its hash reads, in increasing order. -/
  indices : List Index
deriving DecidableEq, Repr

/-- The signature of a word. -/
def Signature.ofWord (word : Word) : Signature where
  length := word.length
  indices := (Index.ofWord word).mergeSort

/-! ## Keys -/

/-- The length of a word and the indices it reads. -/
structure Key where
  /-- The length. -/
  length : Nat
  /-- The indices, in the order of the word's bytes. -/
  indices : List Index
deriving DecidableEq, Repr

namespace Key

/-- The key of a word. -/
def ofWord (word : Word) : Key := ⟨word.length, Index.ofWord word⟩

/-- The hash of a key: its length plus the weights at its indices. -/
def hash (k : Key) (a : Association) : Nat :=
  k.indices.foldl (fun sum i => sum + a.weight i) k.length

/-- How often a key reads an index. -/
def multiplicity (k : Key) (i : Index) : Nat := k.indices.count i

/-- The indices that some key reads, in increasing order. -/
def used (keys : List Key) : List Index :=
  (List.finRange associationLength).filter fun i => keys.any fun k => k.indices.contains i

/-- The length of the longest key. -/
def longest (keys : List Key) : Nat := (keys.map Key.length).max?.getD 0

/-- The largest hash of a key. -/
def maxHash (keys : List Key) (a : Association) : Nat := (keys.map (·.hash a)).max?.getD 0

end Key

end KeywordHash
