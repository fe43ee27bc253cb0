/-!
# Checked operations

A program with arrays and machine integers stops at an access past the end of an array, at a
difference below zero and at a number of too many bits. The programs here are written once, over any
monad that says what becomes of a condition which rules this out (`Checks`), and run in two. In `Id`
nothing is checked and every operation has a result: a count past the last is zero, a write past the
last slot changes nothing, a difference stops at zero and a weight is cut down to 16 bits. In
`Option` the program answers `none` at the first condition that fails. A name that ends in `M` is of
a program over any such monad; without the `M` it is the program in `Id`.

The tallies that the search counts in are the arrays that it works on most. A tally has the number
of keys for each hash below a bound. `Pile` adds hashes to a tally one by one and counts the
clashes: the additions to a hash that already had a key. The clashes of a pile are the keys that
would have to move for all hashes to differ.
-/

namespace KeywordHash

/-- A monad that knows what to do about a condition which its programs rely on. -/
class Checks (m : Type → Type) [Monad m] where
  /-- Makes sure of a condition. -/
  check : (p : Prop) → [Decidable p] → m Unit
  /-- A condition that holds does nothing to the program. -/
  check_of : ∀ {p : Prop} [Decidable p], p → check p = pure ()

/-- Nothing is checked. -/
instance : Checks Id where
  check _ := pure ()
  check_of _ := rfl

/-- A condition that fails ends the program without a result. -/
instance : Checks Option where
  check p := if p then some () else none
  check_of h := if_pos h

variable {m : Type → Type} [Monad m] [Checks m]

namespace Checks

/-- The difference of two numbers, the second not larger than the first. -/
@[inline]
def sub (x y : Nat) : m Nat := do
  check (y ≤ x)
  return x - y

/-- A number of 16 bits. -/
@[inline]
def narrow (n : Nat) : m UInt16 := do
  check (n < UInt16.size)
  return UInt16.ofNat n

/-- Without checks it is cut down. -/
@[simp]
theorem run_narrow (n : Nat) : Id.run (narrow n) = UInt16.ofNat n := rfl

variable {α : Type}

/-- What one of the slots holds. -/
@[inline]
def slot (slots : Array (Option α)) (i : Nat) : m (Option α) := do
  check (i < slots.size)
  return slots[i]?.join

/-- Slots with another content in one of them. -/
@[inline]
def put (slots : Array (Option α)) (i : Nat) (content : Option α) : m (Array (Option α)) := do
  check (i < slots.size)
  return slots.setIfInBounds i content

/-- Without checks there is nothing past the last slot. -/
@[simp]
theorem run_slot (slots : Array (Option α)) (i : Nat) :
    Id.run (slot slots i) = slots[i]?.join := rfl

end Checks

/-! ## Tallies -/

/-- How many keys have each hash. -/
structure Tally where
  /-- The counts, by hash. -/
  counts : Array Nat

namespace Tally

/-- The tally of no keys, for hashes below a bound. -/
def empty (bound : Nat) : Tally := ⟨Array.replicate bound 0⟩

/-- How many keys have a hash. -/
def count (t : Tally) (hash : Nat) : Nat := t.counts.getD hash 0

/-- One more key has a hash. -/
def add (t : Tally) (hash : Nat) : Tally := ⟨t.counts.modify hash (· + 1)⟩

/-- One key fewer has a hash. -/
def remove (t : Tally) (hash : Nat) : Tally := ⟨t.counts.modify hash (· - 1)⟩

/-- How many keys have a hash below the bound. -/
@[inline]
def countM (t : Tally) (hash : Nat) : m Nat := do
  Checks.check (hash < t.counts.size)
  return t.count hash

/-- One more key has a hash below the bound. -/
@[inline]
def addM (t : Tally) (hash : Nat) : m Tally := do
  Checks.check (hash < t.counts.size)
  return t.add hash

/-- One of the keys with a hash below the bound has it no longer. -/
@[inline]
def removeM (t : Tally) (hash : Nat) : m Tally := do
  Checks.check (hash < t.counts.size)
  Checks.check (1 ≤ t.count hash)
  return t.remove hash

/-- Without checks the count past the last is zero. -/
@[simp]
theorem run_countM (t : Tally) (hash : Nat) : Id.run (t.countM hash) = t.count hash := rfl

/-- Without checks a key is added anywhere. -/
@[simp]
theorem run_addM (t : Tally) (hash : Nat) : Id.run (t.addM hash) = t.add hash := rfl

/-- Without checks a key is removed anywhere. -/
@[simp]
theorem run_removeM (t : Tally) (hash : Nat) :
    Id.run (t.removeM hash) = t.remove hash := rfl

end Tally

/-- A tally with the number of clashes met while it was made. -/
structure Pile where
  /-- The clashes. -/
  clashes : Nat
  /-- The tally. -/
  tally : Tally

namespace Pile

/-- Adds one key. -/
def add (p : Pile) (hash : Nat) : Pile :=
  let clashes := if p.tally.count hash = 0 then p.clashes else p.clashes + 1
  ⟨clashes, p.tally.add hash⟩

/-- Adds one key at a hash below the bound: its count is read and raised. -/
@[inline]
def addM (p : Pile) (hash : Nat) : m Pile := do
  Checks.check (hash < p.tally.counts.size)
  return p.add hash

/-- Without checks a key is piled up anywhere. -/
@[simp]
theorem run_addM (p : Pile) (hash : Nat) : Id.run (p.addM hash) = p.add hash := rfl

/-- The pile of a list of hashes, all below a bound. -/
@[specialize]
def ofHashesM (bound : Nat) (hashes : List Nat) : m Pile :=
  hashes.foldlM addM ⟨0, Tally.empty bound⟩

/-- The pile of a list of hashes. -/
def ofHashes (bound : Nat) (hashes : List Nat) : Pile := Id.run (ofHashesM bound hashes)

/-- Hashes are piled up one by one. -/
theorem ofHashes_eq_foldl (bound : Nat) (hashes : List Nat) :
    ofHashes bound hashes = hashes.foldl add ⟨0, Tally.empty bound⟩ := List.idRun_foldlM

end Pile

end KeywordHash
