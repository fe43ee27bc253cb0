/-!
# Random draws

The search draws weights and picks elements of lists. It is written over any `Source`, whose draws
are in range by their type; what a source makes of its state is its own affair. Picking from an
empty list draws nothing.

The default source is the keystream: the words of a ChaCha stream with twelve rounds under a key
that is spread from a 64-bit seed. A draw from `n` values takes a stream word `v` and answers the
high half of `v * n`, after passing over the words whose low half lies past a zone; the zone makes
the answers equally likely. Weights and positions differ in the zone only. The stream has `2 ^ 68`
words before its block counter runs over, which bounds the words that a draw can pass over.
-/

namespace KeywordHash

/-! ## Sources -/

/-- A state that random draws are taken from. -/
class Source (σ : Type) where
  /-- Draws a number from zero to `max`, both included. -/
  weight : (max : Nat) → σ → Fin (max + 1) × σ
  /-- Draws a position in a list with `more` elements behind its first. -/
  position : (more : Nat) → σ → Fin (more + 1) × σ

namespace Source

variable {σ : Type} [Source σ] {α : Type}

/-- Picks an element of a list, none of an empty one. -/
def choose (list : List α) (s : σ) : Option α × σ :=
  match list with
  | [] => (none, s)
  | x :: rest =>
    let (i, s) := position rest.length s
    (some ((x :: rest).get i), s)

/-- Whatever is picked is an element of the list. -/
theorem choose_mem {list : List α} {s : σ} {x : α} (h : (choose list s).1 = some x) :
    x ∈ list := by
  cases list with
  | nil => cases h
  | cons y rest =>
    cases Option.some.inj h
    exact List.get_mem _ _

/-- Something is picked of every list with an element. -/
theorem choose_eq_none_iff {list : List α} {s : σ} : (choose list s).1 = none ↔ list = [] := by
  cases list with
  | nil => simp [choose]
  | cons y rest => simp [choose]

end Source

/-! ## The keystream -/

/-- The state of the keystream: its key, the block in use and how much of it is used. -/
structure Keystream where
  /-- The key. -/
  key : Vector UInt32 8
  /-- The number of the block in use. -/
  counter : UInt64
  /-- The words of the block in use. -/
  block : Vector UInt32 16
  /-- How many of its words have been handed out. -/
  used : Nat

namespace Keystream

/-! ## Blocks -/

/-- Rotates a word to the left. -/
def rotateLeft (x : UInt32) (n : UInt32) : UInt32 := (x <<< n) ||| (x >>> (32 - n))

/-- Rotates a word to the right. -/
def rotateRight (x : UInt32) (n : UInt32) : UInt32 := (x >>> n) ||| (x <<< (32 - n))

/-- Mixes the words at four places of a block. -/
def quarterRound (a b c d : Fin 16) (s : Vector UInt32 16) : Vector UInt32 16 :=
  -- Four times an addition, an exclusive or and a rotation.
  let s := s.set a (s[a] + s[b])
  let s := s.set d (rotateLeft (s[d] ^^^ s[a]) 16)
  let s := s.set c (s[c] + s[d])
  let s := s.set b (rotateLeft (s[b] ^^^ s[c]) 12)
  let s := s.set a (s[a] + s[b])
  let s := s.set d (rotateLeft (s[d] ^^^ s[a]) 8)
  let s := s.set c (s[c] + s[d])
  s.set b (rotateLeft (s[b] ^^^ s[c]) 7)

/-- Mixes the four columns of a block, then its four diagonals. -/
def doubleRound (s : Vector UInt32 16) : Vector UInt32 16 :=
  -- The columns.
  let s := quarterRound 0 4 8 12 s
  let s := quarterRound 1 5 9 13 s
  let s := quarterRound 2 6 10 14 s
  let s := quarterRound 3 7 11 15 s
  -- The diagonals.
  let s := quarterRound 0 5 10 15 s
  let s := quarterRound 1 6 11 12 s
  let s := quarterRound 2 7 8 13 s
  quarterRound 3 4 9 14 s

/-- The block before mixing: four constants, the key, the counter and two zero words. -/
def initialBlock (key : Vector UInt32 8) (counter : UInt64) : Vector UInt32 16 :=
  #v[0x61707865, 0x3320646e, 0x79622d32, 0x6b206574,
    key[0], key[1], key[2], key[3], key[4], key[5], key[6], key[7],
    counter.toUInt32, (counter >>> 32).toUInt32, 0, 0]

/-- The block with a given number: the mixed initial block plus the initial block. -/
def blockAt (key : Vector UInt32 8) (counter : UInt64) : Vector UInt32 16 :=
  let start := initialBlock key counter
  -- Twelve rounds are six double rounds.
  let mixed := doubleRound (doubleRound (doubleRound (doubleRound (doubleRound
    (doubleRound start)))))
  Vector.zipWith (· + ·) mixed start

/-! ## The key of a seed -/

/-- One step of the congruential sequence that spreads a seed over a key. -/
def spread (state : UInt64) : UInt64 := state * 6364136223846793005 + 11634580027462260723

/-- The key word that a state of the sequence gives: a fold of its bits, rotated by its top ones. -/
def keyWord (state : UInt64) : UInt32 :=
  rotateRight (((state >>> 18) ^^^ state) >>> 27).toUInt32 (state >>> 59).toUInt32

/-- The first `n` key words after a state. -/
def keyWords : Nat → UInt64 → List UInt32
  | 0, _ => []
  | n + 1, state => keyWord (spread state) :: keyWords n (spread state)

/-- There are as many key words as asked for. -/
theorem length_keyWords (n : Nat) (state : UInt64) : (keyWords n state).length = n := by
  induction n generalizing state with
  | zero => rfl
  | succ n ih => simp [keyWords, ih]

/-- The key that a seed is spread to. -/
def keyOfSeed (seed : UInt64) : Vector UInt32 8 :=
  ⟨(keyWords 8 seed).toArray, by simp [length_keyWords]⟩

/-- The start of the keystream of a seed. -/
def ofSeed (seed : UInt64) : Keystream :=
  let key := keyOfSeed seed
  { key := key, counter := 0, block := blockAt key 0, used := 0 }

/-! ## Draws -/

/-- The next word of the stream; a used up block gives way to the next. -/
def next (s : Keystream) : UInt32 × Keystream :=
  if h : s.used < 16 then (s.block[s.used], { s with used := s.used + 1 })
  else
    -- The block is used up.
    let counter := s.counter + 1
    let block := blockAt s.key counter
    (block[0], { s with counter := counter, block := block, used := 1 })

/-- The number of words before the stream repeats. -/
def period : Nat := UInt64.size * 16

/-- The high half of the product of a stream word and `more + 1`, the first whose low half is
within the zone. The stream ends after `fuel` words, and the draw is zero then. -/
def scale (more zone : Nat) : (fuel : Nat) → Keystream → Fin (more + 1) × Keystream
  | 0, s => (0, s)
  | fuel + 1, s =>
    let (v, s) := s.next
    -- The high half is at most `more`, since `v` has 32 bits.
    let product := v.toNat * (more + 1)
    if product % UInt32.size ≤ zone then (Fin.ofNat (more + 1) (product / UInt32.size), s)
    else scale more zone fuel s

/-- The zone of a weight: the most low halves that `n` values share evenly. -/
def weightZone (n : Nat) : Nat := UInt32.size - 1 - UInt32.size % n

/-- The zone of a position: `n` doubled as often as it stays within 32 bits. -/
def positionZone (n : Nat) : Nat := n <<< (31 - n.log2) - 1

instance : Source Keystream where
  weight max s := scale max (weightZone (max + 1)) period s
  position more s := scale more (positionZone (more + 1)) period s

end Keystream

end KeywordHash
