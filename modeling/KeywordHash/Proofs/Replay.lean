import KeywordHash.Proofs.Separation

/-!
# Searches played from the words of the keystream

Whether a search succeeds can only be said by running it, and the search itself runs on arrays that
the kernel is slow to evaluate. `search?` plays the first attempt of a search from a list of words
of the stream: weights are a list of settings, hashes that have been met are the bits of a number,
and a draw takes words from the front of the list, failing where there are none left. What it
answers is what the search answers when the keystream starts with these words (`run_of_search?`). So
a vocabulary whose search wins when it is played from the first words of the keystream has a table
(`exists_generate_of_search?`).
-/

namespace KeywordHash.Replay

open Search

/-! ## Hashes as bits -/

/-- Adds a hash to a set of hashes, kept as the bits of a number. -/
def mark (mask hash : Nat) : Nat := mask ||| 1 <<< hash

/-- The hashes of a list that are in the set or come earlier in the list, counted. -/
def clashes : Nat → List Nat → Nat
  | _, [] => 0
  | mask, hash :: rest =>
    if mask.testBit hash then clashes mask rest + 1 else clashes (mark mask hash) rest

/-- The set of the hashes of a list that are in a set or come twice in the list. -/
def shared : Nat → List Nat → Nat
  | _, [] => 0
  | mask, hash :: rest =>
    if mask.testBit hash then mark (shared mask rest) hash else shared (mark mask hash) rest

/-- A hash is in a set that was added to if it is the added one or was in before. -/
theorem testBit_mark (mask hash j : Nat) :
    (mark mask hash).testBit j = true ↔ mask.testBit j = true ∨ hash = j := by
  rw [mark, Nat.testBit_or, Nat.one_shiftLeft, Nat.testBit_two_pow, Bool.or_eq_true,
    decide_eq_true_iff]

/-- The hashes that are marked are in the set. -/
theorem testBit_foldl_mark (hashes : List Nat) (mask j : Nat) :
    (hashes.foldl mark mask).testBit j = true ↔ mask.testBit j = true ∨ j ∈ hashes := by
  induction hashes generalizing mask with
  | nil => simp
  | cons hash rest ih =>
    rw [List.foldl_cons, ih, testBit_mark, List.mem_cons, or_assoc, eq_comm (a := hash)]

/-- The shared hashes of a list are those that come twice or, with a set, are in it and come. -/
theorem testBit_shared (hashes : List Nat) (mask j : Nat) :
    (shared mask hashes).testBit j = true
      ↔ (mask.testBit j = true ∧ j ∈ hashes) ∨ 1 < hashes.count j := by
  induction hashes generalizing mask with
  | nil => simp [shared]
  | cons hash rest ih =>
    have hpos : 0 < rest.count j ↔ j ∈ rest := List.count_pos_iff
    by_cases hj : hash = j
    · subst hj
      unfold shared
      split_ifs with hmask
      · simp [testBit_mark, hmask]
      · rw [ih, testBit_mark, List.count_cons_self]
        simp only [← hpos, or_true, true_and, hmask, Bool.false_eq_true, false_and, false_or]
        omega
    · have hcount : (hash :: rest).count j = rest.count j := List.count_cons_of_ne hj
      have hmem : j ∈ hash :: rest ↔ j ∈ rest := by
        rw [List.mem_cons]
        exact or_iff_right fun h => hj h.symm
      unfold shared
      rw [hcount, hmem]
      split_ifs
      · rw [testBit_mark, ih]
        exact or_iff_left hj
      · rw [ih, testBit_mark]
        simp only [hj, or_false]

/-- A set holds the hashes that a tally has counted. -/
def Shows (mask : Nat) (t : Tally) : Prop := ∀ j, mask.testBit j = true ↔ t.count j ≠ 0

/-- The empty set shows the empty tally. -/
theorem shows_empty (bound : Nat) : Shows 0 (Tally.empty bound) := by
  intro j
  simp [Tally.count_empty]

/-- Adding to the set and to the tally keeps what the set shows. -/
theorem Shows.mark {mask hash : Nat} {t : Tally} (h : Shows mask t)
    (hhash : hash < t.counts.size) : Shows (mark mask hash) (t.add hash) := by
  intro j
  have hj := h j
  rw [testBit_mark, Tally.count_add hhash, hj]
  split_ifs with heq
  · simp [heq]
  · simp [heq]

/-- So does adding hashes in turn. -/
theorem Shows.foldl {hashes : List Nat} {mask : Nat} {t : Tally} (h : Shows mask t)
    (hhashes : ∀ hash ∈ hashes, hash < t.counts.size) :
    Shows (hashes.foldl Replay.mark mask) (hashes.foldl Tally.add t) := by
  intro j
  rw [testBit_foldl_mark, Tally.count_foldl_add hhashes, h j, ← List.count_pos_iff]
  omega

/-- The clashes that piling hashes up comes to are counted on the set that the tally shows. -/
theorem clashes_foldl_add {hashes : List Nat} {mask : Nat} {p : Pile} (h : Shows mask p.tally)
    (hhashes : ∀ hash ∈ hashes, hash < p.tally.counts.size) :
    (hashes.foldl Pile.add p).clashes = p.clashes + clashes mask hashes := by
  induction hashes generalizing mask p with
  | nil => rfl
  | cons hash rest ih =>
    obtain ⟨hhead, hrest⟩ := List.forall_mem_cons.1 hhashes
    have hlater : ∀ hash' ∈ rest, hash' < (p.add hash).tally.counts.size := by
      intro hash' hmem
      exact (hrest hash' hmem).trans_eq (Tally.size_add _ _).symm
    have hshows : Shows (Replay.mark mask hash) (p.add hash).tally := h.mark hhead
    rw [List.foldl_cons, clashes]
    split_ifs with hmask
    · have hcount : p.tally.count hash ≠ 0 := (h hash).1 hmask
      have hsame : Shows mask (p.add hash).tally := by
        intro j
        rw [← hshows j, testBit_mark]
        exact ⟨.inl, fun hor => hor.elim id fun heq => heq ▸ hmask⟩
      rw [ih hsame hlater]
      simp only [Pile.add, hcount, if_false]
      omega
    · have hcount : p.tally.count hash = 0 := by
        by_contra hne
        exact hmask ((h hash).2 hne)
      rw [ih hshows hlater]
      simp only [Pile.add, hcount, if_true]

/-- The set of hashes below a bound shows their pile. -/
theorem shows_ofHashes {bound : Nat} {hashes : List Nat} (h : ∀ hash ∈ hashes, hash < bound) :
    Shows (hashes.foldl mark 0) (Pile.ofHashes bound hashes).tally := by
  rw [Pile.tally_ofHashes]
  exact (shows_empty bound).foldl (by rwa [Tally.size_empty])

/-- The pile of hashes below a bound has the clashes that are counted from the empty set. -/
theorem clashes_ofHashes {bound : Nat} {hashes : List Nat} (h : ∀ hash ∈ hashes, hash < bound) :
    (Pile.ofHashes bound hashes).clashes = clashes 0 hashes := by
  have hempty : Shows 0 (Pile.mk 0 (Tally.empty bound)).tally := shows_empty bound
  rw [Pile.ofHashes_eq_foldl, clashes_foldl_add hempty (by rwa [Tally.size_empty]), Nat.zero_add]

/-- The clashes that a weight leaves are those of the pile and those of the movers on the set that
the pile shows. -/
theorem trial_fst {movers : List Mover} {p : Pile} {mask weight : Nat} (h : Shows mask p.tally)
    (hlanding : ∀ m ∈ movers, m.landing weight < p.tally.counts.size) :
    (trial movers p weight).1 = p.clashes + clashes mask (movers.map (·.landing weight)) := by
  rw [trial_clashes]
  exact clashes_foldl_add h (List.forall_mem_map.2 hlanding)

/-! ## Draws -/

/-- The words are the next ones of a keystream. -/
def Yields : Keystream → List Nat → Prop
  | _, [] => True
  | s, v :: rest => s.next.1.toNat = v ∧ Yields s.next.2 rest

/-- The keystream goes on with the words of a tape, which is not longer than the stream. -/
structure Follows (tape : List Nat) (s : Keystream) : Prop where
  /-- The words come next. -/
  yields : Yields s tape
  /-- They are not more than there are. -/
  short : tape.length ≤ Keystream.period

/-- A draw from a tape, with the tape behind it. -/
def draw? (more zone : Nat) : List Nat → Option (Nat × List Nat)
  | [] => none
  | v :: rest =>
    let product := v * (more + 1)
    if product % UInt32.size ≤ zone then some (product / UInt32.size, rest)
    else draw? more zone rest

/-- An element of a list that is picked from a tape. -/
def choose? {α : Type} (list : List α) (tape : List Nat) : Option (α × List Nat) := do
  let (i, tape) ← draw? (list.length - 1) (Keystream.positionZone list.length) tape
  let x ← list[i]?
  return (x, tape)

/-- What is drawn from a tape is drawn from a keystream that goes on with it. -/
theorem scale_of_draw? {more zone i : Nat} {tape rest : List Nat} {s : Keystream} {fuel : Nat}
    (hs : Yields s tape) (hfuel : tape.length ≤ fuel) (h : draw? more zone tape = some (i, rest)) :
    (Keystream.scale more zone fuel s).1.val = i ∧
      Yields (Keystream.scale more zone fuel s).2 rest ∧ rest.length ≤ tape.length := by
  induction tape generalizing s fuel with
  | nil => contradiction
  | cons v tape ih =>
    obtain ⟨hv, hnext⟩ := hs
    rcases fuel with _ | fuel
    · contradiction
    · have hlength : tape.length ≤ fuel := Nat.le_of_succ_le_succ hfuel
      have hlt : v < UInt32.size := hv ▸ s.next.1.toNat_lt
      unfold draw? at h
      unfold Keystream.scale
      dsimp only at h ⊢
      rw [hv]
      split_ifs at h ⊢ with hzone
      · obtain ⟨rfl, rfl⟩ := Prod.mk.inj (Option.some.inj h)
        have hdiv : v * (more + 1) / UInt32.size < more + 1 := by
          rw [Nat.div_lt_iff_lt_mul (by decide), Nat.mul_comm (more + 1)]
          exact Nat.mul_lt_mul_of_pos_right hlt (Nat.succ_pos more)
        exact ⟨Nat.mod_eq_of_lt hdiv, hnext, Nat.le_succ _⟩
      · obtain ⟨hvalue, hyields, hrest⟩ := ih hnext hlength h
        exact ⟨hvalue, hyields, Nat.le_succ_of_le hrest⟩

/-- What is picked from a tape is picked from a keystream that goes on with it. -/
theorem choose_of_choose? {α : Type} {list : List α} {x : α} {tape rest : List Nat}
    {s : Keystream} (hs : Follows tape s) (h : choose? list tape = some (x, rest)) :
    ∃ s', Source.choose list s = (some x, s') ∧ Follows rest s' := by
  simp only [choose?, Option.bind_eq_bind, Option.bind_eq_some_iff, Option.pure_def,
    Option.some.injEq, Prod.exists, Prod.mk.injEq] at h
  obtain ⟨i, tape', hdraw, x', hx, rfl, rfl⟩ := h
  rcases list with _ | ⟨y, list⟩
  · contradiction
  · rw [List.length_cons, Nat.add_sub_cancel] at hdraw
    obtain ⟨hvalue, hyields, hlength⟩ := scale_of_draw? hs.yields hs.short hdraw
    obtain ⟨hi, rfl⟩ := List.getElem?_eq_some_iff.1 hx
    rcases hposition : Keystream.scale list.length (Keystream.positionZone (list.length + 1))
      Keystream.period s with ⟨position, s'⟩
    rw [hposition] at hvalue hyields
    have hchoose : Source.choose (y :: list) s = (some ((y :: list).get position), s') := by
      have hdrawn : Source.position list.length s = (position, s') := hposition
      simp only [Source.choose, hdrawn]
    refine ⟨s', ?_, ⟨hyields, hlength.trans hs.short⟩⟩
    rw [hchoose, List.get_eq_getElem]
    exact congrArg (fun x => (some x, s')) (getElem_congr_idx hvalue)

/-! ## The tape of a seed -/

/-- The words of as many blocks, from the one with a given number on. -/
def words (key : Vector UInt32 8) : (blocks : Nat) → (counter : UInt64) → List Nat
  | 0, _ => []
  | blocks + 1, counter =>
    (Keystream.blockAt key counter).toList.map UInt32.toNat ++ words key blocks (counter + 1)

/-- Blocks have sixteen words each. -/
theorem length_words (key : Vector UInt32 8) (blocks : Nat) (counter : UInt64) :
    (words key blocks counter).length = blocks * 16 := by
  induction blocks generalizing counter with
  | zero => rfl
  | succ blocks ih =>
    rw [words, List.length_append, List.length_map, Vector.length_toList, ih, Nat.succ_mul,
      Nat.add_comm]

/-- A keystream goes on with the words that are left of its block, and then with what it goes on
with when none are left. -/
theorem yields_block {s : Keystream} {tape : List Nat} (hused : s.used ≤ 16)
    (h : Yields { s with used := 16 } tape) :
    Yields s ((s.block.toList.drop s.used).map UInt32.toNat ++ tape) := by
  obtain ⟨left, hleft⟩ : ∃ left, s.used + left = 16 := ⟨16 - s.used, by omega⟩
  induction left generalizing s with
  | zero =>
    obtain ⟨key, counter, block, n⟩ := s
    obtain rfl : n = 16 := hleft
    rwa [List.drop_eq_nil_of_le (by simp)]
  | succ left ih =>
    have hlt : s.used < 16 := by omega
    have hnext : s.next = (s.block[s.used], { s with used := s.used + 1 }) := by
      rw [Keystream.next, dif_pos hlt]
    have hlater := ih (s := { s with used := s.used + 1 }) hlt h (by dsimp only; omega)
    rw [List.drop_eq_getElem_cons (by simpa using hlt)]
    refine ⟨?_, ?_⟩
    · rw [hnext]
      simp
    · rw [hnext]
      exact hlater

/-- A used up block gives way to the next. -/
theorem next_of_used {s : Keystream} (hused : s.used = 16) :
    s.next = Keystream.next
      { s with
        counter := s.counter + 1
        block := Keystream.blockAt s.key (s.counter + 1)
        used := 0 } := by
  rw [Keystream.next, dif_neg (by omega)]
  rfl

/-- A keystream with a used up block goes on with the words of the next blocks. -/
theorem yields_words (blocks : Nat) {s : Keystream} (hused : s.used = 16) :
    Yields s (words s.key blocks (s.counter + 1)) := by
  induction blocks generalizing s with
  | zero => exact trivial
  | succ blocks ih =>
    have hsame : ∀ {s s' : Keystream} {tape : List Nat}, s.next = s'.next → Yields s' tape →
        Yields s tape := by
      intro s s' tape hnext h
      rcases tape with _ | ⟨v, rest⟩
      · exact trivial
      · rwa [Yields, hnext]
    exact hsame (next_of_used hused) (yields_block (Nat.zero_le 16) (ih rfl))

/-- The keystream of a seed starts with the words of its first blocks. -/
theorem follows_ofSeed (seed : UInt64) {blocks : Nat} (h : blocks ≤ UInt64.size) :
    Follows (words (Keystream.keyOfSeed seed) blocks 0) (Keystream.ofSeed seed) := by
  refine ⟨?_, ?_⟩
  · rcases blocks with _ | blocks
    · exact trivial
    · exact yields_block (Nat.zero_le 16) (yields_words blocks rfl)
  · rw [length_words]
    exact Nat.mul_le_mul_right 16 h

/-! ## Settings -/

/-- The weights that were given to indices, the last in front. -/
abbrev Settings := List (Index × Nat)

namespace Settings

/-- The association with the settings; an index without one has weight zero. -/
def association : Settings → Association
  | [] => .filled 0
  | (i, value) :: rest => (association rest).set i (UInt16.ofNat value)

/-- The weight of an index. -/
def weight : Settings → Index → Nat
  | [], _ => 0
  | (i, value) :: rest, j => if i.val = j.val then value % UInt16.size else weight rest j

/-- The hash of a key. -/
def hash (s : Settings) (k : Key) : Nat :=
  k.indices.foldl (fun sum i => sum + s.weight i) k.length

/-- The weight of an index is the one that the association has. -/
theorem weight_association (s : Settings) (j : Index) : s.association.weight j = s.weight j := by
  induction s with
  | nil => exact Association.weight_filled 0 j
  | cons setting rest ih =>
    obtain ⟨i, value⟩ := setting
    rw [association, Association.weight_set, ih, Settings.weight, UInt16.toNat_ofNat']
    simp only [Fin.ext_iff]

/-- The hash of a key is the one under the association. -/
theorem hash_association (s : Settings) (k : Key) : k.hash s.association = s.hash k := by
  unfold Key.hash Settings.hash
  simp only [weight_association]

end Settings

/-! ## The walk -/

/-- The keys that share their hash with another. -/
def colliding (keys : List Key) (s : Settings) : List Key :=
  let twice := shared 0 (keys.map s.hash)
  keys.filter fun k => twice.testBit (s.hash k)

/-- The hashes of the keys that do not read an index. -/
def staying (keys : List Key) (s : Settings) (i : Index) : List Nat :=
  (keys.filter fun k => k.multiplicity i = 0).map s.hash

/-- The keys that read an index, as movers. -/
def moving (keys : List Key) (s : Settings) (i : Index) : List Mover :=
  (keys.filter fun k => k.multiplicity i ≠ 0).map fun k =>
    ⟨s.hash k - k.multiplicity i * s.weight i, k.multiplicity i⟩

/-- The weights up to `max` that leave the fewest clashes. -/
def best (keys : List Key) (max : Nat) (s : Settings) (i : Index) : List Nat :=
  let hashes := staying keys s i
  let movers := moving keys s i
  let before := clashes 0 hashes
  let mask := hashes.foldl mark 0
  ((List.range (max + 1)).foldl (fun (l : Leaders) weight =>
      l.consider weight (before + clashes mask (movers.map (·.landing weight))))
    ⟨keys.length + 1, []⟩).weights.reverse

/-- One step of a walk that is played from a tape. -/
def move? (keys : List Key) (max : Nat) (s : Settings) (tape : List Nat) :
    Option (Settings × List Nat) := do
  let (k, tape) ← choose? (colliding keys s) tape
  let (i, tape) ← choose? k.indices tape
  let (weight, tape) ← choose? (best keys max s i) tape
  return ((i, weight) :: s, tape)

/-- A walk that is played from a tape until no keys collide. -/
def walk? (keys : List Key) (max : Nat) : (budget : Nat) → Settings → List Nat → Option Settings
  | 0, _, _ => none
  | budget + 1, s, tape =>
    if (colliding keys s).isEmpty then some s
    else do
      let (s, tape) ← move? keys max s tape
      walk? keys max budget s tape

variable {keys : List Key} {max : Nat} {s : Settings}

/-- The keys that collide in a walk are those that collide in its play. -/
theorem colliding_eq (hkeys : Short keys) (hs : s.association.AtMost max) :
    Search.colliding (hashBound keys max) keys s.association = colliding keys s := by
  rw [colliding_eq_filter (hash_lt_bound hkeys hs)]
  refine List.filter_congr fun k hk => ?_
  have hshared := testBit_shared (keys.map s.hash) 0 (s.hash k)
  simp only [Nat.zero_testBit, Bool.false_eq_true, false_and, false_or] at hshared
  simp only [s.hash_association, ← hshared, Bool.decide_eq_true]

/-- The movers of a walk are those of its play. -/
theorem movers_eq (keys : List Key) (s : Settings) (i : Index) :
    movers keys s.association i = moving keys s i := by
  simp only [Search.movers_eq, moving, s.hash_association, s.weight_association]

/-- The keys that a walk leaves where they are have the hashes that they have in its play. -/
theorem stationary_eq (bound : Nat) (keys : List Key) (s : Settings) (i : Index) :
    stationary bound keys s.association i = Pile.ofHashes bound (staying keys s i) := by
  simp only [Search.stationary_eq, staying, s.hash_association]

/-- The weights that leave the fewest clashes in a walk are those that do in its play. -/
theorem best_eq (hkeys : Short keys) (hs : s.association.AtMost max) (hmax : max < UInt16.size)
    (i : Index) :
    Search.best (hashBound keys max) keys max s.association i = best keys max s i := by
  have hstaying : ∀ hash ∈ staying keys s i, hash < hashBound keys max := by
    intro hash hmem
    obtain ⟨k, hk, rfl⟩ := List.mem_map.1 hmem
    rw [← s.hash_association]
    exact hash_lt_bound hkeys hs k (List.mem_filter.1 hk).1
  have hlanding : ∀ weight ∈ List.range (max + 1), ∀ m ∈ moving keys s i,
      m.landing weight
        < (Pile.ofHashes (hashBound keys max) (staying keys s i)).tally.counts.size := by
    intro weight hweight m hm
    rw [Pile.size_ofHashes]
    rw [← movers_eq] at hm
    exact landing_lt hkeys hs hmax i (Nat.le_of_lt_succ (List.mem_range.1 hweight)) m hm
  rw [Search.best_eq, best, movers_eq, stationary_eq, scores_eq_foldl hlanding]
  congr 2
  refine List.foldl_ext _ _ _ fun l weight hweight => ?_
  rw [trial_fst (shows_ofHashes hstaying) (hlanding weight hweight), clashes_ofHashes hstaying]

/-- A step that is played from a tape is the step of a keystream that goes on with it. -/
theorem step_of_move? (hkeys : Short keys) (hs : s.association.AtMost max)
    (hmax : max < UInt16.size) {tape rest : List Nat} {s' : Settings} {stream : Keystream}
    (hstream : Follows tape stream) (h : move? keys max s tape = some (s', rest)) :
    ∃ stream', step keys max s.association stream = (.moved s'.association, stream') ∧
      Follows rest stream' := by
  simp only [move?, Option.bind_eq_bind, Option.bind_eq_some_iff, Option.pure_def,
    Option.some.injEq, Prod.exists, Prod.mk.injEq] at h
  obtain ⟨k, tape₁, hkey, i, tape₂, hindex, weight, tape₃, hweight, rfl, rfl⟩ := h
  obtain ⟨stream₁, hkey, hstream₁⟩ := choose_of_choose? hstream hkey
  obtain ⟨stream₂, hindex, hstream₂⟩ := choose_of_choose? hstream₁ hindex
  obtain ⟨stream₃, hweight, hstream₃⟩ := choose_of_choose? hstream₂ hweight
  refine ⟨stream₃, ?_, hstream₃⟩
  rw [← colliding_eq hkeys hs] at hkey
  rw [← best_eq hkeys hs hmax] at hweight
  exact step_of_choose hkey hindex hweight

/-- A walk that is played from a tape is the walk of a keystream that goes on with it. -/
theorem descend_of_walk? (hkeys : Short keys) (hmax : max < UInt16.size) {budget : Nat}
    (taken : Nat) {tape : List Nat} {s' : Settings} {stream : Keystream}
    (hs : s.association.AtMost max) (hstream : Follows tape stream)
    (h : walk? keys max budget s tape = some s') :
    ∃ steps stream', descend keys max budget taken s.association stream
      = (some (steps, s'.association), stream') := by
  induction budget generalizing taken s tape stream with
  | zero => contradiction
  | succ budget ih =>
    unfold walk? at h
    split_ifs at h with hsettled
    · obtain rfl := Option.some.inj h
      have hnone := (colliding_eq hkeys hs).trans (List.isEmpty_iff.1 hsettled)
      exact ⟨taken, stream, descend_of_settled (step_of_colliding_eq_nil hnone)⟩
    · simp only [Option.bind_eq_bind, Option.bind_eq_some_iff, Prod.exists] at h
      obtain ⟨s₁, rest, hmove, hrest⟩ := h
      obtain ⟨stream₁, hstep, hstream₁⟩ := step_of_move? hkeys hs hmax hstream hmove
      have hs₁ : s₁.association.AtMost max := step_atMost hs (congrArg Prod.fst hstep)
      obtain ⟨steps, stream', hdescend⟩ := ih (taken + 1) hs₁ hstream₁ hrest
      exact ⟨steps, stream', by rw [descend_of_moved hstep, hdescend]⟩

/-! ## The search -/

/-- Weights up to `max` for the given indices, drawn from a tape in turn. -/
def scatter? (max : Nat) : List Index → Settings → List Nat → Option (Settings × List Nat)
  | [], s, tape => some (s, tape)
  | i :: rest, s, tape => do
    let (weight, tape) ← draw? max (Keystream.weightZone (max + 1)) tape
    scatter? max rest ((i, weight) :: s) tape

/-- The indices that some key reads, found as a set. -/
def used (keys : List Key) : List Index :=
  let mask := (keys.flatMap fun k => k.indices.map Fin.val).foldl mark 0
  (List.finRange associationLength).filter fun i => mask.testBit i.val

/-- The settings that a search ends with if its first attempt, played from a tape, wins. -/
def search? (config : SearchConfig) (keys : List Key) (tape : List Nat) : Option Settings :=
  let max := min (Nat.max config.maxWeight.toNat 1) (weightLimit (Key.longest keys))
  if config.rounds = 0 ∨ config.restarts = 0 then none
  else do
    let (s, tape) ← scatter? max (used keys) [] tape
    let s ← walk? keys max config.iterations s tape
    if config.maxSpan.any (· ≤ ((keys.map s.hash).max?.getD 0)) then none else some s

/-- The weights that are played from a tape are those of a keystream that goes on with it. -/
theorem scatter_of_scatter? {indices : List Index} {tape rest : List Nat} {s' : Settings}
    {stream : Keystream} (hstream : Follows tape stream)
    (h : scatter? max indices s tape = some (s', rest)) :
    ∃ stream', scatter max indices s.association stream = (s'.association, stream') ∧
      Follows rest stream' := by
  induction indices generalizing s tape stream with
  | nil =>
    obtain ⟨rfl, rfl⟩ := Prod.mk.inj (Option.some.inj h)
    exact ⟨stream, rfl, hstream⟩
  | cons i indices ih =>
    simp only [scatter?, Option.bind_eq_bind, Option.bind_eq_some_iff, Prod.exists] at h
    obtain ⟨weight, tape₁, hdraw, hrest⟩ := h
    obtain ⟨hvalue, hyields, hlength⟩ := scale_of_draw? hstream.yields hstream.short hdraw
    obtain ⟨stream', hscatter, hstream'⟩ := ih ⟨hyields, hlength.trans hstream.short⟩ hrest
    refine ⟨stream', ?_, hstream'⟩
    rw [← hscatter, Settings.association, ← hvalue]
    rfl

/-- The indices that some key reads are those of the set. -/
theorem used_eq (keys : List Key) : Key.used keys = used keys := by
  unfold Key.used used
  refine List.filter_congr fun i _ => ?_
  rw [Bool.eq_iff_iff, testBit_foldl_mark]
  simp [Fin.val_inj]

/-- An attempt that wins when it is played from a tape wins with a keystream that goes on with the
tape. -/
theorem attempt_of_walk? {config : SearchConfig} {tape rest : List Nat} {start : Settings}
    {stream : Keystream} (hkeys : Short keys) (hmax : max < UInt16.size)
    (hstream : Follows tape stream) (hstart : scatter? max (used keys) [] tape = some (start, rest))
    (hwalk : walk? keys max config.iterations start rest = some s)
    (hspan : config.maxSpan.any (· ≤ Key.maxHash keys s.association) = false) :
    ∃ steps stream', attempt config keys max stream
      = (.found steps (Key.maxHash keys s.association) s.association, stream') := by
  obtain ⟨stream₁, hscatter, hstream₁⟩ := scatter_of_scatter? hstream hstart
  have hzero : Settings.association [] = .filled 0 := rfl
  rw [hzero, ← used_eq] at hscatter
  have hatMost : start.association.AtMost max := by
    have hdrawn := scatter_atMost (Key.used keys) stream (Association.atMost_zero max)
    rwa [hscatter] at hdrawn
  obtain ⟨steps, stream', hdescend⟩ :=
    descend_of_walk? hkeys hmax 0 hatMost hstream₁ hwalk
  refine ⟨steps, stream', ?_⟩
  rw [attempt_of_some (by rw [hscatter]; exact hdescend), hspan]
  rfl

/-- A search whose first attempt wins when it is played from a tape finds the same weights with a
keystream that goes on with the tape. -/
theorem run_of_search? {config : SearchConfig} {tape : List Nat} {stream : Keystream}
    (hkeys : Short keys) (hstream : Follows tape stream) (h : search? config keys tape = some s) :
    (run config keys stream).1
      = .ok (finish (Key.maxHash keys s.association) (Key.used keys) s.association) := by
  have hlimit := weightLimit_lt (Key.longest keys)
  unfold search? at h
  dsimp only at h
  split_ifs at h with hnone
  obtain ⟨hrounds, hrestarts⟩ := not_or.1 hnone
  obtain ⟨remaining, hremaining⟩ := Nat.exists_eq_succ_of_ne_zero hrounds
  obtain ⟨later, hlater⟩ := Nat.exists_eq_succ_of_ne_zero hrestarts
  simp only [Option.bind_eq_bind, Option.bind_eq_some_iff, Prod.exists] at h
  obtain ⟨start, rest, hstart, s', hwalk, hspan⟩ := h
  split_ifs at hspan with hwide
  obtain rfl := Option.some.inj hspan
  have hnarrow : config.maxSpan.any (· ≤ Key.maxHash keys s'.association) = false := by
    rw [Bool.not_eq_true] at hwide
    simpa only [Key.maxHash, s'.hash_association] using hwide
  obtain ⟨steps, stream', hattempt⟩ :=
    attempt_of_walk? hkeys (by omega) hstream hstart hwalk hnarrow
  obtain ⟨events, hround⟩ : ∃ events, attempts config keys
      (min (Max.max config.maxWeight.toNat 1) (weightLimit (Key.longest keys))) 0 config.restarts 0
      stream = (some (finish (Key.maxHash keys s'.association) (Key.used keys) s'.association),
        events, stream') := by
    rw [hlater]
    exact ⟨_, attempts_of_found hattempt⟩
  rw [run_eq, hremaining, rounds_of_some hround]

/-- Generation makes a table for a vocabulary whose search wins when it is played from the first
blocks of the keystream. -/
theorem exists_generate_of_search? {C : Type} [Code C] {config : SearchConfig} {v : Vocabulary C}
    {blocks : Nat} (hblocks : blocks ≤ UInt64.size)
    (h : (search? config v.keys (words (Keystream.keyOfSeed config.seed) blocks 0)).isSome = true) :
    ∃ t, (Table.generate config v).1 = .ok t := by
  obtain ⟨settings, hsettings⟩ := Option.isSome_iff_exists.1 h
  have hrun := run_of_search? (short_keys v.entries) (follows_ofSeed config.seed hblocks) hsettings
  exact (Table.exists_generateFrom_iff config v _).2 ⟨_, hrun⟩

end KeywordHash.Replay
