import KeywordHash.Proofs.Separation

/-!
# Twins

The signature of a word is all that associations see of it: not only do words with the same
signature hash alike under every association, words that hash alike under every association have
the same signature (`Signature.ofWord_eq_iff_forall_hash`). Weights of zero tell the lengths apart,
and a single weight of one counts how often its index is read. So the check before the search fails
exactly if two entries meet in every table. It stops at the first entry that has an earlier
companion, and as the entries in front of it are all different, there is one companion only
(`twins?_eq_some_iff`).
-/

namespace KeywordHash

/-! ## What associations see of a word -/

/-- Without weights the hash of a key is its length. -/
theorem Key.hash_filled_zero (k : Key) : k.hash (.filled 0) = k.length := by
  have hweights : k.indices.map (Association.filled 0).weight = k.indices.map fun _ => 0 :=
    List.map_congr_left fun i _ => Association.weight_filled 0 i
  rw [hash_eq, hweights, List.map_const', List.sum_replicate, smul_zero, Nat.add_zero]

/-- A single weight of one is counted as often as its index is read. -/
theorem Key.hash_set_one (k : Key) (i : Index) :
    k.hash ((Association.filled 0).set i 1) = k.length + k.multiplicity i := by
  have hone : (1 : UInt16).toNat = 1 := rfl
  have hzero : (0 : UInt16).toNat = 0 := rfl
  rw [hash_set, hash_filled_zero, Association.weight_filled, hone, hzero, Nat.mul_zero, Nat.mul_one,
    Nat.sub_zero]

/-- Two words have the same signature exactly if they hash alike under every association. -/
theorem Signature.ofWord_eq_iff_forall_hash {word word' : Word} :
    ofWord word = ofWord word' ↔ ∀ a : Association, a.hash word = a.hash word' := by
  constructor
  · intro h a
    exact Association.hash_eq_of_signature_eq h a
  · intro h
    have hkeys : ∀ a : Association, (Key.ofWord word).hash a = (Key.ofWord word').hash a := by
      intro a
      rw [← Association.hash_eq_hash_ofWord, ← Association.hash_eq_hash_ofWord]
      exact h a
    have hlength : (Key.ofWord word).length = (Key.ofWord word').length := by
      have hzero := hkeys (.filled 0)
      rwa [Key.hash_filled_zero, Key.hash_filled_zero] at hzero
    refine ofWord_eq_iff_multiplicity.2 ⟨hlength, fun i => ?_⟩
    have hone := hkeys ((Association.filled 0).set i 1)
    rw [Key.hash_set_one, Key.hash_set_one, hlength] at hone
    exact Nat.add_left_cancel hone

/-! ## The pair that the check names -/

namespace Table

variable {C : Type}

/-- Of entries in their order, `y` is the first that has an earlier one with its signature, and `x`
is that one; the entries in front of `y` are given. -/
structure FirstTwins (front : List (Entry C)) (x y : Entry C) : Prop where
  /-- No two entries in front have the same signature. -/
  different : front.Pairwise Tellable
  /-- The companion is in front. -/
  earlier : x ∈ front
  /-- It has the same signature. -/
  same : Signature.ofWord x.word = Signature.ofWord y.word
  /-- No other entry in front has. -/
  only : ∀ z ∈ front, Signature.ofWord z.word = Signature.ofWord y.word → z = x

/-- Of entries with different signatures, two with the same one are the same entry. -/
theorem eq_of_signature_eq {entries : List (Entry C)} (h : entries.Pairwise Tellable)
    {x y : Entry C} (hx : x ∈ entries) (hy : y ∈ entries)
    (hsame : Signature.ofWord x.word = Signature.ofWord y.word) : x = y := by
  have hnodup : (entries.map fun e => Signature.ofWord e.word).Nodup := List.pairwise_map.2 h
  exact List.inj_on_of_nodup_map hnodup hx hy hsame

/-- Behind different entries that were seen, the check names the first entry that has an earlier
companion, with the companion. -/
theorem twins?_eq_some_iff_of_seen {front entries : List (Entry C)} {x y : Entry C}
    (hfront : front.Pairwise Tellable) :
    twins? (front.map fun e => (Signature.ofWord e.word, e)).reverse entries = some (x, y) ↔
      ∃ before after, entries = before ++ y :: after ∧ FirstTwins (front ++ before) x y := by
  induction entries generalizing front with
  | nil => simp [twins?]
  | cons e rest ih =>
    rcases hfind : (front.map fun e => (Signature.ofWord e.word, e)).reverse.find? fun p =>
      decide (p.1 = Signature.ofWord e.word) with _ | p
    · -- The entry has no companion in front and is seen from now on.
      have hnew : ∀ z ∈ front, Signature.ofWord z.word ≠ Signature.ofWord e.word := by
        simpa using hfind
      have hlonger : (front ++ [e]).Pairwise Tellable := by
        refine List.pairwise_append.2 ⟨hfront, List.pairwise_singleton _ _, fun z hz e' he' => ?_⟩
        rw [List.mem_singleton.1 he']
        exact hnew z hz
      have hseen : (Signature.ofWord e.word, e)
            :: (front.map fun e => (Signature.ofWord e.word, e)).reverse
          = ((front ++ [e]).map fun e => (Signature.ofWord e.word, e)).reverse := by simp
      simp only [twins?, hfind]
      rw [hseen, ih hlonger]
      constructor
      · rintro ⟨before, after, rfl, htwins⟩
        rw [List.append_assoc] at htwins
        exact ⟨e :: before, after, rfl, htwins⟩
      · rintro ⟨before, after, hsplit, htwins⟩
        rcases before with _ | ⟨e', before⟩
        · obtain ⟨rfl, -⟩ := List.cons.inj hsplit
          rw [List.append_nil] at htwins
          exact absurd htwins.same (hnew x htwins.earlier)
        · obtain ⟨rfl, hrest⟩ := List.cons.inj hsplit
          refine ⟨before, after, hrest, ?_⟩
          rw [List.append_assoc]
          exact htwins
    · -- The entry has a companion in front, so the check ends here.
      have hsame : p.1 = Signature.ofWord e.word := by simpa using List.find?_some hfind
      have hmem := List.mem_of_find?_eq_some hfind
      rw [List.mem_reverse, List.mem_map] at hmem
      obtain ⟨z, hz, rfl⟩ := hmem
      simp only [twins?, hfind, Option.some.injEq, Prod.mk.injEq]
      constructor
      · rintro ⟨rfl, rfl⟩
        refine ⟨[], rest, rfl, ?_⟩
        rw [List.append_nil]
        exact ⟨hfront, hz, hsame, fun z' hz' hsame' =>
          eq_of_signature_eq hfront hz' hz (hsame'.trans hsame.symm)⟩
      · rintro ⟨before, after, hsplit, htwins⟩
        rcases before with _ | ⟨e', before⟩
        · obtain ⟨rfl, -⟩ := List.cons.inj hsplit
          rw [List.append_nil] at htwins
          exact ⟨htwins.only z hz hsame, rfl⟩
        · obtain ⟨rfl, -⟩ := List.cons.inj hsplit
          obtain ⟨-, -, hapart⟩ := List.pairwise_append.1 htwins.different
          exact absurd hsame (hapart z hz e List.mem_cons_self)

/-- The check names the first entry that has an earlier one with its signature, with that one. -/
theorem twins?_eq_some_iff {entries : List (Entry C)} {x y : Entry C} :
    twins? [] entries = some (x, y) ↔
      ∃ front after, entries = front ++ y :: after ∧ FirstTwins front x y := by
  have hnone : ([] : List (Entry C)).Pairwise Tellable := List.Pairwise.nil
  exact twins?_eq_some_iff_of_seen hnone

/-- The check fails exactly if two entries meet under every association. -/
theorem twins?_ne_none_iff {entries : List (Entry C)} :
    twins? [] entries ≠ none ↔
      ∃ x y, [x, y].Sublist entries ∧ ∀ a : Association, a.hash x.word = a.hash y.word := by
  rw [ne_eq, twins?_eq_none_iff, List.pairwise_iff_forall_sublist]
  constructor
  · intro h
    push Not at h
    obtain ⟨x, y, hsub, hsame⟩ := h
    have hsignature : Signature.ofWord x.word = Signature.ofWord y.word := not_not.1 hsame
    exact ⟨x, y, hsub, Signature.ofWord_eq_iff_forall_hash.1 hsignature⟩
  · rintro ⟨x, y, hsub, hmeet⟩ htellable
    exact htellable hsub (Signature.ofWord_eq_iff_forall_hash.2 hmeet)

variable [Code C]

/-- Generation reports two texts as indistinguishable exactly if they are those of the entries that
the check names. -/
theorem generateFrom_eq_indistinguishable_iff {σ : Type} [Source σ] {config : SearchConfig}
    {v : Vocabulary C} {s : σ} {first second : String} :
    (generateFrom config v s).1 = .error (.indistinguishable first second) ↔
      ∃ x y, twins? [] v.entries = some (x, y) ∧ x.text = first ∧ y.text = second := by
  rcases htwins : twins? [] v.entries with _ | ⟨x, y⟩
  · have htellable := twins?_eq_none_iff.1 htwins
    have hnone := mt (generateFrom_indistinguishable_iff config v s).1 (not_not.2 htellable)
    constructor
    · intro h
      exact absurd ⟨first, second, h⟩ hnone
    · rintro ⟨x, y, hsome, -⟩
      contradiction
  · have hresult : (generateFrom config v s).1 = .error (.indistinguishable x.text y.text) := by
      rw [generateFrom_of_twins htwins]
    rw [hresult]
    simp

/-- Two words, of any length, have the same signature exactly if they hash alike under every
association. So the check before the search fails exactly if two entries of the vocabulary meet
under every association, and it names the first entry that has an earlier one with its signature,
behind the only such one; generation then reports their texts, whatever the parameters and the draws
are. -/
theorem signature_exact :
    (∀ word word' : Word, Signature.ofWord word = Signature.ofWord word' ↔
        ∀ a : Association, a.hash word = a.hash word') ∧
      ∀ {C : Type} [Code C] (v : Vocabulary C),
        (twins? [] v.entries ≠ none ↔ ∃ x y, [x, y].Sublist v.entries ∧
          ∀ a : Association, a.hash x.word = a.hash y.word) ∧
        (∀ x y, twins? [] v.entries = some (x, y) ↔
          ∃ front after, v.entries = front ++ y :: after ∧ FirstTwins front x y) ∧
        ∀ {σ : Type} [Source σ] (config : SearchConfig) (s : σ) (first second : String),
          (generateFrom config v s).1 = .error (.indistinguishable first second) ↔
            ∃ x y, twins? [] v.entries = some (x, y) ∧ x.text = first ∧ y.text = second :=
  ⟨fun _ _ => Signature.ofWord_eq_iff_forall_hash, fun _ =>
    ⟨twins?_ne_none_iff, fun _ _ => twins?_eq_some_iff,
      fun _ _ _ _ => generateFrom_eq_indistinguishable_iff⟩⟩

end Table

end KeywordHash
