import Mathlib.Data.Fintype.Card
import Mathlib.Data.List.Sublists
import Mathlib.Tactic.LinearCombination
import Mathlib.Tactic.NormNum
import KeywordHash.Proofs.Generation

/-!
# Which vocabularies some association separates

Two words with the same signature hash alike under every association, so generation refuses a
vocabulary that has two (`twins?_eq_none_iff`). Nothing else stands in the way of up to 362 entries:
one association then separates all of them at once (`exists_separating`). Its weights are chosen
index by index. Once the weights of the first `n` indices are chosen, all pairs of keys that read
the other indices equally often are apart (`Apart`). The next weight has to set apart the pairs that
differ in its index and in none after it; each of them rules out one weight at most
(`eq_of_hash_set_eq`), and there are fewer pairs than weights (`exists_forall_pairs`).
-/

namespace KeywordHash

/-! ## Signatures -/

/-- Two words have the same signature exactly if they are equally long and read the same indices
equally often. -/
theorem Signature.ofWord_eq_iff {word word' : Word} :
    ofWord word = ofWord word' ↔
      word.length = word'.length ∧ (Index.ofWord word).Perm (Index.ofWord word') := by
  have hsort := fun w : Word => List.mergeSort_perm (Index.ofWord w) (fun i j => decide (i ≤ j))
  have hsorted : ∀ w : Word, ((Index.ofWord w).mergeSort).Pairwise fun i j => i ≤ j := by
    intro w
    have hle : ((Index.ofWord w).mergeSort).Pairwise fun i j => decide (i ≤ j) = true :=
      List.pairwise_mergeSort (by simpa using fun a b c => le_trans) (by simpa using le_total) _
    exact hle.imp of_decide_eq_true
  rw [ofWord, ofWord, Signature.mk.injEq]
  refine and_congr_right fun _ => ⟨fun h => ?_, fun h => ?_⟩
  · exact (hsort word).symm.trans (h ▸ hsort word')
  · have hperm := (hsort word).trans (h.trans (hsort word').symm)
    exact hperm.eq_of_pairwise (fun i j _ _ hij hji => le_antisymm hij hji)
      (hsorted word) (hsorted word')

/-- Two words have the same signature exactly if they are equally long and their keys read every
index equally often. -/
theorem Signature.ofWord_eq_iff_multiplicity {word word' : Word} :
    ofWord word = ofWord word' ↔ word.length = word'.length ∧
      ∀ i, (Key.ofWord word).multiplicity i = (Key.ofWord word').multiplicity i := by
  rw [ofWord_eq_iff, List.perm_iff_count]
  rfl

/-- Words with the same signature have the same hash, whatever the weights are. -/
theorem Association.hash_eq_of_signature_eq {word word' : Word}
    (h : Signature.ofWord word = Signature.ofWord word') (a : Association) :
    a.hash word = a.hash word' := by
  obtain ⟨hlength, hperm⟩ := Signature.ofWord_eq_iff.1 h
  rw [hash_eq_hash_ofWord, hash_eq_hash_ofWord]
  exact (Key.hash_eq_iff_of_perm hperm a).2 hlength

/-! ## The check before the search -/

namespace Table

variable {C : Type}

/-- Two entries have different signatures. -/
def Tellable (x y : Entry C) : Prop := Signature.ofWord x.word ≠ Signature.ofWord y.word

/-- The check passes exactly if no entry has the signature of an earlier one or of one seen
before. -/
theorem twins?_eq_none_iff_of_seen {seen : List (Signature × Entry C)} {entries : List (Entry C)} :
    twins? seen entries = none ↔
      (∀ e ∈ entries, ∀ p ∈ seen, p.1 ≠ Signature.ofWord e.word) ∧ entries.Pairwise Tellable := by
  induction entries generalizing seen with
  | nil => simp [twins?]
  | cons e rest ih =>
    rcases hfind : seen.find? fun p => decide (p.1 = Signature.ofWord e.word) with _ | p
    · have hnew : ∀ p ∈ seen, p.1 ≠ Signature.ofWord e.word := by
        simpa using hfind
      simp only [twins?, hfind, ih, List.forall_mem_cons, List.pairwise_cons]
      constructor
      · rintro ⟨hseen, hrest⟩
        exact ⟨⟨hnew, fun x hx => (hseen x hx).2⟩, fun x hx => (hseen x hx).1, hrest⟩
      · rintro ⟨⟨-, hseen⟩, he, hrest⟩
        exact ⟨fun x hx => ⟨he x hx, hseen x hx⟩, hrest⟩
    · have hsame : p.1 = Signature.ofWord e.word := by simpa using List.find?_some hfind
      have hmem := List.mem_of_find?_eq_some hfind
      simp only [twins?, hfind, reduceCtorEq, false_iff, not_and]
      intro hseen
      exact absurd hsame (hseen e List.mem_cons_self p hmem)

/-- The check passes exactly if all entries have different signatures. -/
theorem twins?_eq_none_iff {entries : List (Entry C)} :
    twins? [] entries = none ↔ entries.Pairwise Tellable := by
  rw [twins?_eq_none_iff_of_seen]
  simp

end Table

/-! ## Choosing a weight -/

/-- If each pair of a list rules out one value at most, and there are more values than pairs, then
some value suits all pairs. -/
theorem exists_forall_pairs {α β : Type} [Fintype β] {R : β → α → α → Prop} {list : List α}
    (hone : list.Pairwise fun x y => ∀ w w', ¬ R w x y → ¬ R w' x y → w = w')
    (hfew : list.length.choose 2 < Fintype.card β) : ∃ w, list.Pairwise (R w) := by
  by_contra hnone
  have hpair : ∀ w, ∃ k : Fin (list.sublistsLen 2).length,
      ∃ x y, (list.sublistsLen 2).get k = [x, y] ∧ ¬ R w x y := by
    intro w
    have hw := not_exists.1 hnone w
    rw [List.pairwise_iff_forall_sublist] at hw
    push Not at hw
    obtain ⟨x, y, hxy, hR⟩ := hw
    obtain ⟨k, hk⟩ := List.mem_iff_get.1 (List.mem_sublistsLen.2 ⟨hxy, rfl⟩)
    exact ⟨k, x, y, hk, hR⟩
  choose pair hruled using hpair
  have hinjective : Function.Injective pair := by
    intro w w' heq
    obtain ⟨x, y, hxy, hR⟩ := hruled w
    obtain ⟨x', y', hxy', hR'⟩ := hruled w'
    rw [heq, hxy', List.cons.injEq, List.cons.injEq] at hxy
    obtain ⟨rfl, rfl, -⟩ := hxy
    have hsub : [x', y'].Sublist list :=
      (List.mem_sublistsLen.1 (hxy' ▸ List.get_mem _ _)).1
    exact List.pairwise_iff_forall_sublist.1 hone hsub w w' hR hR'
  have hcard := Fintype.card_le_of_injective pair hinjective
  rw [Fintype.card_fin, List.length_sublistsLen] at hcard
  omega

namespace Key

/-- Two keys read all indices from number `n` on equally often. -/
def AgreeFrom (n : Nat) (k l : Key) : Prop :=
  ∀ i : Index, n ≤ i.val → k.multiplicity i = l.multiplicity i

/-- Two keys with different hashes, unless they still differ in an index from number `n` on. -/
def Apart (a : Association) (n : Nat) (k l : Key) : Prop := AgreeFrom n k l → k.hash a ≠ l.hash a

/-- Keys that agree from the first index on read the same indices. -/
theorem perm_of_agreeFrom_zero {k l : Key} (h : AgreeFrom 0 k l) : k.indices.Perm l.indices :=
  List.perm_iff_count.2 fun i => h i (Nat.zero_le i)

/-- Keys that agree in an index and are apart stay apart under any weight at the index. -/
theorem hash_set_ne {k l : Key} {a : Association} {i : Index}
    (hi : k.multiplicity i = l.multiplicity i) (hne : k.hash a ≠ l.hash a) (weight : UInt16) :
    k.hash (a.set i weight) ≠ l.hash (a.set i weight) := by
  have hk := multiplicity_mul_weight_le k a i
  have hl := multiplicity_mul_weight_le l a i
  rw [hash_set, hash_set, hi]
  rw [hi] at hk
  omega

/-- Keys that differ in an index hash alike under one weight at the index at most. -/
theorem eq_of_hash_set_eq {k l : Key} {a : Association} {i : Index} {w w' : UInt16}
    (hi : k.multiplicity i ≠ l.multiplicity i)
    (hw : k.hash (a.set i w) = l.hash (a.set i w))
    (hw' : k.hash (a.set i w') = l.hash (a.set i w')) : w = w' := by
  rw [hash_set, hash_set] at hw hw'
  generalize k.hash a - k.multiplicity i * a.weight i = restK at hw hw'
  generalize l.hash a - l.multiplicity i * a.weight i = restL at hw hw'
  -- The difference of the two equations, over the integers.
  have hproduct : ((k.multiplicity i : ℤ) - l.multiplicity i) * ((w.toNat : ℤ) - w'.toNat) = 0 := by
    have hwZ : (restK : ℤ) + k.multiplicity i * w.toNat = restL + l.multiplicity i * w.toNat := by
      exact_mod_cast hw
    have hwZ' :
        (restK : ℤ) + k.multiplicity i * w'.toNat = restL + l.multiplicity i * w'.toNat := by
      exact_mod_cast hw'
    linear_combination hwZ - hwZ'
  rcases mul_eq_zero.1 hproduct with hzero | hzero
  · exact absurd (by omega) hi
  · exact UInt16.toNat_inj.1 (by omega)

end Key

/-! ## One association for all -/

/-- If keys of the same length differ in an index, and there are fewer pairs of keys than weights,
then some weights at the first `n` indices set apart all keys that agree in the others. -/
theorem exists_apart {keys : List Key}
    (hdiffer : keys.Pairwise fun k l => k.length = l.length → ¬ Key.AgreeFrom 0 k l)
    (hfew : keys.length.choose 2 < UInt16.size) {n : Nat} (hn : n ≤ associationLength) :
    ∃ a : Association, keys.Pairwise (Key.Apart a n) := by
  induction n with
  | zero =>
    refine ⟨Association.filled 0, hdiffer.imp fun {k l} hkl hagree hhash => ?_⟩
    have hperm := Key.perm_of_agreeFrom_zero hagree
    exact hkl ((Key.hash_eq_iff_of_perm hperm _).1 hhash) hagree
  | succ n ih =>
    obtain ⟨a, ha⟩ := ih (Nat.le_of_succ_le hn)
    let i : Index := ⟨n, hn⟩
    have hone : keys.Pairwise fun k l => ∀ w w' : Fin UInt16.size,
        ¬ Key.Apart (a.set i (UInt16.ofFin w)) (n + 1) k l →
        ¬ Key.Apart (a.set i (UInt16.ofFin w')) (n + 1) k l → w = w' := by
      refine ha.imp fun {k l} hapart w w' hw hw' => ?_
      unfold Key.Apart at hw hw'
      push Not at hw hw'
      obtain ⟨hagree, hhash⟩ := hw
      have hi : k.multiplicity i ≠ l.multiplicity i := by
        intro hi
        have hagree' : Key.AgreeFrom n k l := by
          intro j hj
          rcases Nat.eq_or_lt_of_le hj with heq | hlt
          · have hij : i = j := Fin.ext heq
            exact hij ▸ hi
          · exact hagree j hlt
        exact Key.hash_set_ne hi (hapart hagree') _ hhash
      have hweight := Key.eq_of_hash_set_eq hi hhash hw'.2
      exact Fin.ext (by simpa using congrArg UInt16.toNat hweight)
    obtain ⟨w, hw⟩ := exists_forall_pairs hone (by simpa using hfew)
    exact ⟨a.set i (UInt16.ofFin w), hw⟩

namespace Table

variable {C : Type}

/-- Up to 362 entries with different signatures are separated by one association. -/
theorem exists_separating {entries : List (Entry C)} (hdiffer : entries.Pairwise Tellable)
    (hfew : entries.length ≤ 362) : ∃ a : Association, a.Separates entries := by
  have hkeys : (entries.map fun e => Key.ofWord e.word).Pairwise
      fun k l => k.length = l.length → ¬ Key.AgreeFrom 0 k l := by
    rw [List.pairwise_map]
    refine hdiffer.imp fun {x y} hxy hlength hagree => hxy ?_
    exact Signature.ofWord_eq_iff_multiplicity.2 ⟨hlength, fun i => hagree i (Nat.zero_le i)⟩
  have hpairs : (entries.map fun e => Key.ofWord e.word).length.choose 2 < UInt16.size := by
    rw [List.length_map]
    calc entries.length.choose 2 ≤ Nat.choose 362 2 := Nat.choose_le_choose 2 hfew
      _ = 65341 := by norm_num [Nat.choose_two_right]
      _ < UInt16.size := by decide
  obtain ⟨a, ha⟩ := exists_apart hkeys hpairs le_rfl
  refine ⟨a, (List.pairwise_map.1 ha).imp fun {x y} hxy => ?_⟩
  rw [Association.hash_eq_hash_ofWord, Association.hash_eq_hash_ofWord]
  -- No index is left from number 257 on.
  exact hxy fun i hi => absurd i.isLt (Nat.not_lt.2 hi)

/-- Entries that an association separates have different signatures. -/
theorem tellable_of_separates {a : Association} {entries : List (Entry C)}
    (h : a.Separates entries) : entries.Pairwise Tellable :=
  h.imp fun hne hsame => hne (Association.hash_eq_of_signature_eq hsame a)

variable [Code C]

/-- The weights that a search finds separate the entries. -/
theorem separates_of_run {σ : Type} [Source σ] {config : SearchConfig} {v : Vocabulary C} {s : σ}
    {a : Association} (h : (Search.run config v.keys s).1 = .ok a) : a.Separates v.entries := by
  obtain ⟨b, hwin, rfl⟩ := Search.exists_winning_of_run (Search.short_keys v.entries) h
  exact separates_finish _ hwin.distinct

/-- Generation reports two entries that cannot be told apart exactly if two have the same
signature. -/
theorem generateFrom_indistinguishable_iff {σ : Type} [Source σ] (config : SearchConfig)
    (v : Vocabulary C) (s : σ) :
    (∃ first second,
        (generateFrom config v s).1 = .error (.indistinguishable first second)) ↔
      ¬ v.entries.Pairwise Tellable := by
  rw [← twins?_eq_none_iff]
  rcases htwins : twins? [] v.entries with _ | ⟨first, second⟩
  · simp only [not_true_eq_false, iff_false, not_exists]
    intro first second hresult
    rw [generateFrom_fst htwins] at hresult
    -- The search ends with weights that can be placed, or exhausted.
    rcases hrun : (Search.run config v.keys s).1 with error | a
    · rcases Search.run_cases (Search.short_keys v.entries) s with ⟨_, _, hok⟩ | ⟨_, _, herror⟩
      · exact absurd (hrun.symm.trans hok) (by simp)
      · obtain rfl := Except.error.inj (hrun.symm.trans herror)
        rw [hrun, Except.bind] at hresult
        injection hresult with hexhausted
        contradiction
    · obtain ⟨t, ht⟩ := place_ok_iff.2 (separates_of_run hrun)
      rw [hrun, Except.bind, ht] at hresult
      contradiction
  · simp [generateFrom_of_twins htwins]

/-- Generation makes a table exactly if the search finds weights. -/
theorem exists_generateFrom_iff {σ : Type} [Source σ] (config : SearchConfig) (v : Vocabulary C)
    (s : σ) :
    (∃ t, (generateFrom config v s).1 = .ok t) ↔ ∃ a, (Search.run config v.keys s).1 = .ok a := by
  constructor
  · rintro ⟨t, ht⟩
    obtain ⟨a, ha, -⟩ := exists_run_of_generateFrom ht
    exact ⟨a, ha⟩
  · rintro ⟨a, ha⟩
    have hseparates := separates_of_run ha
    obtain ⟨t, ht⟩ := place_ok_iff.2 hseparates
    have htwins := twins?_eq_none_iff.2 (tellable_of_separates hseparates)
    exact ⟨t, by rw [generateFrom_fst htwins, ha, Except.bind, ht]⟩

/-- Every association fails to place a vocabulary exactly if none separates its entries. -/
theorem forall_place_error_iff {v : Vocabulary C} :
    (∀ a, ∃ error, place v a = .error error) ↔ ¬ ∃ a : Association, a.Separates v.entries := by
  constructor
  · rintro hfails ⟨a, ha⟩
    obtain ⟨t, ht⟩ := place_ok_iff.2 ha
    obtain ⟨error, herror⟩ := hfails a
    rw [ht] at herror
    contradiction
  · intro hnone a
    rcases hplace : place v a with error | t
    · exact ⟨error, rfl⟩
    · exact absurd ⟨a, place_ok_iff.1 ⟨t, hplace⟩⟩ hnone

/-- What it means that the check before the search refuses exactly the vocabularies that have no
table. -/
structure RefusedExactly (v : Vocabulary C) : Prop where
  /-- Whatever the parameters and the draws are, those of the seed (`generate`) among them,
  generation reports two entries that cannot be told apart exactly if no association makes a
  table. -/
  refused : ∀ {σ : Type} [Source σ] (config : SearchConfig) (s : σ),
    (∃ first second, (generateFrom config v s).1 = .error (.indistinguishable first second)) ↔
      ∀ a, ∃ error, place v a = .error error
  /-- If all entries have different signatures, one association separates all of them. -/
  separated : v.entries.Pairwise Tellable → ∃ a : Association, a.Separates v.entries

/-- The check before the search refuses exactly the vocabularies of up to 362 entries that have no
table. -/
theorem refusedExactly_of_size_le {v : Vocabulary C} (h : v.size ≤ 362) : RefusedExactly v := by
  have hseparated : v.entries.Pairwise Tellable ↔ ∃ a : Association, a.Separates v.entries :=
    ⟨fun htellable => exists_separating htellable h, fun ⟨_, ha⟩ => tellable_of_separates ha⟩
  have hrefused : ∀ {σ : Type} [Source σ] (config : SearchConfig) (s : σ),
      (∃ first second,
          (generateFrom config v s).1 = .error (.indistinguishable first second)) ↔
        ∀ a, ∃ error, place v a = .error error := by
    intro σ _ config s
    rw [generateFrom_indistinguishable_iff, forall_place_error_iff, hseparated]
  exact ⟨hrefused, hseparated.1⟩

end Table

/-- The mnemonics other than the invalid one are those listed. -/
theorem Mnemonic.mem_all_iff {m : Mnemonic} : m ∈ all ↔ m ≠ invalid := by
  cases m <;> decide

/-- No vocabulary has more entries than there are mnemonics for them. -/
theorem Vocabulary.size_le_of_mnemonic (v : Vocabulary Mnemonic) : v.size ≤ 82 := by
  have hnodup : (v.entries.map Entry.code).Nodup :=
    List.pairwise_map.2 (v.valid.distinct.imp And.right)
  have hsubset : v.entries.map Entry.code ⊆ Mnemonic.all := by
    intro m hm
    obtain ⟨e, he, rfl⟩ := List.mem_map.1 hm
    exact Mnemonic.mem_all_iff.2 (v.valid.admissible e he).valid
  have hlength := hnodup.length_le_of_subset hsubset
  rwa [List.length_map] at hlength

namespace Table

/-- Generation refuses exactly the vocabularies that have no table, among those of up to 362
entries and so among all vocabularies of mnemonics. -/
theorem refusal_exact :
    (∀ {C : Type} [Code C] (v : Vocabulary C), v.size ≤ 362 → RefusedExactly v) ∧
      ∀ v : Vocabulary Mnemonic, v.size ≤ 82 ∧ RefusedExactly v := by
  refine ⟨fun v h => refusedExactly_of_size_le h, fun v => ?_⟩
  have hsize := v.size_le_of_mnemonic
  exact ⟨hsize, refusedExactly_of_size_le (by omega)⟩

/-- The words `abb` and `aca` both read the indices of `a`, `b` and `c`, since the third byte reads
the index after its own. -/
def withTwins : Vocabulary Mnemonic where
  entries := [⟨"nop", .nop⟩, ⟨"abb", .add⟩, ⟨"aca", .b⟩]
  valid := Vocabulary.fault?_eq_none_iff.1 (by decide +kernel)

/-- The words `abb` and `aca` meet under every association, and generation names them. -/
theorem refused_withTwins :
    withTwins.size ≤ 362 ∧
      (generate {} withTwins).1 = .error (.indistinguishable "abb" "aca") ∧
      ∀ a, ∃ error, place withTwins a = .error error := by
  have hsize : withTwins.size ≤ 362 := by decide
  have hsame : Signature.ofWord (Word.ofText "abb") = Signature.ofWord (Word.ofText "aca") :=
    Signature.ofWord_eq_iff.2 (by decide +kernel)
  have hother : Signature.ofWord (Word.ofText "nop") ≠ Signature.ofWord (Word.ofText "aca") :=
    fun h => absurd (Signature.ofWord_eq_iff.1 h) (by decide +kernel)
  have htwins : twins? [] withTwins.entries = some (⟨"abb", .add⟩, ⟨"aca", .b⟩) := by
    simp [withTwins, twins?, Entry.word, hsame, hother]
  have hreport : (generate {} withTwins).1 = .error (.indistinguishable "abb" "aca") := by
    rw [generate, generateFrom_of_twins htwins]
  have hrefused := (refusal_exact.1 withTwins hsize).refused {}
    (Keystream.ofSeed ({} : SearchConfig).seed)
  exact ⟨hsize, hreport, hrefused.1 ⟨"abb", "aca", hreport⟩⟩

end Table

end KeywordHash
