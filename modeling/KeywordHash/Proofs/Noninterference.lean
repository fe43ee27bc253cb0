import Mathlib.Data.List.Forall2
import KeywordHash.Proofs.MissWeight

/-!
# What generation sees of an entry

Generation never looks at a code, and of a text it sees the length and the first four bytes only.
Two entries that agree in these (`Entry.Akin`) have the same key, so they have the same signature
and the same hash under every association. Vocabularies of akin entries therefore have the same
list of keys, and the search, which is given nothing else, makes the same draws and ends alike. What
is left to compare is what comes before and after the search: the check for twins goes through both
lists in step (`twins?_rel`), and the placement sends akin entries to the same slots
(`parallel_place`). `generateFrom_concurs` puts this together.
-/

namespace KeywordHash

variable {C C' : Type}

/-! ## Akin entries -/

/-- The texts of two entries have the same length and the same first four bytes. Their codes may be
of different types. -/
structure Entry.Akin (e : Entry C) (e' : Entry C') : Prop where
  /-- The texts are equally long. -/
  length : e.word.length = e'.word.length
  /-- They start alike. -/
  front : e.word.take 4 = e'.word.take 4

namespace Entry.Akin

variable {e : Entry C} {e' : Entry C'}

/-- Akin entries have the same key. -/
theorem key (h : e.Akin e') : Key.ofWord e.word = Key.ofWord e'.word := by
  have hindices : Index.ofWord e.word = Index.ofWord e'.word := by
    unfold Index.ofWord keyPositions
    rw [h.front]
  rw [Key.ofWord, Key.ofWord, h.length, hindices]

/-- Akin entries have the same signature. -/
theorem signature (h : e.Akin e') : Signature.ofWord e.word = Signature.ofWord e'.word := by
  have hindices : Index.ofWord e.word = Index.ofWord e'.word := congrArg Key.indices h.key
  rw [Signature.ofWord, Signature.ofWord, h.length, hindices]

/-- Akin entries have the same hash under every association. -/
theorem hash (h : e.Akin e') (a : Association) : a.hash e.word = a.hash e'.word := by
  rw [Association.hash_eq_hash_ofWord, Association.hash_eq_hash_ofWord, h.key]

end Entry.Akin

/-- Lists whose elements are related in turn have the same values of two functions that agree on
related elements. -/
theorem map_eq_of_forall₂ {α β γ : Type} {R : α → β → Prop} {f : α → γ} {g : β → γ} {list : List α}
    {list' : List β} (h : List.Forall₂ R list list') (hfg : ∀ x y, R x y → f x = g y) :
    list.map f = list'.map g := by
  induction h with
  | nil => rfl
  | cons hhead _ ih => rw [List.map_cons, List.map_cons, hfg _ _ hhead, ih]

namespace Vocabulary

variable [Code C] [Code C']

/-- Two vocabularies have equally many entries, and those at the same position are akin. -/
def Akin (v : Vocabulary C) (v' : Vocabulary C') : Prop :=
  List.Forall₂ Entry.Akin v.entries v'.entries

/-- Entries at the same position of two vocabularies. -/
def Paired (v : Vocabulary C) (v' : Vocabulary C') (e : Entry C) (e' : Entry C') : Prop :=
  ∃ i : Nat, v.entries[i]? = some e ∧ v'.entries[i]? = some e'

variable {v : Vocabulary C} {v' : Vocabulary C'}

/-- Of akin vocabularies, the entries at the same position are akin. -/
theorem Akin.of_paired (h : v.Akin v') {e : Entry C} {e' : Entry C'} (hpair : v.Paired v' e e') :
    e.Akin e' := by
  obtain ⟨i, hi, hi'⟩ := hpair
  obtain ⟨hlt, rfl⟩ := List.getElem?_eq_some_iff.1 hi
  obtain ⟨hlt', rfl⟩ := List.getElem?_eq_some_iff.1 hi'
  exact h.get hlt hlt'

/-- The entries of akin vocabularies are paired in turn. -/
theorem Akin.forall₂_paired (h : v.Akin v') :
    List.Forall₂ (v.Paired v') v.entries v'.entries := by
  refine List.forall₂_iff_get.2 ⟨h.length_eq, fun i hi hi' => ⟨i, ?_, ?_⟩⟩
  · exact List.getElem?_eq_getElem hi
  · exact List.getElem?_eq_getElem hi'

/-- Akin vocabularies have the same keys. -/
theorem Akin.keys (h : v.Akin v') : v.keys = v'.keys :=
  map_eq_of_forall₂ h fun _ _ hakin => hakin.key

/-- Akin vocabularies have the same lengths of their texts. -/
theorem Akin.lengths (h : v.Akin v') :
    v.entries.map (·.word.length) = v'.entries.map (·.word.length) :=
  map_eq_of_forall₂ h fun _ _ hakin => hakin.length

/-- Akin vocabularies have the same hashes. -/
theorem Akin.hashes (h : v.Akin v') (a : Association) :
    (v.entries.map fun e => a.hash e.word) = v'.entries.map fun e => a.hash e.word :=
  map_eq_of_forall₂ h fun _ _ hakin => hakin.hash a

end Vocabulary

namespace Table

/-! ## The check before the search -/

/-- Related lists of signatures and entries, with the same signatures in turn, give related answers
to the question which entry was seen with a signature. -/
theorem find?_signature_rel {R : Entry C → Entry C' → Prop} {seen : List (Signature × Entry C)}
    {seen' : List (Signature × Entry C')}
    (hseen : List.Forall₂ (fun p p' => p.1 = p'.1 ∧ R p.2 p'.2) seen seen')
    (signature : Signature) :
    Option.Rel (fun p p' => R p.2 p'.2) (seen.find? fun p => p.1 = signature)
      (seen'.find? fun p => p.1 = signature) := by
  induction hseen with
  | nil => exact .none
  | @cons p p' rest rest' hhead _ ih =>
    obtain ⟨hsame, hrelated⟩ := hhead
    rw [List.find?_cons, List.find?_cons, hsame]
    split
    · exact .some hrelated
    · exact ih

/-- The check goes through lists of related entries in step, if related entries have the same
signature: it names related entries or none. -/
theorem twins?_rel {R : Entry C → Entry C' → Prop}
    (hR : ∀ x x', R x x' → Signature.ofWord x.word = Signature.ofWord x'.word)
    {seen : List (Signature × Entry C)} {seen' : List (Signature × Entry C')}
    (hseen : List.Forall₂ (fun p p' => p.1 = p'.1 ∧ R p.2 p'.2) seen seen')
    {entries : List (Entry C)} {entries' : List (Entry C')} (h : List.Forall₂ R entries entries') :
    Option.Rel (fun p p' => R p.1 p'.1 ∧ R p.2 p'.2) (twins? seen entries)
      (twins? seen' entries') := by
  induction h generalizing seen seen' with
  | nil => exact .none
  | @cons e e' rest rest' hhead _ ih =>
    have hsignature := hR e e' hhead
    have hfind := find?_signature_rel hseen (Signature.ofWord e'.word)
    simp only [twins?, hsignature]
    generalize seen.find? _ = found, seen'.find? _ = found' at hfind ⊢
    cases hfind with
    | none =>
      refine ih ?_
      exact .cons ⟨rfl, hhead⟩ hseen
    | some hrelated => exact .some ⟨hrelated, hhead⟩

/-! ## The placement -/

variable [Code C] [Code C'] {v : Vocabulary C} {v' : Vocabulary C'} {a : Association}

/-- Two tables for two vocabularies have the same association, the same figures, and the entries at
the same position of the vocabularies in the same slot. -/
structure Parallel (v : Vocabulary C) (v' : Vocabulary C') (t : Table C) (t' : Table C') :
    Prop where
  /-- The associations are equal. -/
  association : t.association = t'.association
  /-- The figures are equal. -/
  stats : t.stats = t'.stats
  /-- Entries at the same position are each in one slot, which is the same. -/
  slot : ∀ e e', v.Paired v' e e' →
    ∃ i, ∀ j, (t.slot? j = some e ↔ j = i) ∧ (t'.slot? j = some e' ↔ j = i)

/-- An entry of a placed table is in the slot of its hash and in no other. -/
theorem slot?_place_of_mem {t : Table C} (h : place v a = .ok t) {e : Entry C}
    (he : e ∈ v.entries) (j : Nat) : t.slot? j = some e ↔ j = a.hash e.word := by
  rw [slot?_place h]
  constructor
  · rintro ⟨-, hash⟩
    exact hash.symm
  · rintro rfl
    exact ⟨he, rfl⟩

/-- Akin vocabularies that are placed by the same association have parallel tables. -/
theorem parallel_place (h : v.Akin v') {t : Table C} {t' : Table C'} (ht : place v a = .ok t)
    (ht' : place v' a = .ok t') : Parallel v v' t t' := by
  obtain ⟨hmin, hmax, hfirst, htotal⟩ := figures_place ht
  obtain ⟨hmin', hmax', hfirst', htotal'⟩ := figures_place ht'
  have hlast := maxHashValue_place ht
  have hlast' := maxHashValue_place ht'
  refine ⟨(association_place ht).trans (association_place ht').symm, ?_, fun e e' hpair => ?_⟩
  · have hsize : v.size = v'.size := h.length_eq
    unfold stats
    rw [hmin, hmax, hfirst, htotal, hlast, hmin', hmax', hfirst', htotal', hlast', hsize,
      Vocabulary.minLength, Vocabulary.maxLength, smallestHash, largestHash, h.lengths, h.hashes]
    rfl
  · have hakin := h.of_paired hpair
    obtain ⟨n, hn, hn'⟩ := hpair
    refine ⟨a.hash e.word, fun j => ⟨?_, ?_⟩⟩
    · exact slot?_place_of_mem ht (List.mem_of_getElem? hn) j
    · rw [hakin.hash a]
      exact slot?_place_of_mem ht' (List.mem_of_getElem? hn') j

/-- Parallel tables are closed with the same events. -/
theorem closing_eq_of_parallel {t : Table C} {t' : Table C'} (h : Parallel v v' t t') :
    closing t = closing t' := by
  have htotal : t.totalKeywords = t'.totalKeywords := congrArg TableStats.totalKeywords h.stats
  have hlast : t.maxHashValue = t'.maxHashValue := congrArg TableStats.maxHashValue h.stats
  rw [closing, closing, htotal, hlast]

/-! ## The two runs -/

/-- What generation answers for two vocabularies where it cannot tell them apart. -/
inductive Concurs (v : Vocabulary C) (v' : Vocabulary C') :
    Except BuildError (Table C) → Except BuildError (Table C') → Prop
  /-- Two tables, which are parallel. -/
  | tables {t : Table C} {t' : Table C'} (parallel : Parallel v v' t t') :
    Concurs v v' (.ok t) (.ok t')
  /-- Two pairs of texts that cannot be told apart, at the same positions. -/
  | indistinguishable {x y : Entry C} {x' y' : Entry C'} (first : v.Paired v' x x')
    (second : v.Paired v' y y') :
    Concurs v v' (.error (.indistinguishable x.text y.text))
      (.error (.indistinguishable x'.text y'.text))
  /-- The same figures of a search that gave up. -/
  | exhausted {maxWeight attempts : Nat} :
    Concurs v v' (.error (.exhausted maxWeight attempts)) (.error (.exhausted maxWeight attempts))

/-- Where one answer is a table, so is the other. -/
theorem Concurs.exists_table {t : Table C} {answer : Except BuildError (Table C')}
    (h : Concurs v v' (.ok t) answer) : ∃ t', answer = .ok t' ∧ Parallel v v' t t' := by
  cases h with
  | @tables _ t' hparallel => exact ⟨t', rfl, hparallel⟩

/-- Akin vocabularies that pass the check are generated from in step. -/
theorem generateFrom_concurs_of_none {σ : Type} [Source σ] (h : v.Akin v')
    (htwins : twins? [] v.entries = none) (htwins' : twins? [] v'.entries = none)
    (config : SearchConfig) (s : σ) :
    Concurs v v' (generateFrom config v s).1 (generateFrom config v' s).1 ∧
      (generateFrom config v s).2 = (generateFrom config v' s).2 := by
  -- The search is given the keys and nothing else, so it is one search for both.
  rcases hrun : Search.run config v.keys s with ⟨error | a, events⟩
  · have hrun' : Search.run config v'.keys s = (.error error, events) := h.keys ▸ hrun
    rw [generateFrom_of_error htwins hrun, generateFrom_of_error htwins' hrun']
    refine ⟨?_, rfl⟩
    rcases Search.run_cases (Search.short_keys v.entries) s with ⟨_, _, hok⟩ | ⟨_, _, herror⟩
    · exact absurd ((congrArg Prod.fst hrun).symm.trans hok) (by simp)
    · obtain rfl := Except.error.inj ((congrArg Prod.fst hrun).symm.trans herror)
      exact .exhausted
  · have hrun' : Search.run config v'.keys s = (.ok a, events) := h.keys ▸ hrun
    obtain ⟨t, ht⟩ := place_ok_iff.2 (separates_of_run (congrArg Prod.fst hrun))
    obtain ⟨t', ht'⟩ := place_ok_iff.2 (separates_of_run (congrArg Prod.fst hrun'))
    have hparallel := parallel_place h ht ht'
    rw [generateFrom_of_ok htwins hrun ht, generateFrom_of_ok htwins' hrun' ht',
      closing_eq_of_parallel hparallel]
    exact ⟨.tables hparallel, rfl⟩

/-- Generation cannot tell akin vocabularies apart. Whatever the parameters and the draws are, it
makes tables of both, with the same association, the same figures and the entries in the same slots;
or it finds two texts of each that cannot be told apart, at the same positions; or it gives up on
both with the same figures. Its log is the same, too. -/
theorem generateFrom_concurs {σ : Type} [Source σ] (h : v.Akin v') (config : SearchConfig) (s : σ) :
    Concurs v v' (generateFrom config v s).1 (generateFrom config v' s).1 ∧
      (generateFrom config v s).2 = (generateFrom config v' s).2 := by
  have hcheck := twins?_rel (fun _ _ hpair => (h.of_paired hpair).signature) .nil h.forall₂_paired
  generalize htwins : twins? [] v.entries = found, htwins' : twins? [] v'.entries = found' at hcheck
  cases hcheck with
  | none => exact generateFrom_concurs_of_none h htwins htwins' config s
  | some hpairs =>
    obtain ⟨hfirst, hsecond⟩ := hpairs
    rw [generateFrom_of_twins htwins, generateFrom_of_twins htwins']
    exact ⟨.indistinguishable hfirst hsecond, rfl⟩

/-- Three mnemonics, one of them with five letters. -/
def longWords : Vocabulary Mnemonic where
  entries := [⟨"align", .align⟩, ⟨"nop", .nop⟩, ⟨"b", .b⟩]
  valid := Vocabulary.fault?_eq_none_iff.1 (by decide +kernel)

/-- Three numbered words that are akin to them. -/
def numberedWords : Vocabulary IntCode where
  entries := [⟨"alig\n", ⟨3⟩⟩, ⟨"nop", ⟨1⟩⟩, ⟨"b", ⟨-2⟩⟩]
  valid := Vocabulary.fault?_eq_none_iff.1 (by decide +kernel)

/-- The mnemonics and the numbered words have tables with the same association, and the words that
differ in the fifth byte and in the code have the same slot. -/
theorem generateFrom_longWords :
    longWords.Akin numberedWords ∧
      ∃ t t' i, (generate {} longWords).1 = .ok t ∧ (generate {} numberedWords).1 = .ok t' ∧
        t.association = t'.association ∧ t.slot? i = some ⟨"align", .align⟩ ∧
        t'.slot? i = some ⟨"alig\n", ⟨3⟩⟩ := by
  have hakin : longWords.Akin numberedWords :=
    .cons ⟨by decide +kernel, by decide +kernel⟩
      (.cons ⟨rfl, rfl⟩ (.cons ⟨rfl, rfl⟩ .nil))
  have hplay : (Replay.search? {} longWords.keys
      (Replay.words (Keystream.keyOfSeed ({} : SearchConfig).seed) 1 0)).isSome = true := by
    decide +kernel
  obtain ⟨t, ht⟩ := Replay.exists_generate_of_search? (by decide) hplay
  obtain ⟨hconcurs, -⟩ := generateFrom_concurs hakin {} (Keystream.ofSeed ({} : SearchConfig).seed)
  have htable : (generateFrom {} longWords (Keystream.ofSeed ({} : SearchConfig).seed)).1 = .ok t := ht
  rw [htable] at hconcurs
  obtain ⟨t', ht', hparallel⟩ := hconcurs.exists_table
  obtain ⟨i, hslot⟩ := hparallel.slot _ _ ⟨0, rfl, rfl⟩
  obtain ⟨hin, hin'⟩ := hslot i
  exact ⟨hakin, t, t', i, ht, ht', hparallel.association, hin.2 rfl, hin'.2 rfl⟩

end Table

end KeywordHash
