import KeywordHash.Cli.Run
import KeywordHash.Proofs.Generation

/-!
# Entries that meet

Placing goes through the entries in their order and stops at the first whose slot is occupied. What
it has placed before is all that stands in front of that entry (`fill_eq_error_iff`), and these
entries have different hashes, so the one that holds the slot is the only one that could
(`FirstMeeting`). `place_eq_error_iff` says that the error names exactly these two. If no two
entries meet there is a table, and it holds what it should (`Arranged`): so neither its own check
nor that of the command line ever fails on a table that was placed (`runCheck_ne_unreachable`).
-/

namespace KeywordHash

variable {C : Type}

namespace Table

variable {a : Association}

/-! ## Where filling stops -/

/-- Entries are filled behind others into the slots that those leave. -/
theorem fill_append (front rest : List (Entry C)) (slots : Array (Option (Entry C))) :
    fill a (front ++ rest) slots = (fill a front slots).bind (fill a rest) := by
  induction front generalizing slots with
  | nil => rfl
  | cons x front ih =>
    rw [List.cons_append]
    rcases hslot : slots[a.hash x.word]?.join with _ | other
    · rw [fill_cons_of_none hslot, fill_cons_of_none hslot, ih]
    · rw [fill_cons_of_some hslot, fill_cons_of_some hslot]
      rfl

/-- Filling fails exactly if, with all entries in front of some entry filled, that entry's slot is
occupied. -/
theorem fill_eq_error_iff {entries : List (Entry C)} {slots : Array (Option (Entry C))}
    {error : BuildError} :
    fill a entries slots = .error error ↔
      ∃ front y after filled other, entries = front ++ y :: after ∧
        fill a front slots = .ok filled ∧ filled[a.hash y.word]?.join = some other ∧
        error = .collision other.text y.text (a.hash y.word) := by
  constructor
  · intro h
    induction entries generalizing slots with
    | nil => contradiction
    | cons x rest ih =>
      rcases hslot : slots[a.hash x.word]?.join with _ | other
      · rw [fill_cons_of_none hslot] at h
        obtain ⟨front, y, after, filled, other, rfl, hfront, hother, herror⟩ := ih h
        refine ⟨x :: front, y, after, filled, other, rfl, ?_, hother, herror⟩
        rw [fill_cons_of_none hslot]
        exact hfront
      · rw [fill_cons_of_some hslot] at h
        exact ⟨[], x, rest, slots, other, rfl, rfl, hslot, (Except.error.inj h).symm⟩
  · rintro ⟨front, y, after, filled, other, rfl, hfront, hother, rfl⟩
    rw [fill_append, hfront]
    exact fill_cons_of_some hother

/-! ## The pair that the error names -/

/-- Of entries in their order, `y` is the first that hashes like an earlier one, and `x` is that
one; the entries in front of `y` are given. -/
structure FirstMeeting (a : Association) (front : List (Entry C)) (x y : Entry C) : Prop where
  /-- No two entries in front hash alike. -/
  apart : a.Separates front
  /-- The other entry is in front. -/
  earlier : x ∈ front
  /-- It hashes like the first. -/
  meets : a.hash x.word = a.hash y.word
  /-- No other entry in front does. -/
  only : ∀ z ∈ front, a.hash z.word = a.hash y.word → z = x

variable [Code C] {v : Vocabulary C} {t : Table C}

/-- Placing fails with the error of filling. -/
theorem place_eq_error_iff_fill {error : BuildError} :
    place v a = .error error ↔
      fill a v.entries (Array.replicate (largestHash v a + 1) none) = .error error := by
  rcases hfill : fill a v.entries (Array.replicate (largestHash v a + 1) none) with error' | slots
  · rw [place_of_fill_error hfill, Except.error.injEq, Except.error.injEq]
  · rw [place_of_fill_ok hfill]
    simp only [reduceCtorEq]

/-- Placing fails exactly if two entries meet, and the error names the first that hashes like an
earlier one, behind that one, with their hash. -/
theorem place_eq_error_iff {error : BuildError} :
    place v a = .error error ↔
      ∃ front y after x, v.entries = front ++ y :: after ∧ FirstMeeting a front x y ∧
        error = .collision x.text y.text (a.hash y.word) := by
  have hfront : ∀ {front after : List (Entry C)} {y : Entry C},
      v.entries = front ++ y :: after → front ⊆ v.entries := by
    intro front after y hsplit
    rw [hsplit]
    exact List.subset_append_left _ _
  rw [place_eq_error_iff_fill, fill_eq_error_iff]
  constructor
  · rintro ⟨front, y, after, filled, x, hsplit, hfill, hx, herror⟩
    obtain ⟨hearlier, hmeets⟩ := (join_fill_free (hfront hsplit) hfill _ x).1 hx
    have hapart : a.Separates front := (fill_free_ok_iff (hfront hsplit)).1 ⟨filled, hfill⟩
    have honly : ∀ z ∈ front, a.hash z.word = a.hash y.word → z = x := by
      intro z hz hash
      exact hapart.eq_of_hash_eq hz hearlier (hash.trans hmeets.symm)
    exact ⟨front, y, after, x, hsplit, ⟨hapart, hearlier, hmeets, honly⟩, herror⟩
  · rintro ⟨front, y, after, x, hsplit, ⟨hapart, hearlier, hmeets, -⟩, herror⟩
    obtain ⟨filled, hfill⟩ := (fill_free_ok_iff (hfront hsplit)).2 hapart
    have hx := (join_fill_free (hfront hsplit) hfill _ x).2 ⟨hearlier, hmeets⟩
    exact ⟨front, y, after, filled, x, hsplit, hfill, hx, herror⟩

/-! ## What there is otherwise -/

/-- The code of every entry is found in its table. -/
theorem unresolved?_place [DecidableEq C] (h : place v a = .ok t) : t.unresolved? v = none := by
  unfold unresolved?
  rw [List.find?_eq_none]
  intro e he
  have hvalid := (v.valid.admissible e he).valid
  have hlookup : t.lookup e.word = e.code := (lookup_eq_iff h hvalid).2 ⟨e, he, rfl, rfl⟩
  simp [hlookup]

/-- What a table that an association arranges for a vocabulary holds and says of itself. -/
structure Arranged [DecidableEq C] (t : Table C) (v : Vocabulary C) (a : Association) : Prop where
  /-- A slot holds an entry exactly if the vocabulary has it and it hashes there. -/
  slot : ∀ i e, t.slot? i = some e ↔ e ∈ v.entries ∧ a.hash e.word = i
  /-- The occupied slots are listed in increasing order. -/
  sorted : t.placed.Pairwise fun p q => p.1 < q.1
  /-- Each entry is listed once, with its hash, and nothing else is. -/
  listed : t.placed.Perm (v.entries.map fun e => (a.hash e.word, e))
  /-- The first occupied slot is the one that the table says. -/
  first : IsLeast t.occupied t.minHashValue
  /-- The last occupied slot is the one that the table says. -/
  last : IsGreatest t.occupied t.maxHashValue
  /-- There is no slot behind it. -/
  size : t.slots.size = t.maxHashValue + 1
  /-- As many slots are occupied as the table says. -/
  count : t.slots.countP Option.isSome = t.totalKeywords
  /-- The table passes its own check. -/
  verified : t.verify = .ok ()
  /-- The code of every entry is found. -/
  resolved : t.unresolved? v = none

/-- A placed table is arranged. -/
theorem arranged_place [DecidableEq C] (h : place v a = .ok t) : t.Arranged v a where
  slot := slot?_place h
  sorted := placed_sorted t
  listed := placed_perm h
  first := isLeast_minHashValue h
  last := isGreatest_maxHashValue h
  size := size_slots_place h
  count := countP_isSome_place h
  verified := verify_place h
  resolved := unresolved?_place h

/-- Generation never reports an entry that is not found. -/
theorem generateFrom_ne_unreachable {σ : Type} [Source σ] (config : SearchConfig)
    (v : Vocabulary C) (s : σ) (text : String) :
    (generateFrom config v s).1 ≠ .error (.unreachable text) := by
  rcases htwins : twins? [] v.entries with _ | ⟨first, second⟩
  · rw [generateFrom_fst htwins]
    rcases hrun : (Search.run config v.keys s).1 with error | a
    · intro hunreachable
      obtain rfl := Except.error.inj hunreachable
      rcases Search.run_cases (Search.short_keys v.entries) s with ⟨_, _, hok⟩ | ⟨_, _, hexhausted⟩
      · exact absurd (hrun.symm.trans hok) (by simp)
      · exact absurd (hrun.symm.trans hexhausted) (by simp)
    · intro hunreachable
      obtain ⟨_, _, _, _, _, _, hcollision⟩ := place_eq_error_iff.1 hunreachable
      exact absurd hcollision (by simp)
  · simp [generateFrom_of_twins htwins]

end Table

/-! ## The check of the command line -/

section

variable {ε ε' α β : Type}

/-- An error of two computations in turn is one of the first or of the second. -/
theorem error_cases_of_bind {x : Except ε α} {f : α → Except ε β} {error : ε}
    (h : x >>= f = .error error) : x = .error error ∨ ∃ a, x = .ok a ∧ f a = .error error := by
  rcases x with error' | a
  · obtain rfl := Except.error.inj h
    exact .inl rfl
  · exact .inr ⟨a, rfl, h⟩

/-- A renamed error is an error under its old name. -/
theorem exists_error_of_mapError {x : Except ε α} {f : ε → ε'} {error : ε'}
    (h : x.mapError f = .error error) : ∃ error', x = .error error' ∧ f error' = error := by
  rcases x with error' | a
  · exact ⟨error', rfl, Except.error.inj h⟩
  · contradiction

end

namespace Cli

/-- The vocabulary of a command is had without building a table. -/
theorem loadVocabulary_ne_build (read : Reader) (definition? : Option String)
    (error : BuildError) : loadVocabulary read definition? ≠ .error (.build error) := by
  intro h
  rcases definition? with _ | path
  · contradiction
  · rcases error_cases_of_bind h with hfile | ⟨bytes, -, hrest⟩
    · obtain ⟨_, -, hfailure⟩ := exists_error_of_mapError hfile
      contradiction
    · rcases error_cases_of_bind hrest with htext | ⟨source, -, hparse⟩
      · obtain ⟨_, -, hfailure⟩ := exists_error_of_mapError htext
        contradiction
      · obtain ⟨_, -, hfailure⟩ := exists_error_of_mapError hparse
        contradiction

/-- A placed table passes the check. -/
theorem checkTable_place {v : Vocabulary Mnemonic} {a : Association} {t : Table Mnemonic}
    (h : Table.place v a = .ok t) : ∃ report, checkTable t v = .ok report := by
  unfold checkTable
  rw [Table.verify_place h, Table.unresolved?_place h]
  exact ⟨_, rfl⟩

/-- The check of a vocabulary never reports an entry that is not found. -/
theorem runCheck_ne_unreachable (v : Vocabulary Mnemonic) (text : String) :
    (runCheck v).1 ≠ .error (.build (.unreachable text)) := by
  intro h
  rcases error_cases_of_bind h with hgenerate | ⟨t, hgenerate, hcheck⟩
  · obtain ⟨error, herror, hfailure⟩ := exists_error_of_mapError hgenerate
    obtain rfl := Failure.build.inj hfailure
    exact Table.generateFrom_ne_unreachable _ _ _ _ herror
  · rcases htable : (Table.generate {} v).1 with error | t'
    · have herror : (withLog (Table.generate {} v)).1 = .error (.build error) := by
        rw [withLog, htable]
        rfl
      exact absurd (herror.symm.trans hgenerate) (by simp)
    · have hok : (withLog (Table.generate {} v)).1 = .ok t' := by
        rw [withLog, htable]
        rfl
      obtain rfl := Except.ok.inj (hok.symm.trans hgenerate)
      obtain ⟨a, -, hplace⟩ := Table.exists_run_of_generateFrom htable
      obtain ⟨report, hreport⟩ := checkTable_place hplace
      rw [hreport] at hcheck
      contradiction

/-- The command `check` never reports an entry that is not found. -/
theorem check_ne_unreachable (read : Reader) (definition? : Option String) (text : String) :
    ((Command.check definition?).run read).1 ≠ .error (.build (.unreachable text)) := by
  rcases hload : loadVocabulary read definition? with failure | v
  · simp only [Command.run, hload]
    intro h
    obtain rfl := Except.error.inj h
    exact loadVocabulary_ne_build read definition? _ hload
  · simp only [Command.run, hload]
    exact runCheck_ne_unreachable v text

end Cli

namespace Table

/-- Placing gives a table exactly if no two entries hash alike. Otherwise the error names the first
entry that hashes like an earlier one, behind the only such one, with their hash. A table is
arranged as the association says: each entry is in the slot of its hash and listed there once, the
figures are those of the slots, and every check of the table passes. So the command `check` never
reports an entry that is not found. -/
theorem place_exact :
    (∀ {C : Type} [DecidableEq C] [Code C] (v : Vocabulary C) (a : Association),
      ((∃ t, place v a = .ok t) ↔ a.Separates v.entries) ∧
      (∀ error, place v a = .error error ↔
        ∃ front y after x, v.entries = front ++ y :: after ∧ FirstMeeting a front x y ∧
          error = .collision x.text y.text (a.hash y.word)) ∧
      ∀ t, place v a = .ok t → t.Arranged v a) ∧
    ∀ (read : Cli.Reader) (definition? : Option String) (text : String),
      ((Cli.Command.check definition?).run read).1 ≠ .error (.build (.unreachable text)) :=
  ⟨fun _ _ => ⟨place_ok_iff, fun _ => place_eq_error_iff, fun _ => arranged_place⟩,
    Cli.check_ne_unreachable⟩

/-- The four words have a table, with `ld` in slot 12. With no weight for the letters `d` and `l`,
the words `bl` and `ld` meet in slot 2. -/
theorem place_fourWords :
    (∃ t, place fourWords fourWeights = .ok t ∧ t.slot? 12 = some ⟨"ld", .ld⟩ ∧
        t.slots.countP Option.isSome = t.totalKeywords ∧ t.verify = .ok ()) ∧
      place fourWords (fourWeights.replaced [(100, 0), (108, 0)])
        = .error (.collision "bl" "ld" 2) := by
  obtain ⟨hexact, -⟩ := place_exact
  obtain ⟨hok, -, harranged⟩ := hexact fourWords fourWeights
  obtain ⟨-, hmeeting, -⟩ := hexact fourWords (fourWeights.replaced [(100, 0), (108, 0)])
  constructor
  · have hseparates : fourWeights.Separates fourWords.entries := by decide +kernel
    have hld : (⟨"ld", .ld⟩ : Entry Mnemonic) ∈ fourWords.entries ∧
        fourWeights.hash (Word.ofText "ld") = 12 := by decide +kernel
    obtain ⟨t, ht⟩ := hok.2 hseparates
    have htable := harranged t ht
    exact ⟨t, ht, (htable.slot 12 _).2 hld, htable.count, htable.verified⟩
  · have hfirst : FirstMeeting (fourWeights.replaced [(100, 0), (108, 0)])
        [⟨"b", .b⟩, ⟨"bl", .bl⟩] (⟨"bl", .bl⟩ : Entry Mnemonic) ⟨"ld", .ld⟩ := by
      refine ⟨?_, ?_, ?_, ?_⟩
      · decide +kernel
      · decide
      · decide +kernel
      · decide +kernel
    have hslot : (fourWeights.replaced [(100, 0), (108, 0)]).hash (Word.ofText "ld") = 2 := by
      decide +kernel
    refine (hmeeting _).2 ⟨_, _, [⟨"nop", .nop⟩], _, rfl, hfirst, ?_⟩
    rw [← hslot]
    rfl

end Table

end KeywordHash
