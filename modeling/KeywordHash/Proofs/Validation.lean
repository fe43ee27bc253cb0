import Mathlib.Data.List.Nodup
import KeywordHash.Proofs.Rejection
import KeywordHash.Mnemonic

/-!
# Which lists of entries are vocabularies

The check of a list goes over it twice: once entry by entry, and if that finds nothing, once pair by
pair. `Refused` says what it reports, in terms of the texts and codes alone: the first entry that is
wrong on its own (`Faulty`), or else the first pair that shares a text or a code (`Clashing`). A list
is refused for one reason only (`Refused.unique`), and every reason that the check reports is that
one (`refused_of_fault?`). So a list is made into a vocabulary, with its entries as they are,
exactly if nothing is wrong with it, and refused exactly for the reason that `Refused` gives
(`ofEntries_exact`).
-/

namespace KeywordHash

/-! ## NUL in a text -/

namespace Word

/-- The byte of a number is zero exactly if the number is a multiple of 256. -/
theorem zero_eq_ofNat_iff {n : Nat} : (0 : UInt8) = UInt8.ofNat n ↔ n % 256 = 0 := by
  rw [← UInt8.toNat_inj, UInt8.toNat_ofNat']
  exact eq_comm

/-- The only character with a zero byte is NUL. -/
theorem zero_mem_utf8EncodeChar_iff {c : Char} :
    (0 : UInt8) ∈ String.utf8EncodeChar c ↔ c = '\x00' := by
  constructor
  · intro hzero
    have hnumber : c.val.toNat = 0 := by
      -- All bytes of a character beyond ASCII have their highest bit set.
      unfold String.utf8EncodeChar at hzero
      dsimp only at hzero
      split_ifs at hzero
      all_goals
        simp only [List.mem_cons, List.not_mem_nil, or_false, zero_eq_ofNat_iff] at hzero
        omega
    exact Char.ext (UInt32.toNat_inj.1 hnumber)
  · rintro rfl
    decide

/-- A text has a zero byte exactly if it has a NUL. -/
theorem zero_mem_ofText_iff {text : String} : 0 ∈ ofText text ↔ '\x00' ∈ text.toList := by
  rw [ofText_eq, List.mem_flatMap]
  constructor
  · rintro ⟨c, hc, hzero⟩
    rwa [← zero_mem_utf8EncodeChar_iff.1 hzero]
  · intro hnul
    exact ⟨_, hnul, zero_mem_utf8EncodeChar_iff.2 rfl⟩

end Word

variable {C : Type}

/-! ## What is wrong with an entry, and with two -/

/-- The text has 1 to 5 bytes. -/
def Entry.Fits (e : Entry C) : Prop := 1 ≤ e.word.length ∧ e.word.length ≤ 5

/-- An entry is wrong on its own. Its length is reported before a NUL, and a NUL before the code. -/
inductive Entry.Faulty [Code C] (e : Entry C) : VocabularyError → Prop
  /-- The text is too short or too long. -/
  | length (wrong : ¬ e.Fits) : e.Faulty (.length e.text)
  /-- The text has a NUL. -/
  | containsNul (fits : e.Fits) (nul : '\x00' ∈ e.text.toList) : e.Faulty (.containsNul e.text)
  /-- The code is the invalid one. -/
  | invalidCode (fits : e.Fits) (noNul : '\x00' ∉ e.text.toList) (invalid : e.code = Code.invalid) :
    e.Faulty (.invalidCode e.text)

/-- Two entries share something. The text is reported before the code. -/
inductive Entry.Clashing (x y : Entry C) : VocabularyError → Prop
  /-- They have the same text. -/
  | text (same : x.text = y.text) : x.Clashing y (.duplicateText x.text)
  /-- They have the same code under different texts. -/
  | code (differ : x.text ≠ y.text) (same : x.code = y.code) :
    x.Clashing y (.duplicateCode x.text y.text)

variable [DecidableEq C]

/-- Two entries clash in what they share. -/
theorem Entry.clash?_eq_some_iff {x y : Entry C} {error : VocabularyError} :
    x.clash? y = some error ↔ x.Clashing y error := by
  unfold Entry.clash?
  constructor
  · intro h
    split_ifs at h with htext hcode
    · obtain rfl := Option.some.inj h
      exact .text htext
    · obtain rfl := Option.some.inj h
      exact .code htext hcode
  · rintro (htext | ⟨htext, hcode⟩)
    · rw [if_pos htext]
    · rw [if_neg htext, if_pos hcode]

/-- Of what two entries share, one thing is reported. -/
theorem Entry.Clashing.unique {x y : Entry C} {error error' : VocabularyError}
    (h : x.Clashing y error) (h' : x.Clashing y error') : error = error' := by
  have hsame := (Entry.clash?_eq_some_iff.2 h).symm.trans (Entry.clash?_eq_some_iff.2 h')
  exact Option.some.inj hsame

/-- Two entries do not clash exactly if they share nothing. -/
theorem Entry.clash?_eq_none_iff_forall {x y : Entry C} :
    x.clash? y = none ↔ ∀ error, ¬ x.Clashing y error := by
  simp only [Option.eq_none_iff_forall_ne_some, ne_eq, Entry.clash?_eq_some_iff]

variable [Code C]

/-- The fault of an entry is what is wrong with it. -/
theorem Entry.fault?_eq_some_iff {e : Entry C} {error : VocabularyError} :
    e.fault? = some error ↔ e.Faulty error := by
  have hfits : (e.word.length < minTextLength ∨ maxTextLength < e.word.length) ↔ ¬ e.Fits := by
    unfold Entry.Fits minTextLength maxTextLength
    omega
  have hnul : 0 ∈ e.word ↔ '\x00' ∈ e.text.toList := Word.zero_mem_ofText_iff
  unfold Entry.fault?
  constructor
  · intro h
    split_ifs at h with hwrong hzero hinvalid
    · obtain rfl := Option.some.inj h
      exact .length (hfits.1 hwrong)
    · obtain rfl := Option.some.inj h
      exact .containsNul (not_not.1 (mt hfits.2 hwrong)) (hnul.1 hzero)
    · obtain rfl := Option.some.inj h
      exact .invalidCode (not_not.1 (mt hfits.2 hwrong)) (mt hnul.2 hzero) hinvalid
  · rintro (hwrong | ⟨hright, hzero⟩ | ⟨hright, hzero, hinvalid⟩)
    · rw [if_pos (hfits.2 hwrong)]
    · rw [if_neg (mt hfits.1 (not_not.2 hright)), if_pos (hnul.2 hzero)]
    · rw [if_neg (mt hfits.1 (not_not.2 hright)), if_neg (mt hnul.1 hzero), if_pos hinvalid]

/-- Of what is wrong with an entry, one thing is reported. -/
theorem Entry.Faulty.unique {e : Entry C} {error error' : VocabularyError} (h : e.Faulty error)
    (h' : e.Faulty error') : error = error' := by
  have hsame := (Entry.fault?_eq_some_iff.2 h).symm.trans (Entry.fault?_eq_some_iff.2 h')
  exact Option.some.inj hsame

/-- An entry has no fault exactly if nothing is wrong with it. -/
theorem Entry.fault?_eq_none_iff_forall {e : Entry C} :
    e.fault? = none ↔ ∀ error, ¬ e.Faulty error := by
  simp only [Option.eq_none_iff_forall_ne_some, ne_eq, Entry.fault?_eq_some_iff]

namespace Vocabulary

/-! ## Why a list is refused -/

/-- A list of entries is refused for a reason: there are none, or else the first entry with a fault
of its own has it, or else the first two entries that share something do, in the order of the
earlier and then of the later. -/
inductive Refused (entries : List (Entry C)) : VocabularyError → Prop
  /-- There are no entries. -/
  | empty (nothing : entries = []) : Refused entries .empty
  /-- The entry at position `j` is the first that is wrong on its own. -/
  | faulty {j : Nat} {e : Entry C} {error : VocabularyError} (here : entries[j]? = some e)
    (fault : e.Faulty error)
    (first : ∀ i < j, ∀ x, entries[i]? = some x → ∀ error, ¬ x.Faulty error) :
    Refused entries error
  /-- No entry is wrong on its own, and those at `i` and `j` are the first that share something. -/
  | clashing {i j : Nat} {x y : Entry C} {error : VocabularyError}
    (faultless : ∀ e ∈ entries, ∀ error, ¬ e.Faulty error) (lt : i < j)
    (earlier : entries[i]? = some x) (later : entries[j]? = some y) (clash : x.Clashing y error)
    (first : ∀ k l, k < l → k < i ∨ k = i ∧ l < j → ∀ x y, entries[k]? = some x →
      entries[l]? = some y → ∀ error, ¬ x.Clashing y error) : Refused entries error

variable {entries : List (Entry C)} {error error' : VocabularyError}

/-- What the check reports is a reason to refuse the list. -/
theorem refused_of_fault? (h : fault? entries = some error) : Refused entries error := by
  unfold fault? at h
  split_ifs at h with hempty
  · obtain rfl := Option.some.inj h
    exact .empty (List.isEmpty_iff.1 hempty)
  · rcases Option.or_eq_some_iff.1 h with hfault | ⟨hfaultless, hclash⟩
    · obtain ⟨j, ⟨e, hhere, hown⟩, hfirst⟩ := firstFault_of_findSome? hfault
      refine .faulty hhere (Entry.fault?_eq_some_iff.1 hown) fun i hi x hx => ?_
      exact Entry.fault?_eq_none_iff_forall.1 (hfirst i hi x hx)
    · obtain ⟨i, j, hlt, ⟨x, y, hx, hy, hshared⟩, hfirst⟩ := firstClash_of_firstClash? hclash
      refine .clashing (fun e he => ?_) hlt hx hy (Entry.clash?_eq_some_iff.1 hshared) ?_
      · exact Entry.fault?_eq_none_iff_forall.1 (List.findSome?_eq_none_iff.1 hfaultless e he)
      · intro k l hkl hbefore x' y' hx' hy'
        exact Entry.clash?_eq_none_iff_forall.1 (hfirst k l hkl hbefore x' y' hx' hy')

/-- A list is refused for one reason only. -/
theorem Refused.unique (h : Refused entries error) (h' : Refused entries error') :
    error = error' := by
  cases h with
  | empty hnothing =>
    subst hnothing
    cases h' with
    | empty _ => rfl
    | faulty hhere _ _ => cases hhere
    | clashing _ _ hearlier _ _ _ => cases hearlier
  | @faulty j e _ hhere hfault hfirst =>
    cases h' with
    | empty hnothing =>
      subst hnothing
      cases hhere
    | @faulty j' e' _ hhere' hfault' hfirst' =>
      rcases Nat.lt_trichotomy j j' with hlt | rfl | hlt
      · exact absurd hfault (hfirst' j hlt e hhere _)
      · obtain rfl := Option.some.inj (hhere.symm.trans hhere')
        exact hfault.unique hfault'
      · exact absurd hfault' (hfirst j' hlt e' hhere' _)
    | clashing hfaultless _ _ _ _ _ =>
      exact absurd hfault (hfaultless e (List.mem_of_getElem? hhere) _)
  | @clashing i j x y _ hfaultless hij hx hy hclash hfirst =>
    cases h' with
    | empty hnothing =>
      subst hnothing
      cases hx
    | @faulty j' e' _ hhere' hfault' _ =>
      exact absurd hfault' (hfaultless e' (List.mem_of_getElem? hhere') _)
    | @clashing i' j' x' y' _ _ hij' hx' hy' hclash' hfirst' =>
      -- One of the two pairs would come before the other.
      have hnot : ¬ (i < i' ∨ i = i' ∧ j < j') := fun hbefore =>
        hfirst' i j hij hbefore x y hx hy _ hclash
      have hnot' : ¬ (i' < i ∨ i' = i ∧ j' < j) := fun hbefore =>
        hfirst i' j' hij' hbefore x' y' hx' hy' _ hclash'
      obtain ⟨rfl, rfl⟩ : i = i' ∧ j = j' := by omega
      obtain rfl := Option.some.inj (hx.symm.trans hx')
      obtain rfl := Option.some.inj (hy.symm.trans hy')
      exact hclash.unique hclash'

/-- A list that is refused is no vocabulary. -/
theorem Refused.not_valid (h : Refused entries error) : ¬ Valid entries := by
  intro hvalid
  cases h with
  | empty hnothing => exact hvalid.nonempty hnothing
  | @faulty j e _ hhere hfault _ =>
    have hnone := Entry.fault?_eq_none_iff.2 (hvalid.admissible e (List.mem_of_getElem? hhere))
    exact Entry.fault?_eq_none_iff_forall.1 hnone _ hfault
  | @clashing i j x y _ _ hij hx hy hclash _ =>
    obtain ⟨hi, rfl⟩ := List.getElem?_eq_some_iff.1 hx
    obtain ⟨hj, rfl⟩ := List.getElem?_eq_some_iff.1 hy
    have hdistinct := List.pairwise_iff_getElem.1 hvalid.distinct i j hi hj hij
    exact Entry.clash?_eq_none_iff_forall.1 (Entry.clash?_eq_none_iff.2 hdistinct) _ hclash

/-- The check reports exactly the reason to refuse the list. -/
theorem fault?_eq_some_iff : fault? entries = some error ↔ Refused entries error := by
  constructor
  · exact refused_of_fault?
  · intro h
    rcases hfault : fault? entries with _ | other
    · exact absurd (fault?_eq_none_iff.1 hfault) h.not_valid
    · rw [h.unique (refused_of_fault? hfault)]

/-! ## Vocabularies of lists -/

/-- A list is made into a vocabulary with these entries, if into any. -/
theorem ofEntries_eq_ok_iff {v : Vocabulary C} : ofEntries entries = .ok v ↔ v.entries = entries := by
  unfold ofEntries
  constructor
  · intro h
    split at h
    · contradiction
    · rw [← Except.ok.inj h]
  · rintro rfl
    split
    · next other hfault =>
      have hnone := fault?_eq_none_iff.2 v.valid
      rw [hfault] at hnone
      contradiction
    · rfl

/-- A list is refused for what the check reports. -/
theorem ofEntries_eq_error_iff : ofEntries entries = .error error ↔ Refused entries error := by
  rw [← fault?_eq_some_iff]
  constructor
  · exact fault?_of_ofEntries
  · intro h
    unfold ofEntries
    split
    · next other hfault => rw [Option.some.inj (hfault.symm.trans h)]
    · next hnone =>
      rw [h] at hnone
      contradiction

omit [DecidableEq C] in
/-- The conditions on a vocabulary, spelled out for its texts and for its codes. -/
theorem valid_iff_nodup :
    Valid entries ↔ entries ≠ [] ∧
      (∀ e ∈ entries, e.Fits ∧ '\x00' ∉ e.text.toList ∧ e.code ≠ Code.invalid) ∧
      (entries.map Entry.text).Nodup ∧ (entries.map Entry.code).Nodup := by
  have hentry : ∀ e : Entry C, e.Admissible ↔
      e.Fits ∧ '\x00' ∉ e.text.toList ∧ e.code ≠ Code.invalid := by
    intro e
    rw [← Word.zero_mem_ofText_iff]
    constructor
    · rintro ⟨hmin, hmax, hnul, hcode⟩
      exact ⟨⟨hmin, hmax⟩, hnul, hcode⟩
    · rintro ⟨⟨hmin, hmax⟩, hnul, hcode⟩
      exact ⟨hmin, hmax, hnul, hcode⟩
  have hpairs : entries.Pairwise Entry.Distinct ↔
      (entries.map Entry.text).Nodup ∧ (entries.map Entry.code).Nodup := by
    unfold List.Nodup Entry.Distinct
    rw [List.pairwise_map, List.pairwise_map, List.pairwise_and_iff]
  rw [← hpairs]
  constructor
  · rintro ⟨hnonempty, hadmissible, hdistinct⟩
    exact ⟨hnonempty, fun e he => (hentry e).1 (hadmissible e he), hdistinct⟩
  · rintro ⟨hnonempty, heach, hdistinct⟩
    exact ⟨hnonempty, fun e he => (hentry e).2 (heach e he), hdistinct⟩

/-- A list of entries is made into a vocabulary exactly if there are entries, every text has 1 to 5
bytes and no NUL, no code is the invalid one, and no text and no code occurs twice. The vocabulary
then has the entries of the list, in their order. Every other list is refused, for exactly one
reason. -/
theorem ofEntries_exact (entries : List (Entry C)) :
    (∀ v, ofEntries entries = .ok v ↔ v.entries = entries) ∧
      ((∃ v, ofEntries entries = .ok v) ↔ entries ≠ [] ∧
        (∀ e ∈ entries, e.Fits ∧ '\x00' ∉ e.text.toList ∧ e.code ≠ Code.invalid) ∧
        (entries.map Entry.text).Nodup ∧ (entries.map Entry.code).Nodup) ∧
      ∀ error, ofEntries entries = .error error ↔ Refused entries error := by
  refine ⟨fun _ => ofEntries_eq_ok_iff, ?_, fun _ => ofEntries_eq_error_iff⟩
  rw [← valid_iff_nodup]
  constructor
  · rintro ⟨v, hv⟩
    rw [← ofEntries_eq_ok_iff.1 hv]
    exact v.valid
  · intro hvalid
    exact ⟨⟨entries, hvalid⟩, ofEntries_eq_ok_iff.2 rfl⟩

-- The third entry shares its text with the second and its code with the first, which counts.
example : fault? [⟨"ld", Mnemonic.ld⟩, ⟨"st", .st⟩, ⟨"st", .ld⟩]
    = some (.duplicateCode "ld" "st") := by decide +kernel

end Vocabulary

end KeywordHash
