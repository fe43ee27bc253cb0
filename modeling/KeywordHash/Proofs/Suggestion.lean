import KeywordHash.Proofs.EditDistance
import KeywordHash.Proofs.Resolving

/-!
# What is suggested

A text is answered by the first entry that differs from it in the case of ASCII letters at most
(`suggest?_of_alike`) and, where there is none, by the first of the closest entries (`Nearest`), if
that is within the bound (`suggest?_eq_some_iff`, `suggest?_eq_none_iff`). Both are the first of
their kind, so entries that are not the answer can go (`exists_split_of_sublist`), and the answer of
a bound is that of every larger one. `suggest_exact` says so, together with what it means for the
builtin vocabulary, whose texts are small already.
-/

namespace KeywordHash

/-! ## The case of letters -/

/-- Characters that are the same, or the same ASCII letter in another case. -/
def Alike (c d : Char) : Prop :=
  c = d ∨ (c.isUpper ∧ d.toNat = c.toNat + 32) ∨ (d.isUpper ∧ c.toNat = d.toNat + 32)

/-- Texts that differ in the case of ASCII letters at most. -/
def SameButCase (s t : String) : Prop := List.Forall₂ Alike s.toList t.toList

/-- The capitals come one after the other. -/
theorem isUpper_iff {c : Char} : c.isUpper = true ↔ 65 ≤ c.toNat ∧ c.toNat ≤ 90 :=
  decide_eq_true_iff

/-- A capital is made small by adding 32, and other characters stay as they are. -/
theorem toNat_toLower (c : Char) :
    c.toLower.toNat = if 65 ≤ c.toNat ∧ c.toNat ≤ 90 then c.toNat + 32 else c.toNat := by
  have hcapital : c.val ≥ 'A'.val ∧ c.val ≤ 'Z'.val ↔ 65 ≤ c.toNat ∧ c.toNat ≤ 90 :=
    decide_eq_true_iff.symm.trans isUpper_iff
  unfold Char.toLower
  split_ifs with h h' h'
  · have hsum : (c.val + 32).toNat = c.val.toNat + 32 := by
      rw [← Char.toNat_val] at h'
      rw [UInt32.toNat_add]
      exact Nat.mod_eq_of_lt (by show c.val.toNat + 32 < 2 ^ 32; omega)
    exact hsum
  · exact absurd (hcapital.1 h) h'
  · exact absurd (hcapital.2 h') h
  · rfl

/-- Characters are alike exactly if they are the same in small letters. -/
theorem toLower_eq_iff {c d : Char} : c.toLower = d.toLower ↔ Alike c d := by
  unfold Alike
  rw [← Char.toNat_inj, ← Char.toNat_inj (c := c), toNat_toLower, toNat_toLower, isUpper_iff,
    isUpper_iff]
  split_ifs
  all_goals omega

namespace Vocabulary

/-- Texts are the same in small letters exactly if they differ in case at most. -/
theorem foldCase_eq_iff {s t : String} : foldCase s = foldCase t ↔ SameButCase s t := by
  unfold foldCase SameButCase
  rw [← List.forall₂_eq_eq_eq, List.forall₂_map_left_iff, List.forall₂_map_right_iff]
  constructor
  · exact fun h => h.imp fun c d hcd => toLower_eq_iff.1 hcd
  · exact fun h => h.imp fun c d hcd => toLower_eq_iff.2 hcd

/-! ## The first of a kind -/

section

variable {α : Type} {before before' after after' list list' : List α} {e e' : α}

/-- Where a list is split at two elements, they are the same or one comes before the other. -/
theorem eq_or_mem_of_split (h : before ++ e :: after = before' ++ e' :: after') :
    e = e' ∨ e ∈ before' ∨ e' ∈ before := by
  rcases List.append_eq_append_iff.1 h with ⟨between, hbefore, hrest⟩ | ⟨between, hbefore, hrest⟩
  · rcases between with _ | ⟨x, between⟩
    · exact .inl (List.cons.inj hrest).1
    · obtain rfl := (List.cons.inj hrest).1
      rw [hbefore]
      exact .inr (.inl (List.mem_append_right _ List.mem_cons_self))
  · rcases between with _ | ⟨x, between⟩
    · exact .inl (List.cons.inj hrest).1.symm
    · obtain rfl := (List.cons.inj hrest).1
      rw [hbefore]
      exact .inr (.inr (List.mem_append_right _ List.mem_cons_self))

/-- Where others are taken out of a list, what comes before an element is some of what came before
it. -/
theorem exists_split_of_sublist (hlist : (before ++ e :: after).Nodup)
    (hsublist : list.Sublist (before ++ e :: after)) (he : e ∈ list) :
    ∃ before' after', list = before' ++ e :: after' ∧ before'.Sublist before := by
  obtain ⟨front, back, rfl, hfront, hback⟩ := List.sublist_append_iff.1 hsublist
  obtain ⟨-, hnodup, hapart⟩ := List.nodup_append.1 hlist
  have hnotFront : e ∉ front := fun hmem =>
    hapart e (hfront.subset hmem) e List.mem_cons_self rfl
  have hmemBack : e ∈ back := (List.mem_append.1 he).resolve_left hnotFront
  rcases List.sublist_cons_iff.1 hback with hlater | ⟨back', rfl, -⟩
  · -- The element does not come behind itself as well.
    exact absurd (hlater.subset hmemBack) (List.nodup_cons.1 hnodup).1
  · exact ⟨front, back', rfl, hfront⟩

end

/-! ## The closest entry -/

variable {C : Type} {entries entries' : List (Entry C)} {text : String} {e e' : Entry C}

/-- An entry that none is closer to the text than, and no earlier one is as close. -/
structure Nearest (text : String) (entries : List (Entry C)) (e : Entry C) : Prop where
  /-- No entry is closer. -/
  least : ∀ x ∈ entries, ¬ Levenshtein.distance x.text text < Levenshtein.distance e.text text
  /-- No earlier entry is as close. -/
  first : ∃ before after, entries = before ++ e :: after ∧
    ∀ x ∈ before, Levenshtein.distance x.text text ≠ Levenshtein.distance e.text text

/-- Only one entry is the nearest. -/
theorem Nearest.unique (h : Nearest text entries e) (h' : Nearest text entries e') : e = e' := by
  obtain ⟨before, after, hsplit, hfirst⟩ := h.first
  obtain ⟨before', after', hsplit', hfirst'⟩ := h'.first
  have hmem : e ∈ entries := by simp [hsplit]
  have hmem' : e' ∈ entries := by simp [hsplit']
  have hle := h.least e' hmem'
  have hle' := h'.least e hmem
  rcases eq_or_mem_of_split (hsplit.symm.trans hsplit') with heq | hbefore' | hbefore
  · exact heq
  · exact absurd (by omega) (hfirst' e hbefore')
  · exact absurd (by omega) (hfirst e' hbefore)

/-- The nearest entry stays the nearest when others are taken out. -/
theorem Nearest.of_sublist (h : Nearest text entries e) (hnodup : entries.Nodup)
    (hsublist : entries'.Sublist entries) (he : e ∈ entries') : Nearest text entries' e := by
  obtain ⟨before, after, rfl, hfirst⟩ := h.first
  obtain ⟨before', after', rfl, hbefore⟩ := exists_split_of_sublist hnodup hsublist he
  exact ⟨fun x hx => h.least x (hsublist.subset hx),
    before', after', rfl, fun x hx => hfirst x (hbefore.subset hx)⟩

/-- The nearest entry stays the nearest behind one that is farther. -/
theorem Nearest.cons (h : Nearest text entries e) {x : Entry C}
    (hx : Levenshtein.distance e.text text < Levenshtein.distance x.text text) :
    Nearest text (x :: entries) e := by
  obtain ⟨before, after, rfl, hfirst⟩ := h.first
  refine ⟨fun y hy => ?_, x :: before, after, rfl, fun y hy => ?_⟩
  · rcases List.mem_cons.1 hy with rfl | hlater
    · omega
    · exact h.least y hlater
  · rcases List.mem_cons.1 hy with rfl | hlater
    · omega
    · exact hfirst y hlater

/-- An entry is the nearest in front of others that are no closer. -/
theorem nearest_cons_self {x : Entry C}
    (h : ∀ y ∈ entries, ¬ Levenshtein.distance y.text text < Levenshtein.distance x.text text) :
    Nearest text (x :: entries) x where
  least := by
    intro y hy
    rcases List.mem_cons.1 hy with rfl | hlater
    · exact Nat.lt_irrefl _
    · exact h y hlater
  first := ⟨[], entries, rfl, fun y hy => absurd hy List.not_mem_nil⟩

/-- A closest entry is found wherever there is one. -/
theorem closest?_eq_none_iff : closest? text entries = none ↔ entries = [] := by
  rcases entries with _ | ⟨x, rest⟩
  · simp [closest?]
  · rw [closest?]
    rcases closest? text rest with _ | ⟨best, other⟩
    · simp
    · dsimp only
      split_ifs
      all_goals simp

/-- What is found as the closest entry is the nearest one, with its distance. -/
theorem closest?_spec {distance : Nat} (h : closest? text entries = some (distance, e)) :
    distance = Levenshtein.distance e.text text ∧ Nearest text entries e := by
  induction entries generalizing distance e with
  | nil => contradiction
  | cons x rest ih =>
    rw [closest?] at h
    rcases hrest : closest? text rest with _ | ⟨best, other⟩
    · rw [hrest] at h
      obtain ⟨rfl, rfl⟩ := Prod.mk.inj (Option.some.inj h)
      rw [closest?_eq_none_iff] at hrest
      exact ⟨rfl, nearest_cons_self fun y hy => absurd (hrest ▸ hy) List.not_mem_nil⟩
    · obtain ⟨rfl, hnearest⟩ := ih hrest
      rw [hrest] at h
      dsimp only at h
      split_ifs at h with hcloser
      · obtain ⟨rfl, rfl⟩ := Prod.mk.inj (Option.some.inj h)
        exact ⟨rfl, hnearest.cons hcloser⟩
      · obtain ⟨rfl, rfl⟩ := Prod.mk.inj (Option.some.inj h)
        refine ⟨rfl, nearest_cons_self fun y hy => ?_⟩
        have hle := hnearest.least y hy
        omega

/-! ## Suggestions -/

/-- There is a first entry that differs from the text in case at most, or there is none. -/
theorem first_alike_or_not (entries : List (Entry C)) (text : String) :
    (∃ before e after, entries = before ++ e :: after ∧ SameButCase e.text text ∧
      ∀ x ∈ before, ¬ SameButCase x.text text) ∨ ∀ x ∈ entries, ¬ SameButCase x.text text := by
  rcases hfind : entries.find? (fun x => foldCase x.text = foldCase text) with _ | e
  · refine .inr fun x hx => ?_
    simpa [foldCase_eq_iff] using List.find?_eq_none.1 hfind x hx
  · obtain ⟨he, before, after, hsplit, hbefore⟩ := List.find?_eq_some_iff_append.1 hfind
    refine .inl ⟨before, e, after, hsplit, foldCase_eq_iff.1 (of_decide_eq_true he), fun x hx => ?_⟩
    simpa [foldCase_eq_iff] using hbefore x hx

variable [Code C] {v v' : Vocabulary C} {bound : Nat}

/-- An entry that differs from the text in case at most is suggested, if it is the first one. -/
theorem suggest?_of_alike {before after : List (Entry C)}
    (hsplit : v.entries = before ++ e :: after) (he : SameButCase e.text text)
    (hbefore : ∀ x ∈ before, ¬ SameButCase x.text text) :
    v.suggest? text bound = some e := by
  have hfind : v.entries.find? (fun x => foldCase x.text = foldCase text) = some e := by
    refine List.find?_eq_some_iff_append.2 ⟨decide_eq_true (foldCase_eq_iff.2 he),
      before, after, hsplit, fun x hx => ?_⟩
    simpa [foldCase_eq_iff] using hbefore x hx
  unfold suggest?
  rw [hfind]

/-- Without an entry that differs in case only, the closest entry within the bound is suggested. -/
theorem suggest?_of_not_alike (h : ∀ x ∈ v.entries, ¬ SameButCase x.text text) :
    v.suggest? text bound
      = ((closest? text v.entries).filter fun p => p.1 ≤ bound).map Prod.snd := by
  have hfind : v.entries.find? (fun x => foldCase x.text = foldCase text) = none := by
    refine List.find?_eq_none.2 fun x hx => ?_
    simpa [foldCase_eq_iff] using h x hx
  unfold suggest?
  rw [hfind]

/-- Without an entry that differs in case only, an entry is suggested exactly if it is the nearest
and within the bound. -/
theorem suggest?_eq_some_iff (h : ∀ x ∈ v.entries, ¬ SameButCase x.text text) :
    v.suggest? text bound = some e ↔
      Levenshtein.distance e.text text ≤ bound ∧ Nearest text v.entries e := by
  rcases hclosest : closest? text v.entries with _ | ⟨distance, closest⟩
  · exact absurd (closest?_eq_none_iff.1 hclosest) v.valid.nonempty
  · obtain ⟨rfl, hnearest⟩ := closest?_spec hclosest
    rw [suggest?_of_not_alike h, hclosest, Option.map_eq_some_iff]
    simp only [Option.filter_eq_some_iff, Option.some.injEq, decide_eq_true_iff]
    constructor
    · rintro ⟨_, ⟨rfl, hle⟩, rfl⟩
      exact ⟨hle, hnearest⟩
    · rintro ⟨hle, hnearest'⟩
      obtain rfl := hnearest.unique hnearest'
      exact ⟨_, ⟨rfl, hle⟩, rfl⟩

/-- Without an entry that differs in case only, nothing is suggested exactly if all entries are
beyond the bound. -/
theorem suggest?_eq_none_iff (h : ∀ x ∈ v.entries, ¬ SameButCase x.text text) :
    v.suggest? text bound = none ↔ ∀ x ∈ v.entries, bound < Levenshtein.distance x.text text := by
  rcases hclosest : closest? text v.entries with _ | ⟨distance, closest⟩
  · exact absurd (closest?_eq_none_iff.1 hclosest) v.valid.nonempty
  · obtain ⟨rfl, hnearest⟩ := closest?_spec hclosest
    obtain ⟨before, after, hsplit, -⟩ := hnearest.first
    have hmem : closest ∈ v.entries := by simp [hsplit]
    rw [suggest?_of_not_alike h, hclosest, Option.map_eq_none_iff, Option.filter_eq_none_iff]
    constructor
    · intro hnone x hx
      have hbeyond := hnone _ rfl
      have hle := hnearest.least x hx
      rw [decide_eq_true_iff] at hbeyond
      omega
    · intro hall p hp
      obtain rfl := Option.some.inj hp
      have hbeyond := hall closest hmem
      rw [decide_eq_true_iff]
      exact Nat.not_le_of_lt hbeyond

/-- What is suggested is an entry. -/
theorem mem_of_suggest? (h : v.suggest? text bound = some e) : e ∈ v.entries := by
  rcases first_alike_or_not v.entries text with
    ⟨before, first, after, hsplit, hfirst, hbefore⟩ | hnot
  · rw [suggest?_of_alike hsplit hfirst hbefore] at h
    obtain rfl := Option.some.inj h
    simp [hsplit]
  · obtain ⟨before, after, hsplit, -⟩ := ((suggest?_eq_some_iff hnot).1 h).2.first
    simp [hsplit]

/-- The suggestion within a bound is that within a larger one. -/
theorem suggest?_mono {bound' : Nat} (hle : bound ≤ bound') (h : v.suggest? text bound = some e) :
    v.suggest? text bound' = some e := by
  rcases first_alike_or_not v.entries text with
    ⟨before, first, after, hsplit, hfirst, hbefore⟩ | hnot
  · rw [suggest?_of_alike hsplit hfirst hbefore] at h ⊢
    exact h
  · obtain ⟨hwithin, hnearest⟩ := (suggest?_eq_some_iff hnot).1 h
    exact (suggest?_eq_some_iff hnot).2 ⟨hwithin.trans hle, hnearest⟩

/-- Entries other than the suggested one do not matter to the suggestion. -/
theorem suggest?_of_sublist (hsublist : v'.entries.Sublist v.entries)
    (h : ∀ e, v.suggest? text bound = some e → e ∈ v'.entries) :
    v'.suggest? text bound = v.suggest? text bound := by
  rcases first_alike_or_not v.entries text with
    ⟨before, first, after, hsplit, hfirst, hbefore⟩ | hnot
  · have hsuggest : v.suggest? text bound = some first := suggest?_of_alike hsplit hfirst hbefore
    have hnodup := v.entries_nodup
    rw [hsplit] at hnodup hsublist
    obtain ⟨before', after', hsplit', hbefore'⟩ :=
      exists_split_of_sublist hnodup hsublist (h first hsuggest)
    rw [hsuggest]
    exact suggest?_of_alike hsplit' hfirst fun x hx => hbefore x (hbefore'.subset hx)
  · have hnot' : ∀ x ∈ v'.entries, ¬ SameButCase x.text text := fun x hx =>
      hnot x (hsublist.subset hx)
    rcases hsuggest : v.suggest? text bound with _ | e
    · have hbeyond := (suggest?_eq_none_iff hnot).1 hsuggest
      exact (suggest?_eq_none_iff hnot').2 fun x hx => hbeyond x (hsublist.subset hx)
    · obtain ⟨hwithin, hnearest⟩ := (suggest?_eq_some_iff hnot).1 hsuggest
      have hnearest' := hnearest.of_sublist v.entries_nodup hsublist (h e hsuggest)
      exact (suggest?_eq_some_iff hnot').2 ⟨hwithin, hnearest'⟩

end Vocabulary

/-! ## The builtin vocabulary -/

namespace Mnemonic

/-- The texts of mnemonics are in small letters. -/
theorem foldCase_text {m : Mnemonic} (hm : m ∈ all) :
    Vocabulary.foldCase m.text = m.text.toList := by
  have hall : ∀ m ∈ all, Vocabulary.foldCase m.text = m.text.toList := by decide +kernel
  exact hall m hm

/-- The entries of the builtin vocabulary are the mnemonics under their texts. -/
theorem mem_builtin_iff {e : Entry Mnemonic} :
    e ∈ Vocabulary.builtin.entries ↔ e.code ∈ all ∧ e.text = e.code.text := by
  obtain ⟨text, m⟩ := e
  constructor
  · intro h
    obtain ⟨m', hm', heq⟩ := List.mem_map.1 h
    obtain ⟨rfl, rfl⟩ := Entry.mk.inj heq
    exact ⟨hm', rfl⟩
  · rintro ⟨hm, htext⟩
    obtain rfl : text = m.text := htext
    exact List.mem_map_of_mem hm

/-- A text is resolved to a mnemonic exactly if it is its text. -/
theorem resolveText_eq_iff {text : String} {m : Mnemonic} :
    (resolveText text = m ∧ m ≠ invalid) ↔ m ∈ all ∧ text = m.text := by
  rw [← Word.ofText_inj]
  exact resolve_eq_iff

/-- What a text is resolved to is suggested for it. -/
theorem suggest?_of_resolveText {text : String} {m : Mnemonic} (h : resolveText text = m)
    (hvalid : m ≠ invalid) : suggest? text = some m := by
  obtain ⟨hm, rfl⟩ := resolveText_eq_iff.1 ⟨h, hvalid⟩
  have hentry : (⟨m.text, m⟩ : Entry Mnemonic) ∈ Vocabulary.builtin.entries :=
    mem_builtin_iff.2 ⟨hm, rfl⟩
  have hself : SameButCase m.text m.text := Vocabulary.foldCase_eq_iff.1 rfl
  unfold suggest?
  rcases Vocabulary.first_alike_or_not Vocabulary.builtin.entries m.text with
    ⟨before, first, after, hsplit, hfirst, hbefore⟩ | hnot
  · -- No other text is the same in small letters, as all are in small letters.
    have hmem : first ∈ Vocabulary.builtin.entries := by simp [hsplit]
    obtain ⟨hall, htext⟩ := mem_builtin_iff.1 hmem
    have hsame := Vocabulary.foldCase_eq_iff.2 hfirst
    rw [htext, foldCase_text hall, foldCase_text hm, String.toList_inj, ← htext] at hsame
    have heq := Vocabulary.eq_of_word_eq hmem hentry (Word.ofText_inj.2 hsame)
    rw [Vocabulary.suggest?_of_alike hsplit hfirst hbefore, heq]
    rfl
  · exact absurd hself (hnot _ hentry)

/-- What is suggested for a text that is not resolved differs from it in case or by one edit. -/
theorem suggest?_of_unresolved {text : String} {m : Mnemonic} (h : resolveText text = invalid)
    (hsuggest : suggest? text = some m) :
    m.text ≠ text ∧ (SameButCase m.text text ∨ Levenshtein.distance m.text text = 1) := by
  obtain ⟨e, he, rfl⟩ := Option.map_eq_some_iff.1 hsuggest
  obtain ⟨hall, htext⟩ := mem_builtin_iff.1 (Vocabulary.mem_of_suggest? he)
  have hne : e.code.text ≠ text := by
    intro heq
    obtain ⟨hresolve, hvalid⟩ := resolveText_eq_iff.2 ⟨hall, heq.symm⟩
    exact hvalid (hresolve.symm.trans h)
  refine ⟨hne, ?_⟩
  rw [← htext] at hne ⊢
  rcases Vocabulary.first_alike_or_not Vocabulary.builtin.entries text with
    ⟨before, first, after, hsplit, hfirst, hbefore⟩ | hnot
  · rw [Vocabulary.suggest?_of_alike hsplit hfirst hbefore] at he
    exact .inl (Option.some.inj he ▸ hfirst)
  · obtain ⟨hwithin, -⟩ := (Vocabulary.suggest?_eq_some_iff hnot).1 he
    have hpos : Levenshtein.distance e.text text ≠ 0 := mt Levenshtein.distance_eq_zero_iff.1 hne
    exact .inr (by omega)

end Mnemonic

namespace Vocabulary

/-- The distance is the least number of edits that lead from one text to the other. The first entry
that differs from a text in the case of ASCII letters at most is suggested for it, whatever the
bound is. Where there is none, the nearest entry is, if it is within the bound, and nothing if all
are beyond it. So a suggestion stays when the bound is raised, and does not depend on entries other
than itself. In the builtin vocabulary, a text that is resolved has its mnemonic suggested, and a
suggestion for another text is this text in another case or one edit away. -/
theorem suggest_exact {C : Type} [Code C] :
    (∀ s t : String, IsLeast {n | Levenshtein.Edits n s.toList t.toList}
      (Levenshtein.distance s t)) ∧
    (∀ (v : Vocabulary C) (text : String) (bound : Nat),
      ((∃ x ∈ v.entries, SameButCase x.text text) →
        ∃ before e after, v.entries = before ++ e :: after ∧ SameButCase e.text text ∧
          (∀ x ∈ before, ¬ SameButCase x.text text) ∧ v.suggest? text bound = some e) ∧
      ((∀ x ∈ v.entries, ¬ SameButCase x.text text) →
        (∀ e, v.suggest? text bound = some e ↔
          Levenshtein.distance e.text text ≤ bound ∧ Nearest text v.entries e) ∧
        (v.suggest? text bound = none ↔
          ∀ x ∈ v.entries, bound < Levenshtein.distance x.text text))) ∧
    (∀ (v : Vocabulary C) (text : String) (bound bound' : Nat) (e : Entry C), bound ≤ bound' →
      v.suggest? text bound = some e → v.suggest? text bound' = some e) ∧
    (∀ (v v' : Vocabulary C) (text : String) (bound : Nat), v'.entries.Sublist v.entries →
      (∀ e, v.suggest? text bound = some e → e ∈ v'.entries) →
        v'.suggest? text bound = v.suggest? text bound) ∧
    (∀ (text : String) (m : Mnemonic), Mnemonic.resolveText text = m → m ≠ .invalid →
      Mnemonic.suggest? text = some m) ∧
    ∀ (text : String) (m : Mnemonic), Mnemonic.resolveText text = .invalid →
      Mnemonic.suggest? text = some m →
        m.text ≠ text ∧ (SameButCase m.text text ∨ Levenshtein.distance m.text text = 1) := by
  refine ⟨Levenshtein.isLeast_distance, fun v text bound => ⟨fun h => ?_, fun h => ?_⟩,
    fun _ _ _ _ _ => suggest?_mono, fun _ _ _ _ => suggest?_of_sublist,
    fun _ _ => Mnemonic.suggest?_of_resolveText, fun _ _ => Mnemonic.suggest?_of_unresolved⟩
  · rcases first_alike_or_not v.entries text with ⟨before, e, after, hsplit, he, hbefore⟩ | hnot
    · exact ⟨before, e, after, hsplit, he, hbefore, suggest?_of_alike hsplit he hbefore⟩
    · obtain ⟨x, hx, hsame⟩ := h
      exact absurd hsame (hnot x hx)
  · exact ⟨fun e => suggest?_eq_some_iff h, suggest?_eq_none_iff h⟩

end Vocabulary

end KeywordHash
