import KeywordHash.Proofs.Location
import KeywordHash.Proofs.Parsing
import KeywordHash.Proofs.Rejection

/-!
# Where a rejected vocabulary is in error

A rejection is about one of the items of the file (`Blames`), and the error is placed at the item
that `offender?` finds for it. That is looked up by text: the second item with the text if two have
it, the first in all other cases. For faults of texts it is the item that the rejection is about. A
fault of a code can be that of a later item with the same text, and then the error is placed too
early: `Shadowed` says when, and `offender?_of_blames` that it happens exactly then. `parse_blames`
says what this means for the error, its rest and its line and column.
-/

namespace KeywordHash

namespace Definition

variable {C : Type}

/-! ## Places of items -/

/-- Items have the rests of the entries that they are read of. -/
theorem map_source_of_gives [NamedCode C] {occurrences : List Occurrence} {items : List (Item C)}
    (h : List.Forall₂ Occurrence.Gives occurrences items) :
    occurrences.map Occurrence.source = items.map Item.source := by
  rw [← List.forall₂_eq_eq_eq, List.forall₂_map_left_iff, List.forall₂_map_right_iff]
  exact h.imp fun o item hgives => hgives.source.symm

/-- Of two items of a file, less is left from the later one on. -/
theorem source_length_lt [NamedCode C] {input : List Char} {items : List (Item C)}
    (h : readItems input = .ok items) {i j : Nat} (hij : i < j) {x y : Item C}
    (hx : items[i]? = some x) (hy : items[j]? = some y) :
    y.source.length < x.source.length := by
  obtain ⟨d, -, hgives⟩ := readItems_sound h
  have hpairwise : (items.map Item.source).Pairwise fun s s' => s'.length < s.length := by
    rw [← map_source_of_gives hgives, List.pairwise_map]
    exact d.occurrences_pairwise
  rw [List.pairwise_map, List.pairwise_iff_getElem] at hpairwise
  obtain ⟨hi, rfl⟩ := List.getElem?_eq_some_iff.1 hx
  obtain ⟨hj, rfl⟩ := List.getElem?_eq_some_iff.1 hy
  exact hpairwise i j hi hj hij

/-- What is left from an item on is the end of the file. -/
theorem source_suffix_of_mem [NamedCode C] {input : List Char} {items : List (Item C)}
    (h : readItems input = .ok items) {item : Item C} (hitem : item ∈ items) :
    item.source <:+ input := by
  obtain ⟨d, rfl, hgives⟩ := readItems_sound h
  have hmem : item.source ∈ d.occurrences.map Occurrence.source := by
    rw [map_source_of_gives hgives]
    exact List.mem_map_of_mem hitem
  obtain ⟨o, ho, hsource⟩ := List.mem_map.1 hmem
  rw [← hsource]
  exact (Document.source_suffix ho).2

/-! ## Items with a text -/

/-- The first item with the text of a given one comes no later than that. -/
theorem exists_find?_text {items : List (Item C)} {j : Nat} {item : Item C}
    (hj : items[j]? = some item) :
    ∃ i x, items.find? (fun y => y.text = item.text) = some x ∧ items[i]? = some x ∧ i ≤ j ∧
      x.text = item.text ∧ ∀ k < i, ∀ y, items[k]? = some y → y.text ≠ item.text := by
  have hsome : (items.find? fun y => y.text = item.text).isSome := by
    rw [List.find?_isSome]
    exact ⟨item, List.mem_of_getElem? hj, decide_eq_true rfl⟩
  obtain ⟨x, hfind⟩ := Option.isSome_iff_exists.1 hsome
  obtain ⟨htext, i, hi, hx, hbefore⟩ := List.find?_eq_some_iff_getElem.1 hfind
  have hnone : ∀ k < i, ∀ y, items[k]? = some y → y.text ≠ item.text := by
    intro k hk y hy
    obtain ⟨hklt, rfl⟩ := List.getElem?_eq_some_iff.1 hy
    simpa using hbefore k hk
  refine ⟨i, x, hfind, ?_, ?_, of_decide_eq_true htext, hnone⟩
  · rw [List.getElem?_eq_getElem hi, hx]
  · by_contra hlt
    exact hnone j (by omega) item hj rfl

/-- A list is what stands before a position, the item there, and the rest. -/
theorem eq_take_append_cons_drop {items : List (Item C)} {j : Nat} {item : Item C}
    (hj : items[j]? = some item) : items = items.take j ++ item :: items.drop (j + 1) := by
  obtain ⟨hlt, hitem⟩ := List.getElem?_eq_some_iff.1 hj
  rw [← hitem, ← List.drop_eq_getElem_cons hlt, List.take_append_drop]

/-- Of the items with a property, the one at a position comes behind as many as there are before
that position. -/
theorem getElem?_filter {p : Item C → Bool} {items : List (Item C)} {j : Nat} {item : Item C}
    (hj : items[j]? = some item) (hp : p item = true) :
    (items.filter p)[(items.take j).countP p]? = some item := by
  have hfilter : items.filter p
      = (items.take j).filter p ++ item :: (items.drop (j + 1)).filter p := by
    conv_lhs => rw [eq_take_append_cons_drop hj]
    rw [List.filter_append, List.filter_cons_of_pos hp]
  rw [hfilter, List.countP_eq_length_filter, List.getElem?_append_right (Nat.le_refl _),
    Nat.sub_self]
  rfl

/-- Before a position there is one item with a property if there is one at an earlier position and
none at the others. -/
theorem countP_take_eq_one {p : Item C → Bool} {items : List (Item C)} {i j : Nat} {x : Item C}
    (hij : i < j) (hx : items[i]? = some x) (hp : p x = true)
    (hother : ∀ k < j, k ≠ i → ∀ y, items[k]? = some y → p y = false) :
    (items.take j).countP p = 1 := by
  have hi : (items.take j)[i]? = some x := by
    rw [List.getElem?_take_of_lt hij, hx]
  have hbefore : ((items.take j).take i).countP p = 0 := by
    refine List.countP_eq_zero.2 fun y hy => ?_
    obtain ⟨k, hk⟩ := List.mem_iff_getElem?.1 hy
    rw [List.take_take, List.getElem?_take] at hk
    split at hk
    · next hlt => simpa using hother k (by omega) (by omega) y hk
    · contradiction
  have hafter : ((items.take j).drop (i + 1)).countP p = 0 := by
    refine List.countP_eq_zero.2 fun y hy => ?_
    obtain ⟨k, hk⟩ := List.mem_iff_getElem?.1 hy
    rw [List.getElem?_drop, List.getElem?_take] at hk
    split at hk
    · next hlt => simpa using hother (i + 1 + k) hlt (by omega) y hk
    · contradiction
  rw [eq_take_append_cons_drop hi, List.countP_append, List.countP_cons_of_pos hp, hbefore, hafter]

/-! ## The item that is looked up -/

/-- An item with an earlier item of the same text, when the rejection is about a code. -/
structure Shadowed (items : List (Item C)) (error : VocabularyError) (j : Nat) : Prop where
  /-- The rejection is about a code. -/
  code : error.ConcernsCode
  /-- An earlier item has the text. -/
  earlier : ∃ i x y, i < j ∧ items[i]? = some x ∧ items[j]? = some y ∧ x.text = y.text

/-- No item is shadowed if all texts differ. -/
theorem not_shadowed_of_nodup {items : List (Item C)} {error : VocabularyError} {j : Nat}
    (h : (items.map Item.text).Nodup) : ¬ Shadowed items error j := by
  intro hshadowed
  obtain ⟨i, x, y, hij, hx, hy, htext⟩ := hshadowed.earlier
  have hsame : (items.map Item.text)[i]? = (items.map Item.text)[j]? := by
    rw [List.getElem?_map, List.getElem?_map, hx, hy, Option.map_some, Option.map_some, htext]
  have hi : i < (items.map Item.text).length := by
    rw [List.length_map]
    exact (List.getElem?_eq_some_iff.1 hx).1
  exact Nat.ne_of_lt hij ((List.getElem?_inj hi h).1 hsame)

/-- An error that is looked up at the first item with a text is placed at an item with this text,
and at a later one of them exactly if that is shadowed. -/
theorem offender?_of_find? {items : List (Item C)} {error : VocabularyError} {j : Nat}
    {item : Item C} (hj : items[j]? = some item)
    (hseek : offender? items error
      = (items.find? fun y => y.text = item.text).map Item.source)
    (hfirst : ¬ error.ConcernsCode → ∀ i < j, ∀ x, items[i]? = some x → x.text ≠ item.text) :
    ∃ i x, items[i]? = some x ∧ x.text = item.text ∧ offender? items error = some x.source ∧
      i ≤ j ∧ (i = j ↔ ¬ Shadowed items error j) := by
  obtain ⟨i, x, hfind, hx, hij, htext, hnone⟩ := exists_find?_text hj
  refine ⟨i, x, hx, htext, by rw [hseek, hfind]; rfl, hij, ?_⟩
  constructor
  · intro heq hshadowed
    obtain ⟨k, y, z, hkj, hy, hz, hsame⟩ := hshadowed.earlier
    obtain rfl := Option.some.inj (hj.symm.trans hz)
    exact hnone k (heq ▸ hkj) y hy hsame
  · intro hclear
    by_contra hne
    have hlt : i < j := by omega
    by_cases hcode : error.ConcernsCode
    · exact hclear ⟨hcode, i, x, item, hlt, hx, hj, htext⟩
    · exact hfirst hcode i hlt x hx htext

variable [DecidableEq C] [Code C]

/-- The item that is looked up for a rejection has the text of the item that the rejection is about
and comes no later; it is that item exactly if that is not shadowed. -/
theorem offender?_of_blames {items : List (Item C)} {error : VocabularyError} {j : Nat}
    (h : Blames (items.map Item.entry) error j) :
    ∃ item, items[j]? = some item ∧ ∃ i x, items[i]? = some x ∧ x.text = item.text ∧
      offender? items error = some x.source ∧ i ≤ j ∧ (i = j ↔ ¬ Shadowed items error j) := by
  have hhead : ∀ text : String, ((items.filter fun y => y.text = text).map Item.source).head?
      = (items.find? fun y => y.text = text).map Item.source := by
    intro text
    rw [List.head?_map, List.head?_filter]
  have hentry : ∀ (k : Nat) (y : Item C), items[k]? = some y →
      (items.map Item.entry)[k]? = some y.entry := by
    intro k y hy
    rw [List.getElem?_map, hy]
    rfl
  rcases h with ⟨⟨e, he, hfault⟩, hfirst⟩ | ⟨-, hlt, ⟨x, y, hx, hy, hclash⟩, hfirst⟩
  · rw [List.getElem?_map, Option.map_eq_some_iff] at he
    obtain ⟨item, hitem, rfl⟩ := he
    refine ⟨item, hitem, ?_⟩
    rcases Entry.fault?_eq_some hfault with ⟨-, herror, hsame⟩ | rfl
    · -- An earlier item with the text would have the fault.
      have hseek : offender? items error
          = (items.find? fun y => y.text = item.text).map Item.source := by
        rcases herror with rfl | rfl
        · exact hhead item.text
        · exact hhead item.text
      refine offender?_of_find? hitem hseek fun _ i hi x hx htext => ?_
      have hnone := hfirst i hi x.entry (hentry i x hx)
      rw [hsame x.entry htext] at hnone
      contradiction
    · exact offender?_of_find? hitem (hhead item.text) fun hcode => absurd trivial hcode
  · rename_i i
    rw [List.getElem?_map, Option.map_eq_some_iff] at hx hy
    obtain ⟨x, hx, rfl⟩ := hx
    obtain ⟨item, hitem, rfl⟩ := hy
    refine ⟨item, hitem, ?_⟩
    rcases Entry.clash?_eq_some hclash with ⟨htext, rfl⟩ | ⟨-, rfl⟩
    · -- Of the items before, only the other of the two has the text.
      have hother : ∀ k < j, k ≠ i → ∀ y, items[k]? = some y →
          decide (y.text = x.text) = false := by
        intro k hk hki y hy
        refine decide_eq_false fun hsame => ?_
        rcases Nat.lt_or_gt_of_ne hki with hbefore | hbetween
        · exact Entry.clash?_of_text hsame
            (hfirst k i hbefore (.inl hbefore) y.entry x.entry (hentry k y hy) (hentry i x hx))
        · exact Entry.clash?_of_text hsame.symm
            (hfirst i k hbetween (.inr ⟨rfl, hk⟩) x.entry y.entry (hentry i x hx) (hentry k y hy))
      have hcount : (items.take j).countP (fun y => y.text = x.text) = 1 :=
        countP_take_eq_one hlt hx (decide_eq_true rfl) hother
      have hsecond := getElem?_filter (p := fun y => y.text = x.text) hitem
        (decide_eq_true htext.symm)
      rw [hcount] at hsecond
      refine ⟨j, item, hitem, rfl, ?_, Nat.le_refl j, fun _ hshadowed => hshadowed.code,
        fun _ => rfl⟩
      show ((items.filter fun y => y.text = x.text).map Item.source)[1]? = some item.source
      rw [List.getElem?_map, hsecond]
      rfl
    · exact offender?_of_find? hitem (hhead item.text) fun hcode => absurd trivial hcode

/-! ## The place of the error -/

/-- A file whose lines are read but whose entries are rejected is in error at an item that has the
text of the item that the rejection is about and comes no later. The error is placed at the start of
that very item, by its rest and by line and column, exactly if the item is not shadowed. -/
theorem parse_blames [NamedCode C] {source : String} {items : List (Item C)}
    {error : VocabularyError} (hread : readItems source.toList = .ok items)
    (hrejected : Vocabulary.ofEntries (items.map Item.entry) = .error error)
    (hne : error ≠ .empty) :
    (∃ j, Blames (items.map Item.entry) error j) ∧
      ∀ j, Blames (items.map Item.entry) error j →
        ∃ item before err, items[j]? = some item ∧ source.toList = before ++ item.source ∧
          parse (C := C) source = .error err ∧
          err.innermost.cause = .fault (.vocabulary error) ∧
          (∃ i x, items[i]? = some x ∧ x.text = item.text ∧ i ≤ j ∧
            err.innermost.rest = x.source) ∧
          (err.innermost.rest = item.source ↔ ¬ Shadowed items error j) ∧
          ((err.locate source.toList).location = Location.after before ↔
            ¬ Shadowed items error j) := by
  refine ⟨blames_of_ofEntries hrejected hne, fun j hblames => ?_⟩
  obtain ⟨item, hitem, i, x, hx, htext, hoffender, hij, hshadowed⟩ := offender?_of_blames hblames
  obtain ⟨before, hbefore⟩ := source_suffix_of_mem hread (List.mem_of_getElem? hitem)
  obtain ⟨front, hfront⟩ := source_suffix_of_mem hread (List.mem_of_getElem? hx)
  have hparse : parse (C := C) source
      = .error (ParseError.of x.source (.fault (.vocabulary error))) := by
    rw [parse_of_readItems hread, hrejected, Except.mapError, hoffender, Option.getD_some]
  -- What is left from the item on is the same only if it is the same item.
  have hsource : x.source = item.source ↔ i = j := by
    constructor
    · intro hsame
      by_contra hnot
      have hshorter := source_length_lt hread (Nat.lt_of_le_of_ne hij hnot) hx hitem
      rw [hsame] at hshorter
      exact Nat.lt_irrefl _ hshorter
    · intro hsame
      rw [hsame, hitem] at hx
      rw [Option.some.inj hx]
  have hplace : ((ParseError.of x.source (.fault (.vocabulary error))).locate
      source.toList).location = Location.after front :=
    ParseError.location_of_suffix hfront.symm
  refine ⟨item, before, _, hitem, hbefore.symm, hparse, rfl, ⟨i, x, hx, htext, hij, rfl⟩,
    hsource.trans hshadowed, ?_⟩
  rw [hplace, Location.after_eq_after_iff (hfront.trans hbefore.symm), hsource, hshadowed]

/-- Three texts, the third with the code of the first: the error is placed at the third. -/
theorem parse_thirdText :
    ∃ err, parse (C := IntCode) "a, 1\nb, 2\nc, 1\n" = .error err ∧
      err.innermost.rest = "c, 1\n".toList ∧
      (err.locate "a, 1\nb, 2\nc, 1\n".toList).location = ⟨3, 1⟩ := by
  have hread : readItems (C := IntCode) "a, 1\nb, 2\nc, 1\n".toList
      = .ok [⟨"a", ⟨1⟩, "a, 1\nb, 2\nc, 1\n".toList⟩, ⟨"b", ⟨2⟩, "b, 2\nc, 1\n".toList⟩,
        ⟨"c", ⟨1⟩, "c, 1\n".toList⟩] :=
    readItems_cons (by decide) rfl (readItems_cons (by decide) rfl
      (readItems_cons (by decide) rfl readItems_nil))
  have hrejected : Vocabulary.ofEntries [(⟨"a", ⟨1⟩⟩ : Entry IntCode), ⟨"b", ⟨2⟩⟩, ⟨"c", ⟨1⟩⟩]
      = .error (.duplicateCode "a" "c") := by
    rfl
  obtain ⟨-, hall⟩ := parse_blames hread hrejected (by decide)
  obtain ⟨item, before, err, hitem, hbefore, herr, -, -, hrest, hplace⟩ :=
    hall 2 (blames_third (by decide) (by decide) (by decide))
  cases hitem
  have hfront : before = "a, 1\nb, 2\n".toList := List.append_cancel_right hbefore.symm
  refine ⟨err, herr, hrest.2 (not_shadowed_of_nodup (by decide)), ?_⟩
  rw [hplace.2 (not_shadowed_of_nodup (by decide)), hfront]
  rfl

/-- Two texts, the second of them twice, the second time with the code of the first: the rejection
is about the third entry, and the error is placed at the second. -/
theorem parse_secondText :
    ∃ items : List (Item IntCode), readItems "a, 1\nb, 2\nb, 1\n".toList = .ok items ∧
      Blames (items.map Item.entry) (.duplicateCode "a" "b") 2 ∧
      ∃ item err, items[2]? = some item ∧
        parse (C := IntCode) "a, 1\nb, 2\nb, 1\n" = .error err ∧
        err.innermost.cause = .fault (.vocabulary (.duplicateCode "a" "b")) ∧
        item.source = "b, 1\n".toList ∧ err.innermost.rest = "b, 2\nb, 1\n".toList := by
  have hread : readItems (C := IntCode) "a, 1\nb, 2\nb, 1\n".toList
      = .ok [⟨"a", ⟨1⟩, "a, 1\nb, 2\nb, 1\n".toList⟩, ⟨"b", ⟨2⟩, "b, 2\nb, 1\n".toList⟩,
        ⟨"b", ⟨1⟩, "b, 1\n".toList⟩] :=
    readItems_cons (by decide) rfl (readItems_cons (by decide) rfl
      (readItems_cons (by decide) rfl readItems_nil))
  refine ⟨_, hread, blames_third (by decide) (by decide) (by decide), _, _, rfl,
    parse_of_readItems hread, rfl, rfl, rfl⟩

end Definition

end KeywordHash
