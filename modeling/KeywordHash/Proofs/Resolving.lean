import Mathlib.Data.List.TakeWhile
import KeywordHash.Mnemonic
import KeywordHash.Proofs.Replay
import KeywordHash.Proofs.Separation

/-!
# What resolving a mnemonic gives

The builtin vocabulary has a table under the default parameters (`exists_table`): its search is
played from the first words of the keystream, and the first attempt wins. So `resolve` is a lookup
in a placed table, which finds a mnemonic exactly by the bytes of its text (`resolve_eq_iff`). The
other ways to ask come down to it: a span is the first bytes of a buffer, and what a NUL ends are
the bytes before the first one (`takeWhile_eq_iff`), no text having a NUL.
-/

namespace KeywordHash

/-- What comes after a NUL does not change the bytes before the first one. -/
theorem Word.takeWhile_append_nul (buffer rest : Word) :
    (buffer ++ 0 :: rest).takeWhile (· ≠ 0) = buffer.takeWhile (· ≠ 0) := by
  induction buffer with
  | nil => rfl
  | cons b buffer ih =>
    rw [List.cons_append, List.takeWhile_cons, List.takeWhile_cons, ih]

/-- The bytes of a buffer before its first NUL are a given word without NUL exactly if the buffer is
the word or goes on after the word with a NUL. -/
theorem Word.takeWhile_eq_iff {buffer word : Word} (hword : 0 ∉ word) :
    buffer.takeWhile (· ≠ 0) = word ↔ buffer = word ∨ ∃ rest, buffer = word ++ 0 :: rest := by
  have hplain : ∀ b ∈ word, (b ≠ 0 : Bool) = true := fun b hb =>
    decide_eq_true fun h => hword (h ▸ hb)
  constructor
  · rintro rfl
    have hsplit := List.takeWhile_append_dropWhile (p := (· ≠ 0)) (l := buffer)
    rcases hrest : buffer.dropWhile (· ≠ 0) with _ | ⟨b, rest⟩
    · rw [hrest, List.append_nil] at hsplit
      exact .inl hsplit.symm
    · have hnul : b = 0 := by
        have hhead := List.head?_dropWhile_not (fun b : UInt8 => decide (b ≠ 0)) buffer
        rw [hrest] at hhead
        exact not_not.1 (of_decide_eq_false hhead)
      rw [hrest, hnul] at hsplit
      exact .inr ⟨rest, hsplit.symm⟩
  · rintro (rfl | ⟨rest, rfl⟩)
    · exact List.takeWhile_eq_self_iff.2 hplain
    · rw [takeWhile_append_nul]
      exact List.takeWhile_eq_self_iff.2 hplain

namespace Mnemonic

/-! ## The table -/

/-- The first words of the keystream of the default seed. -/
def firstWords : List Nat := [
  0x98d1d095, 0x3527234c, 0xc7c4d70c, 0xddd34e35, 0x3af8a904, 0xb1fdfb1a, 0xe007c8b2, 0x00172eff,
  0xbd797103, 0xce30a3fd, 0xda273425, 0xb890bb99, 0x8e9b3032, 0x35dbd3c7, 0xb96ebf1b, 0xcb7cd63d,
  0x8ca7bedf, 0x19a76fb2, 0x9c777207, 0x00bbc40e, 0x6373e778, 0x21ad8b72, 0x5eed8b0e, 0x374129f3,
  0xa95eff33, 0x9c78f510, 0xb94befdb, 0x5a66b998, 0x8841e26b, 0x583a3b27, 0x04a45e7c, 0x63b0b8b8,
  0x804a4201, 0xfbc84e18, 0x3f059b44, 0xf89148ef, 0x8c7b5489, 0x1130cf76, 0x70c89f9e, 0x81e9636c,
  0x7dc5a753, 0x76a781ce, 0x0f489fbb, 0xc069da46, 0x045aead2, 0x5cfc22ae, 0xe4bf1ab0, 0xbae39b47,
  0x1d5ae3b6, 0x50ffc48b, 0x2a8dc023, 0x7023fcae, 0xa3194b8b, 0x72923245, 0xe0dd24e2, 0x571f349b,
  0x96538ade, 0xcf2c8f3e, 0x947e37af, 0x0697d75c, 0x2a2e233f, 0xc1e8c950, 0x0a69457f, 0x4c860065,
  0x8fe7fc83, 0x20232b27, 0x731099e8, 0xb3e3e736, 0xe41ddecc, 0xf4fc5ab1, 0x3eb46ab8, 0xecb99836,
  0xa80187af, 0x531dbac8, 0xcf0d264f, 0x3568b6af, 0xe31ad856, 0xe96ce0cf, 0xcdd7e5ed, 0x4fc10a4d,
  0x27314528, 0x7e9f2dff, 0x33bb5193, 0xa860d3c7, 0x625fb1f6, 0x40ea5a21, 0xd151399d, 0xaa69bb82,
  0xca471e38, 0xc6fb08f0, 0xd94593da, 0xd7b6c87b, 0xd33d3bfa, 0x82484160, 0xe72c1bde, 0xca719271,
  0xf22ab51d, 0x0d2ab05b, 0x844cb9bd, 0xab6909ab, 0x37f37890, 0x0fdcd146, 0x9f47ebbc, 0x1b37df6b,
  0x67fdccca, 0x152bfc5e, 0x6f5a9e2e, 0x643a231b, 0xbff98da0, 0x306f117a, 0xf93b2b17, 0x0ad556fd,
  0xedb7904b, 0x77f55503, 0x9e8612f6, 0xa593abdb, 0x21692f88, 0x86a0c87b, 0x949a7874, 0x581c96aa,
  0x77f54cb2, 0x2450b3e9, 0x12485ddc, 0x027c41a5, 0x740a3e3e, 0x4858c29e, 0xbb2c039f, 0x9b08d5ee]

/-- The first eight blocks of the keystream have these words. -/
theorem words_eq_firstWords :
    Replay.words (Keystream.keyOfSeed ({} : SearchConfig).seed) 8 0 = firstWords := by
  decide +kernel

/-- The search for the table of the builtin vocabulary wins when it is played from them. -/
theorem isSome_search? : (Replay.search? {} Vocabulary.builtin.keys firstWords).isSome = true := by
  decide +kernel

/-- The builtin vocabulary has a table under the default parameters. -/
theorem exists_table : ∃ t, table = .ok t := by
  have hplay : (Replay.search? {} Vocabulary.builtin.keys
      (Replay.words (Keystream.keyOfSeed ({} : SearchConfig).seed) 8 0)).isSome = true := by
    rw [words_eq_firstWords]
    exact isSome_search?
  exact Replay.exists_generate_of_search? (by decide) hplay

/-! ## Resolving -/

/-- Resolving finds a mnemonic exactly by the bytes of its text. -/
theorem resolve_eq_iff {word : Word} {m : Mnemonic} :
    (resolve word = m ∧ m ≠ invalid) ↔ m ∈ all ∧ word = Word.ofText m.text := by
  obtain ⟨t, ht⟩ := exists_table
  obtain ⟨a, -, hplace⟩ := Table.exists_run_of_generateFrom ht
  have hresolve : resolve word = t.lookup word := by
    unfold resolve
    rw [ht]
  rw [hresolve, mem_all_iff]
  constructor
  · rintro ⟨hlookup, hvalid⟩
    obtain ⟨e, he, hword, hcode⟩ := (Table.lookup_eq_iff hplace hvalid).1 hlookup
    obtain ⟨m', -, rfl⟩ := List.mem_map.1 he
    obtain rfl : m' = m := hcode
    exact ⟨hvalid, hword.symm⟩
  · rintro ⟨hvalid, rfl⟩
    have he : ⟨m.text, m⟩ ∈ Vocabulary.builtin.entries :=
      List.mem_map_of_mem (mem_all_iff.2 hvalid)
    exact ⟨(Table.lookup_eq_iff hplace hvalid).2 ⟨_, he, rfl, rfl⟩, hvalid⟩

/-- No text of a mnemonic has a NUL. -/
theorem not_mem_ofText {m : Mnemonic} (hm : m ∈ all) : 0 ∉ Word.ofText m.text :=
  (Vocabulary.builtin.valid.admissible ⟨m.text, m⟩ (List.mem_map_of_mem hm)).noNul

/-- A span is resolved exactly if it is within the buffer and has the bytes of a text. -/
theorem resolveSpan_eq_iff {buffer : Word} {length : Nat} {m : Mnemonic} :
    (resolveSpan buffer length = m ∧ m ≠ invalid) ↔
      m ∈ all ∧ length ≤ buffer.length ∧ buffer.take length = Word.ofText m.text := by
  unfold resolveSpan
  split_ifs with hlength
  · rw [resolve_eq_iff]
    simp only [hlength, true_and]
  · constructor
    · rintro ⟨rfl, hvalid⟩
      exact absurd rfl hvalid
    · rintro ⟨-, hle, -⟩
      exact absurd hle hlength

/-- A terminated buffer is resolved exactly if it is a text or goes on after one with a NUL. -/
theorem resolveTerminated_eq_iff {buffer : Word} {m : Mnemonic} :
    (resolveTerminated buffer = m ∧ m ≠ invalid) ↔
      m ∈ all ∧ (buffer = Word.ofText m.text ∨
        ∃ rest, buffer = Word.ofText m.text ++ 0 :: rest) := by
  unfold resolveTerminated
  rw [resolve_eq_iff]
  exact and_congr_right fun hm => Word.takeWhile_eq_iff (not_mem_ofText hm)

/-- A text names the mnemonic that it is resolved to, unless that is the invalid one. -/
theorem ofName?_eq_some_iff {text : String} {m : Mnemonic} :
    ofName? text = some m ↔ resolveText text = m ∧ m ≠ invalid := by
  unfold ofName?
  split
  · next hinvalid =>
    rw [hinvalid]
    constructor
    · exact fun h => absurd h (by simp)
    · rintro ⟨rfl, hvalid⟩
      exact absurd rfl hvalid
  · next found hvalid =>
    constructor
    · intro h
      obtain rfl := Option.some.inj h
      exact ⟨rfl, hvalid⟩
    · rintro ⟨rfl, -⟩
      rfl

/-- So does the reading of a name that reports the names of no mnemonic. -/
theorem ofName_eq_ok_iff {text : String} {m : Mnemonic} :
    ofName text = .ok m ↔ resolveText text = m ∧ m ≠ invalid := by
  rw [← ofName?_eq_some_iff]
  unfold ofName
  rcases ofName? text with _ | found
  · simp
  · simp

/-- The mnemonics are listed in the order of their numbers. -/
theorem getElem?_all {i : Nat} {m : Mnemonic} : all[i]? = some m ↔ m.number = i + 1 := by
  have hnumbers : all.map number = (List.range 82).map (· + 1) := by decide +kernel
  have hnumber : ∀ {i : Nat} {m : Mnemonic}, all[i]? = some m → m.number = i + 1 := by
    intro i m h
    have hget := congrArg (·[i]?) hnumbers
    simp only [List.getElem?_map, h, Option.map_some] at hget
    obtain ⟨j, hj, hnumber⟩ := Option.map_eq_some_iff.1 hget.symm
    obtain ⟨hlt, rfl⟩ := List.getElem?_eq_some_iff.1 hj
    rw [← hnumber, List.getElem_range]
  constructor
  · exact hnumber
  · intro h
    have hvalid : m ≠ invalid := by
      rintro rfl
      contradiction
    obtain ⟨j, hj⟩ := List.mem_iff_getElem?.1 (mem_all_iff.2 hvalid)
    obtain rfl : j = i := Nat.succ.inj ((hnumber hj).symm.trans h)
    exact hj

/-- The invalid mnemonic has number zero, and no other has. -/
theorem number_eq_zero_iff {m : Mnemonic} : m.number = 0 ↔ m = invalid := by
  cases m <;> decide

/-- A number denotes the mnemonic that has it. -/
theorem ofNumber?_eq_some_iff {n : Int} {m : Mnemonic} :
    ofNumber? n = some m ↔ (m.number : Int) = n := by
  unfold ofNumber?
  split_ifs with hzero hneg
  · rw [hzero, Int.natCast_eq_zero, number_eq_zero_iff, Option.some.injEq, eq_comm]
  · simp only [false_iff]
    omega
  · rw [getElem?_all]
    omega

/-- So does the reading of a number that reports the numbers of no mnemonic. -/
theorem ofNumber_eq_ok_iff {n : Int} {m : Mnemonic} :
    ofNumber n = .ok m ↔ (m.number : Int) = n := by
  rw [← ofNumber?_eq_some_iff]
  unfold ofNumber
  rcases ofNumber? n with _ | found
  · simp
  · simp

/-- What the builtin vocabulary resolves, however it is asked: a word by the bytes of a text, a span
within a buffer by its bytes, a terminated buffer by the bytes before its first NUL, whatever comes
after, a name by the text of any mnemonic but the invalid one, and a number by the mnemonic that has
it. -/
theorem resolve_exact :
    (∀ word m, (resolve word = m ∧ m ≠ invalid) ↔ m ∈ all ∧ word = Word.ofText m.text) ∧
      (∀ buffer length m, (resolveSpan buffer length = m ∧ m ≠ invalid) ↔
        m ∈ all ∧ length ≤ buffer.length ∧ buffer.take length = Word.ofText m.text) ∧
      (∀ buffer m, (resolveTerminated buffer = m ∧ m ≠ invalid) ↔
        m ∈ all ∧ (buffer = Word.ofText m.text ∨
          ∃ rest, buffer = Word.ofText m.text ++ 0 :: rest)) ∧
      (∀ buffer rest, resolveTerminated (buffer ++ 0 :: rest) = resolveTerminated buffer) ∧
      (∀ text m, ofName text = .ok m ↔ m ≠ invalid ∧ text = m.text) ∧
      ∀ (n : Int) m, ofNumber n = .ok m ↔ (m.number : Int) = n := by
  refine ⟨fun _ _ => resolve_eq_iff, fun _ _ _ => resolveSpan_eq_iff,
    fun _ _ => resolveTerminated_eq_iff, fun buffer rest => ?_, fun text m => ?_,
    fun _ _ => ofNumber_eq_ok_iff⟩
  · exact congrArg resolve (Word.takeWhile_append_nul buffer rest)
  · rw [ofName_eq_ok_iff, resolveText, resolve_eq_iff, mem_all_iff, Word.ofText_inj]

end Mnemonic

end KeywordHash
