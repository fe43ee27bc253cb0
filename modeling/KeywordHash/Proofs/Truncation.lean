import KeywordHash.Proofs.Wordlist

/-!
# A listing that is cut short

A sink that a listing is written into takes the bytes of its source up to the capacity, and the
writing succeeds exactly if that is all of them. How the source is cut into writes does not matter:
what `writeAll` takes and answers depends on the bytes of all chunks together (`writeAll_eq`). The
proof is an induction on the chunks. What it carries along is the room that is left in the sink: a
chunk that fits leaves less of it, by its length, and one that does not leaves none and ends the
writing. The writing fails exactly if one write is the first to fail (`FailsAt`), and then the
outcome of that write is the outcome of all (`writeAll_eq_false_iff`).
-/

namespace KeywordHash

namespace Sink

/-! ## Writes and the room that is left -/

/-- The number of bytes that a sink still takes. -/
def room (s : Sink) : Nat := s.capacity - s.written.size

/-- A sink that has taken nothing has room for all of its capacity. -/
theorem room_ofCapacity (n : Nat) : (ofCapacity n).room = n := Nat.sub_zero n

/-- A write takes what there is room for, and succeeds exactly if that is the whole chunk. -/
theorem write_eq (s : Sink) (chunk : Word) :
    s.write chunk
      = (decide (chunk.length ≤ s.room), ⟨s.capacity, s.written ++ chunk.take s.room⟩) := rfl

/-- A chunk that fits is taken whole. -/
theorem write_of_le {s : Sink} {chunk : Word} (h : chunk.length ≤ s.room) :
    s.write chunk = (true, ⟨s.capacity, s.written ++ chunk⟩) := by
  rw [write_eq, decide_eq_true h, List.take_of_length_le h]

/-- A chunk that does not fit is taken as far as there is room. -/
theorem write_of_lt {s : Sink} {chunk : Word} (h : s.room < chunk.length) :
    s.write chunk = (false, ⟨s.capacity, s.written ++ chunk.take s.room⟩) := by
  rw [write_eq, decide_eq_false (Nat.not_le.2 h)]

/-- What a sink takes leaves less room, by its length. -/
theorem room_append (s : Sink) (bytes : Word) :
    room ⟨s.capacity, s.written ++ bytes⟩ = s.room - bytes.length := by
  have hsize : (s.written ++ bytes).size = s.written.size + bytes.length := by
    rw [← Array.length_toList, Array.toList_appendList, List.length_append, Array.length_toList]
  change s.capacity - (s.written ++ bytes).size = _
  rw [hsize, Nat.sub_add_eq]
  rfl

/-- A write of no bytes succeeds and changes nothing. -/
theorem write_nil (s : Sink) : s.write [] = (true, s) :=
  write_of_le (Nat.zero_le _)

/-- If a chunk fits, then a write of more than it writes the chunk and then the rest. -/
theorem write_append_of_le {s : Sink} {chunk : Word} (h : chunk.length ≤ s.room) (more : Word) :
    s.write (chunk ++ more) = write ⟨s.capacity, s.written ++ chunk⟩ more := by
  have hlength : (chunk ++ more).length ≤ s.room ↔ more.length ≤ s.room - chunk.length := by
    rw [List.length_append]
    omega
  have htaken : s.written ++ (chunk ++ more.take (s.room - chunk.length))
      = s.written ++ chunk ++ more.take (s.room - chunk.length) := by
    apply Array.toList_inj.1
    simp only [Array.toList_appendList, List.append_assoc]
  rw [write_eq, write_eq, room_append, decide_eq_decide.2 hlength, List.take_append,
    List.take_of_length_le h, htaken]

/-- If a chunk does not fit, then a write of more than it is a write of the chunk. -/
theorem write_append_of_lt {s : Sink} {chunk : Word} (h : s.room < chunk.length) (more : Word) :
    s.write (chunk ++ more) = s.write chunk := by
  have hmore : s.room < (chunk ++ more).length := by
    rw [List.length_append]
    omega
  rw [write_of_lt hmore, write_of_lt h, List.take_append_of_le_length h.le]

/-- Writing chunks in turn is one write of all their bytes. -/
theorem writeAll_eq (chunks : List Word) (s : Sink) :
    writeAll chunks s = s.write chunks.flatten := by
  induction chunks generalizing s with
  | nil => exact (write_nil s).symm
  | cons chunk rest ih =>
    rw [List.flatten_cons]
    rcases Nat.lt_or_ge s.room chunk.length with hover | hfits
    · -- The writing ends here, and the sink has no room for the rest.
      rw [writeAll, write_append_of_lt hover, write_of_lt hover]
    · calc writeAll (chunk :: rest) s
          = writeAll rest ⟨s.capacity, s.written ++ chunk⟩ := by rw [writeAll, write_of_le hfits]
        _ = write ⟨s.capacity, s.written ++ chunk⟩ rest.flatten := ih _
        _ = s.write (chunk ++ rest.flatten) := (write_append_of_le hfits _).symm

/-! ## The first write that fails -/

/-- The writing of chunks gets as far as `chunk`, with the sink as `reached` has it, and the write of
`chunk` fails. -/
def FailsAt (chunks : List Word) (s reached : Sink) (chunk : Word) : Prop :=
  ∃ front rest, chunks = front ++ chunk :: rest ∧ writeAll front s = (true, reached) ∧
    (reached.write chunk).1 = false

/-- If the writing of some chunks succeeds, then the writing of more than them goes on behind them. -/
theorem writeAll_append {front : List Word} {s reached : Sink}
    (hfront : writeAll front s = (true, reached)) (rest : List Word) :
    writeAll (front ++ rest) s = writeAll rest reached := by
  induction front generalizing s with
  | nil =>
    obtain ⟨-, rfl⟩ := Prod.mk.inj hfront
    rfl
  | cons first front ih =>
    rw [writeAll] at hfront
    rw [List.cons_append, writeAll]
    rcases hfirst : s.write first with ⟨_ | _, after⟩
    · rw [hfirst] at hfront
      exact absurd (Prod.mk.inj hfront).1 Bool.false_ne_true
    · rw [hfirst] at hfront
      exact ih hfront

/-- Writing chunks fails exactly if one write is the first to fail, and ends with it: the chunks
behind it are not written. -/
theorem writeAll_eq_false_iff {chunks : List Word} {s s' : Sink} :
    writeAll chunks s = (false, s')
      ↔ ∃ reached chunk, FailsAt chunks s reached chunk ∧ s' = (reached.write chunk).2 := by
  constructor
  · intro hfails
    induction chunks generalizing s with
    | nil => exact absurd (Prod.mk.inj hfails).1.symm Bool.false_ne_true
    | cons first rest ih =>
      -- Either the first write fails, or the one that does is among the others.
      rw [writeAll] at hfails
      rcases hfirst : s.write first with ⟨_ | _, after⟩
      · rw [hfirst] at hfails
        refine ⟨s, first, ⟨[], rest, rfl, rfl, by rw [hfirst]⟩, ?_⟩
        rw [hfirst]
        exact (Prod.mk.inj hfails).2.symm
      · rw [hfirst] at hfails
        obtain ⟨reached, chunk, ⟨front, behind, rfl, hfront, hchunk⟩, rfl⟩ := ih hfails
        refine ⟨reached, chunk, ⟨first :: front, behind, rfl, ?_, hchunk⟩, rfl⟩
        rw [writeAll, hfirst]
        exact hfront
  · rintro ⟨reached, chunk, ⟨front, behind, rfl, hfront, hchunk⟩, rfl⟩
    rw [writeAll_append hfront, writeAll]
    rcases hwrite : reached.write chunk with ⟨_ | _, after⟩
    · rfl
    · rw [hwrite] at hchunk
      exact absurd hchunk.symm Bool.false_ne_true

end Sink

namespace Listing

variable {C : Type} [Code C]

/-- The bytes of texts that are joined are theirs in turn. -/
theorem ofText_join (texts : List String) :
    Word.ofText (String.join texts) = (texts.map Word.ofText).flatten := by
  rw [Word.ofText_eq, String.toList_join, List.flatMap_assoc, ← List.flatMap_def]
  exact List.flatMap_congr fun text _ => (Word.ofText_eq text).symm

/-- The lines that are written are the bytes of the source. -/
theorem flatten_lines (t : Table C) (codePath : String) :
    ((lines t codePath).map fun line => Word.ofText (line ++ "\n")).flatten
      = Word.ofText (source t codePath) := by
  rw [source, ofText_join, List.map_map]
  rfl

/-- However the source is cut into writes, writing a table is writing them in turn. -/
theorem writeTo_eq (t : Table C) (codePath : String) (s : Sink) {pieces : List Word}
    (hpieces : pieces.flatten = Word.ofText (source t codePath)) :
    writeTo s t codePath = Sink.writeAll pieces s := by
  rw [writeTo, Sink.writeAll_eq, Sink.writeAll_eq, flatten_lines, hpieces]

/-- Into a sink for `n` bytes, the writing of a table succeeds exactly if its source has at most `n`
bytes, and what is written is what fits of the source, whether it succeeds or not. However the source
is cut into writes, this is what writing the pieces in turn does; and it fails exactly if one of them
is the first whose write fails, with what that write leaves. -/
theorem writeTo_exact (t : Table C) (codePath : String) (n : Nat) :
    ((writeTo (.ofCapacity n) t codePath).1 = true ↔ (source t codePath).utf8ByteSize ≤ n) ∧
    (writeTo (.ofCapacity n) t codePath).2.written.toList
      = (Word.ofText (source t codePath)).take (min n (source t codePath).utf8ByteSize) ∧
    ∀ pieces : List Word, pieces.flatten = Word.ofText (source t codePath) →
      writeTo (.ofCapacity n) t codePath = Sink.writeAll pieces (.ofCapacity n) ∧
      ∀ s, writeTo (.ofCapacity n) t codePath = (false, s) ↔
        ∃ reached piece, Sink.FailsAt pieces (.ofCapacity n) reached piece ∧
          s = (reached.write piece).2 := by
  have hwrite : writeTo (.ofCapacity n) t codePath
      = Sink.write (.ofCapacity n) (Word.ofText (source t codePath)) := by
    rw [writeTo, Sink.writeAll_eq, flatten_lines]
  refine ⟨?_, ?_, fun pieces hpieces => ⟨writeTo_eq t codePath _ hpieces, fun s => ?_⟩⟩
  · rw [hwrite, Sink.write_eq, Sink.room_ofCapacity, decide_eq_true_iff, Word.length_ofText]
  · rw [hwrite, Sink.write_eq, Sink.room_ofCapacity, ← Word.length_ofText, ← List.take_eq_take_min]
    exact Array.toList_appendList
  · rw [writeTo_eq t codePath _ hpieces]
    exact Sink.writeAll_eq_false_iff

/-- Thirty bytes end within the first line, also if every byte is a write of its own. -/
theorem writeTo_thirtyBytes :
    (writeTo (.ofCapacity 30) (escapedTexts .b .bl) "Mnemonic").1 = false ∧
    (writeTo (.ofCapacity 30) (escapedTexts .b .bl) "Mnemonic").2.written.toList
      = Word.ofText "// Generated by `mnemonic tabl" ∧
    ((Word.ofText (source (escapedTexts .b .bl) "Mnemonic")).map ([·])).flatten
      = Word.ofText (source (escapedTexts .b .bl) "Mnemonic") ∧
    writeTo (.ofCapacity 30) (escapedTexts .b .bl) "Mnemonic"
      = Sink.writeAll ((Word.ofText (source (escapedTexts .b .bl) "Mnemonic")).map ([·]))
          (.ofCapacity 30) := by
  obtain ⟨hfits, hwritten, hpieces⟩ := writeTo_exact (escapedTexts .b .bl) "Mnemonic" 30
  obtain ⟨rest, hsource⟩ : ∃ rest, Word.ofText (source (escapedTexts .b .bl) "Mnemonic")
      = Word.ofText ("// Generated by `mnemonic table --rust`." ++ "\n") ++ rest :=
    ⟨_, (flatten_lines _ _).symm⟩
  have hlarge : 30 < (source (escapedTexts .b .bl) "Mnemonic").utf8ByteSize := by
    rw [← Word.length_ofText, hsource, List.length_append]
    exact Nat.lt_add_right _ (by decide +kernel)
  have hbytes : ((Word.ofText (source (escapedTexts .b .bl) "Mnemonic")).map ([·])).flatten
      = Word.ofText (source (escapedTexts .b .bl) "Mnemonic") := by
    rw [← List.flatMap_def, List.flatMap_singleton']
  refine ⟨?_, ?_, hbytes, (hpieces _ hbytes).1⟩
  · rw [Bool.eq_false_iff, ne_eq, hfits]
    exact Nat.not_le.2 hlarge
  · rw [hwritten, Nat.min_eq_left hlarge.le, hsource,
      List.take_append_of_le_length (by decide +kernel)]
    decide +kernel

end Listing

end KeywordHash
