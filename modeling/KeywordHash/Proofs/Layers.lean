import KeywordHash.Definition.ParseError

/-!
# What errors gather on the way out

An error passes outwards through the readers, and each of them may add what it was looking for or
what it was reading. All of this comes behind the frames that the error came with
(`frames_wrapped`), and none of it is a fault. Whoever wants the innermost frame or the fault looks
from the inside and so finds what was there before (`innermost_wrapped`, `fault?_wrapped`). The
construct is looked for from the outside, so it is the one that was added last
(`context?_wrapped`). `wrapped_exact` says what this makes of all that is reported.
-/

namespace KeywordHash.Definition

/-- What a reader adds to an error that passes it. -/
inductive Layer where
  /-- What was sought. -/
  | seeking (rest : List Char) (sought : Expectation)
  /-- The construct that was being read. -/
  | within (rest : List Char) (name : String)
deriving DecidableEq, Repr

namespace Layer

/-- The frame of a layer. -/
def frame : Layer → Frame
  | seeking rest sought => ⟨rest, .unexpected sought⟩
  | within rest name => ⟨rest, .context name⟩

/-- The construct that a layer names. -/
def construct? : Layer → Option String
  | seeking _ _ => none
  | within _ name => some name

/-- A layer is no fault. -/
theorem cause_frame_ne (layer : Layer) (problem : Fault) : layer.frame.cause ≠ .fault problem := by
  rcases layer with _ | _
  · exact Cause.noConfusion
  · exact Cause.noConfusion

/-- A layer names no construct exactly if it tells what was sought. -/
theorem construct?_eq_none_iff {layer : Layer} :
    layer.construct? = none ↔ ∃ rest sought, layer = seeking rest sought := by
  rcases layer with ⟨rest, sought⟩ | ⟨rest, name⟩
  · exact ⟨fun _ => ⟨rest, sought, rfl⟩, fun _ => rfl⟩
  · simp [construct?]

end Layer

namespace ParseError

/-- The error with one more layer. -/
def wrap (e : ParseError) : Layer → ParseError
  | .seeking rest sought => e.seeking rest sought
  | .within rest name => e.within rest name

/-- The error with more layers, the first of them the innermost. -/
def wrapped (e : ParseError) (layers : List Layer) : ParseError := layers.foldl wrap e

/-! ## The stack -/

/-- A layer comes behind all frames. -/
theorem frames_wrap (e : ParseError) (layer : Layer) :
    (e.wrap layer).frames = e.frames ++ [layer.frame] := by
  cases layer with
  | seeking rest sought => rfl
  | within rest name => rfl

/-- Layers come behind all frames, in their order. -/
theorem frames_wrapped (e : ParseError) (layers : List Layer) :
    (e.wrapped layers).frames = e.frames ++ layers.map Layer.frame := by
  unfold wrapped
  induction layers generalizing e with
  | nil => exact (List.append_nil _).symm
  | cons layer rest ih =>
    rw [List.foldl_cons, ih, frames_wrap, List.append_assoc]
    rfl

/-! ## Looking from the inside -/

/-- The innermost frame of an error that has one stays innermost. -/
theorem innermost_wrapped {e : ParseError} (h : e.frames ≠ []) (layers : List Layer) :
    (e.wrapped layers).innermost = e.innermost := by
  obtain ⟨frame, outer, hframes⟩ := List.exists_cons_of_ne_nil h
  unfold innermost
  rw [frames_wrapped, hframes]
  rfl

/-- What is reported of an error that has a frame is the report of that frame. -/
theorem message_of_ne_nil {e : ParseError} (h : e.frames ≠ []) :
    e.message = (of e.innermost.rest e.innermost.cause).message := by
  obtain ⟨⟨rest, cause⟩, outer, hframes⟩ := List.exists_cons_of_ne_nil h
  unfold message innermost of
  rw [hframes]
  -- Without input left, the report is the cause alone.
  rcases rest with _ | ⟨c, rest⟩
  · rfl
  · rfl

/-- What is reported of an error that has a frame stays the same. -/
theorem message_wrapped {e : ParseError} (h : e.frames ≠ []) (layers : List Layer) :
    (e.wrapped layers).message = e.message := by
  have hne : (e.wrapped layers).frames ≠ [] := by
    rw [frames_wrapped]
    exact List.append_ne_nil_of_left_ne_nil h _
  rw [message_of_ne_nil h, message_of_ne_nil hne, innermost_wrapped h]

/-- The place of an error that has a frame stays the same, up to the construct. -/
theorem locate_wrapped {e : ParseError} (h : e.frames ≠ []) (layers : List Layer)
    (source : List Char) :
    (e.wrapped layers).locate source
      = { e.locate source with context? := (e.wrapped layers).context? } := by
  unfold locate
  rw [innermost_wrapped h]

/-- The fault stays the same. -/
theorem fault?_wrapped (e : ParseError) (layers : List Layer) :
    (e.wrapped layers).fault? = e.fault? := by
  unfold fault?
  rw [frames_wrapped, List.findSome?_append]
  -- The search goes on into the layers only where no frame is a fault, and finds none there.
  refine (congrArg (Option.or _) (List.findSome?_eq_none_iff.2 ?_)).trans (Option.or_none)
  intro frame hframe
  obtain ⟨layer, -, rfl⟩ := List.mem_map.1 hframe
  split
  · next problem hcause => exact absurd hcause (layer.cause_frame_ne problem)
  · rfl

/-! ## Looking from the outside -/

/-- The construct is the one that was added last, or the one that there was. -/
theorem context?_wrapped (e : ParseError) (layers : List Layer) :
    (e.wrapped layers).context?
      = (layers.reverse.findSome? Layer.construct?).or e.context? := by
  unfold context?
  -- From the outside the layers come first, the last of them in front.
  rw [frames_wrapped, List.reverse_append, List.findSome?_append, ← List.map_reverse,
    List.findSome?_map]
  congr 2
  funext layer
  cases layer with
  | seeking rest sought => rfl
  | within rest name => rfl

/-- Layers that tell what was sought keep the construct. -/
theorem context?_wrapped_of_seeking (e : ParseError) {layers : List Layer}
    (h : ∀ layer ∈ layers, ∃ rest sought, layer = .seeking rest sought) :
    (e.wrapped layers).context? = e.context? := by
  have hnone : layers.reverse.findSome? Layer.construct? = none := by
    rw [List.findSome?_eq_none_iff]
    intro layer hlayer
    exact Layer.construct?_eq_none_iff.2 (h layer (List.mem_reverse.1 hlayer))
  rw [context?_wrapped, hnone, Option.none_or]

/-- Wrapping an error in some layers and then in others is wrapping it in all of them. -/
theorem wrapped_append (e : ParseError) (inner outer : List Layer) :
    e.wrapped (inner ++ outer) = (e.wrapped inner).wrapped outer :=
  List.foldl_append

/-- The construct named last is the construct. -/
theorem context?_wrapped_of_within (e : ParseError) (inner outer : List Layer) (rest : List Char)
    (name : String) (h : ∀ layer ∈ outer, ∃ rest sought, layer = .seeking rest sought) :
    (e.wrapped (inner ++ .within rest name :: outer)).context? = some name := by
  have hsplit : inner ++ Layer.within rest name :: outer
      = inner ++ [Layer.within rest name] ++ outer := by simp
  rw [hsplit, wrapped_append, context?_wrapped_of_seeking _ h, context?_wrapped,
    List.reverse_append]
  rfl

/-- Whatever an error that has a frame gathers on the way out, in any order and number, its fault,
its report and its place in any text stay the same, the cause and the excerpt included. Only the
construct changes: it is the one that was named last, or stays the same if none was. -/
theorem wrapped_exact {e : ParseError} (h : e.frames ≠ []) (layers : List Layer) :
    (e.wrapped layers).fault? = e.fault? ∧
      (e.wrapped layers).message = e.message ∧
      (∀ source, (e.wrapped layers).locate source
        = { e.locate source with context? := (e.wrapped layers).context? }) ∧
      (∀ inner rest name outer, layers = inner ++ .within rest name :: outer →
        (∀ layer ∈ outer, ∃ rest sought, layer = .seeking rest sought) →
          (e.wrapped layers).context? = some name) ∧
      ((∀ layer ∈ layers, ∃ rest sought, layer = .seeking rest sought) →
        (e.wrapped layers).context? = e.context?) := by
  refine ⟨e.fault?_wrapped layers, message_wrapped h layers, locate_wrapped h layers, ?_,
    e.context?_wrapped_of_seeking⟩
  rintro inner rest name outer rfl houter
  exact e.context?_wrapped_of_within inner outer rest name houter

/-- An unknown name in the second line of a text. -/
def unknownName : ParseError := of "st\n".toList (.fault (.unknownCode "st"))

/-- A way out on which two constructs are named, each with a sought form behind it. -/
def wayOut : List Layer :=
  [.within "st st\n".toList "entry", .seeking "st st\n".toList .lineEnd,
    .within "ld\nst st\n".toList "definition", .seeking [] (.form "digit")]

/-- The unknown name is still reported as it was found, within the construct that was named last. -/
theorem wrapped_unknownName :
    unknownName.frames ≠ [] ∧
      (unknownName.wrapped wayOut).fault? = some (.unknownCode "st") ∧
      (unknownName.wrapped wayOut).message = "unknown code 'st' at: st" ∧
      ((unknownName.wrapped wayOut).locate "ld\nst st\n".toList).location = ⟨2, 4⟩ ∧
      (unknownName.wrapped wayOut).context? = some "definition" := by
  have hframes : unknownName.frames ≠ [] := by decide
  have hmessage : unknownName.message = "unknown code 'st' at: st" := by decide +kernel
  have hplace : (unknownName.locate "ld\nst st\n".toList).location = ⟨2, 4⟩ := by decide +kernel
  obtain ⟨hfault, hreport, hlocate, hnamed, -⟩ := wrapped_exact hframes wayOut
  refine ⟨hframes, hfault, hreport.trans hmessage, ?_, ?_⟩
  · rw [hlocate]
    exact hplace
  · exact hnamed [.within "st st\n".toList "entry", .seeking "st st\n".toList .lineEnd]
      "ld\nst st\n".toList "definition" [.seeking [] (.form "digit")] rfl (by simp)

end ParseError

end KeywordHash.Definition
