import KeywordHash.Vocabulary

/-!
# Errors in definition files

An error is a stack of frames, the innermost in front: each names a cause and the input that was
left when it arose. The innermost frame says what went wrong and where (`message`, `locate`). The
frames added on the way out tell what was sought (`seeking`) and what was being read (`within`); of
these, only the outermost construct is reported (`context?`).
-/

namespace KeywordHash.Definition

/-- What a definition file can get wrong besides its form. -/
inductive Fault where
  /-- No code has this name. -/
  | unknownCode (name : String)
  /-- The entries are no vocabulary. -/
  | vocabulary (error : VocabularyError)
deriving DecidableEq, Repr

/-- What is reported of a fault. -/
def Fault.message : Fault → String
  | unknownCode name => "unknown code '" ++ name ++ "'"
  | vocabulary error => "invalid vocabulary: " ++ error.message

/-- What the reader was looking for where the input did not fit. -/
inductive Expectation where
  /-- The end of the input. -/
  | endOfInput
  /-- One of the ways a line ends. -/
  | lineEnd
  /-- A given text. -/
  | literal
  /-- Another form, by its name. -/
  | form (name : String)
deriving DecidableEq, Repr

/-- What a frame of an error tells. -/
inductive Cause where
  /-- The input stops too soon. -/
  | incomplete
  /-- The construct that was being read. -/
  | context (name : String)
  /-- A fault in what was read. -/
  | fault (problem : Fault)
  /-- Input of another form than expected. -/
  | unexpected (sought : Expectation)
deriving DecidableEq, Repr

/-- What is reported of a cause. -/
def Cause.message : Cause → String
  | incomplete => "expected more input"
  | context name => "invalid " ++ name
  | fault problem => problem.message
  | unexpected _ => "unexpected input"

/-- A cause and the input left where it arose. -/
structure Frame where
  /-- The input left. -/
  rest : List Char
  /-- The cause. -/
  cause : Cause
deriving DecidableEq, Repr

/-- A stack of frames, the innermost in front. -/
structure ParseError where
  /-- The frames. -/
  frames : List Frame
deriving DecidableEq, Repr

/-- An error with its place in a text. -/
structure LocatedError where
  /-- The place. -/
  location : Location
  /-- The construct that was being read. -/
  context? : Option String
  /-- The cause. -/
  cause : Cause
  /-- The start of the text at the place. -/
  excerpt : List Char
deriving DecidableEq, Repr

/-- What is reported of an error with its place. -/
def LocatedError.message (e : LocatedError) : String :=
  "at line " ++ toString e.location.line ++ " col " ++ toString e.location.column ++ ": "
    ++ e.cause.message ++ ", at '" ++ String.ofList e.excerpt ++ "'"
    ++ match e.context? with
      | some name => " (in " ++ name ++ ")"
      | none => ""

namespace ParseError

/-- The error of a single cause. -/
def of (rest : List Char) (cause : Cause) : ParseError := ⟨[⟨rest, cause⟩]⟩

/-- Adds on the outside what was sought when the error came up. -/
def seeking (e : ParseError) (rest : List Char) (sought : Expectation) : ParseError :=
  ⟨e.frames ++ [⟨rest, .unexpected sought⟩]⟩

/-- Adds on the outside the construct that was being read. -/
def within (e : ParseError) (rest : List Char) (name : String) : ParseError :=
  ⟨e.frames ++ [⟨rest, .context name⟩]⟩

/-- The outermost construct that was being read. -/
def context? (e : ParseError) : Option String :=
  e.frames.reverse.findSome? fun frame => match frame.cause with
    | .context name => some name
    | _ => none

/-- The fault that the error is about, if its input had the right form. -/
def fault? (e : ParseError) : Option Fault :=
  e.frames.findSome? fun frame => match frame.cause with
    | .fault problem => some problem
    | _ => none

/-- What is reported of the error without the text it arose in. -/
def message (e : ParseError) : String :=
  match e.frames with
  | [] => "unknown error"
  | ⟨[], cause⟩ :: _ => cause.message
  | ⟨rest, cause⟩ :: _ => cause.message ++ " at: " ++ String.ofList (KeywordHash.excerpt rest)

/-- The innermost frame; an error without frames is one of missing input. -/
def innermost (e : ParseError) : Frame := e.frames.headD ⟨[], .incomplete⟩

/-- Finds the place of the error in a text: as far before its end as the innermost input is long,
and back to the start of the character there. -/
def locate (e : ParseError) (source : List Char) : LocatedError :=
  let (before, here) := splitAtSize (utf8Size source - utf8Size e.innermost.rest) source
  { location := Location.after before
    context? := e.context?
    cause := e.innermost.cause
    excerpt := KeywordHash.excerpt here }

end ParseError

end KeywordHash.Definition
