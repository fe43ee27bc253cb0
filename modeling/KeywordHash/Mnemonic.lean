import KeywordHash.Table

/-!
# Mnemonics

The closed set of instruction mnemonics and directives of the assembler, in the order of their
numbers: loads and stores, arithmetic and logic, branches, the few others, directives. `invalid` is
number zero, stands for every word outside the set and is not one of `all`.

The builtin vocabulary has them all, and its table is asked about a token: a word, a text, the first
bytes of a buffer, or a buffer that a NUL ends. Mnemonics are matched exactly and in their case;
what a misspelled one was meant to be is for `suggest?`. Definition files name mnemonics through the
same table.
-/

namespace KeywordHash

/-! ## Branch conditions -/

/-- What a branch tests before it is taken. -/
inductive Condition where
  /-- Nothing: the branch is always taken. -/
  | always
  /-- The zero flag is set. -/
  | equal
  /-- The zero flag is clear. -/
  | notEqual
  /-- The carry flag is set. -/
  | carrySet
  /-- The carry flag is clear. -/
  | carryClear
  /-- The negative flag is set. -/
  | minus
  /-- The negative flag is clear. -/
  | plus
  /-- The overflow flag is set. -/
  | overflowSet
  /-- The overflow flag is clear. -/
  | overflowClear
  /-- Unsigned higher. -/
  | higher
  /-- Unsigned lower or same. -/
  | lowerOrSame
  /-- Signed greater than or equal. -/
  | greaterOrEqual
  /-- Signed less than. -/
  | lessThan
  /-- Signed greater than. -/
  | greaterThan
  /-- Signed less than or equal. -/
  | lessOrEqual
deriving DecidableEq, Repr

namespace Condition

/-- What follows `b` or `bl` in the mnemonic of a branch on the condition. -/
def suffix : Condition → String
  | always => ""
  | equal => "eq"
  | notEqual => "ne"
  | carrySet => "cs"
  | carryClear => "cc"
  | minus => "mi"
  | plus => "pl"
  | overflowSet => "vs"
  | overflowClear => "vc"
  | higher => "hi"
  | lowerOrSame => "ls"
  | greaterOrEqual => "ge"
  | lessThan => "lt"
  | greaterThan => "gt"
  | lessOrEqual => "le"

/-- The name of the condition. -/
def name : Condition → String
  | always => "Always"
  | equal => "Equal"
  | notEqual => "NotEqual"
  | carrySet => "CarrySet"
  | carryClear => "CarryClear"
  | minus => "Minus"
  | plus => "Plus"
  | overflowSet => "OverflowSet"
  | overflowClear => "OverflowClear"
  | higher => "Higher"
  | lowerOrSame => "LowerOrSame"
  | greaterOrEqual => "GreaterOrEqual"
  | lessThan => "LessThan"
  | greaterThan => "GreaterThan"
  | lessOrEqual => "LessOrEqual"

end Condition

/-! ## The set -/

/-- A mnemonic or directive, or `invalid` for a word that is neither. -/
inductive Mnemonic where
  | invalid | ld | ldb | ldh | ldsb | ldsh | st | stb | sth | stsb | stsh | push | pop | smv | scl
  | sst | add | adc | sub | sbc | and | or | xor | btc | addk | adck | subk | sbck | andk | ork
  | xork | btck | nop | tst | teq | cmp | cpn | lsl | lsr | asr | lslk | mov | not | notk | b | beq
  | bne | bcs | bcc | bmi | bpl | bvs | bvc | bhi | bls | bge | blt | bgt | ble | bl | bleq | blne
  | blcs | blcc | blmi | blpl | blvs | blvc | blhi | blls | blge | bllt | blgt | blle | mvi | swi
  | m32 | addr | word | half | byte | ascii | align
deriving DecidableEq, Repr

namespace Mnemonic

instance : Inhabited Mnemonic := ⟨invalid⟩

/-- Every mnemonic except `invalid`, in the order of their numbers. -/
def all : List Mnemonic := [
  .ld, .ldb, .ldh, .ldsb, .ldsh, .st, .stb, .sth, .stsb, .stsh, .push, .pop, .smv, .scl, .sst,
  .add, .adc, .sub, .sbc, .and, .or, .xor, .btc, .addk, .adck, .subk, .sbck, .andk, .ork, .xork,
  .btck, .nop, .tst, .teq, .cmp, .cpn, .lsl, .lsr, .asr, .lslk, .mov, .not, .notk, .b, .beq, .bne,
  .bcs, .bcc, .bmi, .bpl, .bvs, .bvc, .bhi, .bls, .bge, .blt, .bgt, .ble, .bl, .bleq, .blne, .blcs,
  .blcc, .blmi, .blpl, .blvs, .blvc, .blhi, .blls, .blge, .bllt, .blgt, .blle, .mvi, .swi, .m32,
  .addr, .word, .half, .byte, .ascii, .align
]

/-- The source text of the mnemonic. -/
def text : Mnemonic → String
  | invalid => "invalid"
  | ld => "ld"
  | ldb => "ldb"
  | ldh => "ldh"
  | ldsb => "ldsb"
  | ldsh => "ldsh"
  | st => "st"
  | stb => "stb"
  | sth => "sth"
  | stsb => "stsb"
  | stsh => "stsh"
  | push => "push"
  | pop => "pop"
  | smv => "smv"
  | scl => "scl"
  | sst => "sst"
  | add => "add"
  | adc => "adc"
  | sub => "sub"
  | sbc => "sbc"
  | and => "and"
  | or => "or"
  | xor => "xor"
  | btc => "btc"
  | addk => "addk"
  | adck => "adck"
  | subk => "subk"
  | sbck => "sbck"
  | andk => "andk"
  | ork => "ork"
  | xork => "xork"
  | btck => "btck"
  | nop => "nop"
  | tst => "tst"
  | teq => "teq"
  | cmp => "cmp"
  | cpn => "cpn"
  | lsl => "lsl"
  | lsr => "lsr"
  | asr => "asr"
  | lslk => "lslk"
  | mov => "mov"
  | not => "not"
  | notk => "notk"
  | b => "b"
  | beq => "beq"
  | bne => "bne"
  | bcs => "bcs"
  | bcc => "bcc"
  | bmi => "bmi"
  | bpl => "bpl"
  | bvs => "bvs"
  | bvc => "bvc"
  | bhi => "bhi"
  | bls => "bls"
  | bge => "bge"
  | blt => "blt"
  | bgt => "bgt"
  | ble => "ble"
  | bl => "bl"
  | bleq => "bleq"
  | blne => "blne"
  | blcs => "blcs"
  | blcc => "blcc"
  | blmi => "blmi"
  | blpl => "blpl"
  | blvs => "blvs"
  | blvc => "blvc"
  | blhi => "blhi"
  | blls => "blls"
  | blge => "blge"
  | bllt => "bllt"
  | blgt => "blgt"
  | blle => "blle"
  | mvi => "mvi"
  | swi => "swi"
  | m32 => "m32"
  | addr => "addr"
  | word => "word"
  | half => "half"
  | byte => "byte"
  | ascii => "ascii"
  | align => "align"

/-- The name of the mnemonic in a listing: its text with a capital. -/
def name (m : Mnemonic) : String := m.text.capitalize

/-- The number of the mnemonic: zero for `invalid`, the others count from 1 in the order of `all`. -/
def number (m : Mnemonic) : Nat := m.ctorIdx

/-- The mnemonic with a given number. -/
def ofNumber? (n : Int) : Option Mnemonic :=
  if n = 0 then some invalid
  else if n < 0 then none
  else all[n.toNat - 1]?

/-- Whether the mnemonic is an assembler directive. -/
def isDirective : Mnemonic → Bool
  | word | half | byte | ascii | align => true
  | _ => false

/-- The condition that a branch tests; other mnemonics have none. -/
def condition? : Mnemonic → Option Condition
  | b | bl => some .always
  | beq | bleq => some .equal
  | bne | blne => some .notEqual
  | bcs | blcs => some .carrySet
  | bcc | blcc => some .carryClear
  | bmi | blmi => some .minus
  | bpl | blpl => some .plus
  | bvs | blvs => some .overflowSet
  | bvc | blvc => some .overflowClear
  | bhi | blhi => some .higher
  | bls | blls => some .lowerOrSame
  | bge | blge => some .greaterOrEqual
  | blt | bllt => some .lessThan
  | bgt | blgt => some .greaterThan
  | ble | blle => some .lessOrEqual
  | _ => none

/-- Whether the mnemonic is a branch, conditional or not. -/
def isBranch (m : Mnemonic) : Bool := m.condition?.isSome

/-- Whether the mnemonic is a branch that links: `bl` with the suffix of its condition. The length
tells it from `b` with a suffix that starts in `l`. -/
def isLink (m : Mnemonic) : Bool :=
  match m.condition? with
  | some condition => (Word.ofText m.text).length = 2 + (Word.ofText condition.suffix).length
  | none => false

instance : Code Mnemonic where
  invalid := invalid
  name := name

end Mnemonic

/-- A number or a name that denotes no mnemonic. -/
inductive UnknownMnemonic where
  /-- The number is out of range. -/
  | number (n : Int)
  /-- The name is no mnemonic text. -/
  | name (text : String)
deriving DecidableEq, Repr

namespace UnknownMnemonic

/-- What is reported of an unknown number or name. -/
def message : UnknownMnemonic → String
  | number n => "unknown mnemonic code " ++ toString n
  | name text => "unknown mnemonic '" ++ text ++ "'"

end UnknownMnemonic

/-! ## The table -/

/-- Every mnemonic under its own text. -/
def Vocabulary.builtin : Vocabulary Mnemonic where
  entries := Mnemonic.all.map fun m => ⟨m.text, m⟩
  valid := Vocabulary.fault?_eq_none_iff.1 (by decide +kernel)

namespace Mnemonic

/-- The table of the builtin vocabulary under the default parameters. -/
def table : Except BuildError (Table Mnemonic) := Table.build Vocabulary.builtin

/-- The mnemonic that is exactly the given word. -/
def resolve (word : Word) : Mnemonic :=
  match table with
  | .ok t => t.lookup word
  | .error _ => .invalid

/-- The mnemonic that is exactly the given text. -/
def resolveText (text : String) : Mnemonic := resolve (Word.ofText text)

/-- The mnemonic that the first `length` bytes of a buffer are; none if the buffer is shorter. -/
def resolveSpan (buffer : Word) (length : Nat) : Mnemonic :=
  if length ≤ buffer.length then resolve (buffer.take length) else .invalid

/-- The mnemonic that the bytes of a buffer before its first NUL are, or all its bytes if it has
none. -/
def resolveTerminated (buffer : Word) : Mnemonic := resolve (buffer.takeWhile (· ≠ 0))

/-- The mnemonic that an unrecognized text may have been meant for. -/
def suggest? (text : String) : Option Mnemonic :=
  (Vocabulary.builtin.suggest? text 1).map Entry.code

/-- The mnemonic with a given text. The text of `invalid` names none. -/
def ofName? (text : String) : Option Mnemonic :=
  match resolveText text with
  | .invalid => none
  | m => some m

instance : NamedCode Mnemonic where
  ofName? := ofName?

/-- The mnemonic with a given text, or the error that there is none. -/
def ofName (text : String) : Except UnknownMnemonic Mnemonic :=
  match ofName? text with
  | some m => .ok m
  | none => .error (.name text)

/-- The mnemonic with a given number, or the error that there is none. -/
def ofNumber (n : Int) : Except UnknownMnemonic Mnemonic :=
  match ofNumber? n with
  | some m => .ok m
  | none => .error (.number n)

end Mnemonic

end KeywordHash
