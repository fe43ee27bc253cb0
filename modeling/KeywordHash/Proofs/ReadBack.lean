import Mathlib.Tactic.SplitIfs
import KeywordHash.Listing
import KeywordHash.Text.Escape

/-!
# Patterns, numbers and literals are read back

The first occurrence of a pattern is where it should be if the text before lacks one of its
characters (`cut?_eq_some`): an earlier occurrence would put this character there. So a text is cut
in one way only (`append_pattern_inj`). The decimal form of a number consists of digits; it is read
back as the number (`Number.readNat?_toDigits`), and the first other character ends it
(`toDigits_append_inj`).

A style that puts a backslash before the double quote, and before no character but quotes, is read
back character by character (`readChars?_escapeChar`), whichever characters it writes by number. The
digits of such a number are read as the number (`readHex?_toDigits`). So a text in quotes is read as
the text, up to its closing quote and no further (`readLiteral?_quoted`).
-/

namespace KeywordHash

/-! ## Patterns -/

/-- A pattern that starts a text is found there. -/
theorem cut?_append (pattern rest : List Char) :
    cut? pattern (pattern ++ rest) = some ([], rest) := by
  rcases hlist : pattern ++ rest with _ | ⟨c, cs⟩
  · obtain ⟨rfl, rfl⟩ := List.append_eq_nil_iff.1 hlist
    rfl
  · have hprefix : pattern.isPrefixOf (c :: cs) = true := by
      rw [List.isPrefixOf_iff_prefix, ← hlist]
      exact List.prefix_append pattern rest
    rw [cut?, if_pos hprefix, ← hlist, List.drop_left]

variable {before before' start stop rest rest' : List Char} {c : Char}

/-- A pattern does not start a text that has characters in front of its occurrence, if one of the
pattern's characters is neither among them nor earlier in the pattern. -/
theorem not_prefix_of_not_mem {b : Char} (hbefore : c ∉ b :: before) (hstart : c ∉ start) :
    ¬ start ++ c :: stop <+: b :: (before ++ (start ++ c :: stop ++ rest)) := by
  rintro ⟨tail, heq⟩
  have hshort : start.length < (b :: before ++ start).length := by
    rw [List.length_append, List.length_cons]
    omega
  -- The character would stand behind as many others as the pattern has before it.
  have htexts : b :: before ++ start ++ (c :: stop ++ rest) = start ++ c :: (stop ++ tail) := by
    simpa using heq.symm
  have hchar : (b :: before ++ start)[start.length]? = some c := by
    calc (b :: before ++ start)[start.length]?
        = (b :: before ++ start ++ (c :: stop ++ rest))[start.length]? :=
          (List.getElem?_append_left hshort).symm
      _ = (start ++ c :: (stop ++ tail))[start.length]? := by rw [htexts]
      _ = some c := by simp
  rcases List.mem_append.1 (List.mem_of_getElem? hchar) with hmem | hmem
  · exact hbefore hmem
  · exact hstart hmem

/-- A pattern is found behind a text that lacks one of its characters, the first of its kind in the
pattern. -/
theorem cut?_eq_some (start stop : List Char) (hbefore : c ∉ before) (hstart : c ∉ start) :
    cut? (start ++ c :: stop) (before ++ (start ++ c :: stop ++ rest)) = some (before, rest) := by
  induction before with
  | nil => exact cut?_append _ rest
  | cons b before ih =>
    have hnot : ¬ (start ++ c :: stop).isPrefixOf
        (b :: (before ++ (start ++ c :: stop ++ rest))) = true := by
      rw [List.isPrefixOf_iff_prefix]
      exact not_prefix_of_not_mem hbefore hstart
    rw [List.cons_append, cut?, if_neg hnot, ih fun hmem => hbefore (List.mem_cons_of_mem _ hmem)]
    rfl

/-- A text is cut in one way at a pattern, if what is before lacks one of its characters. -/
theorem append_pattern_inj (start stop : List Char) (hbefore : c ∉ before)
    (hbefore' : c ∉ before') (hstart : c ∉ start)
    (h : before ++ (start ++ c :: stop ++ rest) = before' ++ (start ++ c :: stop ++ rest')) :
    before = before' ∧ rest = rest' := by
  have hcut := congrArg (cut? (start ++ c :: stop)) h
  rw [cut?_eq_some start stop hbefore hstart, cut?_eq_some start stop hbefore' hstart] at hcut
  exact Prod.mk.inj (Option.some.inj hcut)

/-! ## Decimal forms -/

/-- A character that is no digit is not in a decimal form. -/
theorem not_mem_toDigits {c : Char} (hc : c.isDigit = false) (n : Nat) :
    c ∉ Nat.toDigits 10 n := by
  intro hmem
  have hdigit := Nat.isDigit_of_mem_toDigits (by omega) (Nat.le_refl 10) hmem
  rw [hc] at hdigit
  contradiction

/-- The decimal form of a number is read as the number. -/
theorem Number.ofDigits?_toDigits (n : Nat) : ofDigits? (Nat.toDigits 10 n) = some n := by
  have hdigits : (Nat.toDigits 10 n).all Char.isDigit = true :=
    List.all_eq_true.2 fun c hc => Nat.isDigit_of_mem_toDigits (by omega) (Nat.le_refl 10) hc
  have hvalue := Nat.ofDigitChars_ten_toDigits (n := n)
  rw [Nat.ofDigitChars_eq_foldl] at hvalue
  unfold ofDigits?
  rw [hvalue, hdigits]
  simp [Nat.toDigits_ne_nil]

/-- The decimal form of a number up to the largest is read as the number. -/
theorem Number.readNat?_toDigits {max n : Nat} (h : n ≤ max) :
    readNat? max (String.ofList (Nat.toDigits 10 n)) = some n := by
  unfold readNat?
  rw [String.toList_ofList]
  split
  · next digits heq =>
    have hplus : '+' ∈ Nat.toDigits 10 n := heq ▸ List.mem_cons_self
    exact absurd hplus (not_mem_toDigits (by decide) n)
  · simp [ofDigits?_toDigits, h]

/-- The first character that is no digit ends a decimal form. -/
theorem toDigits_append_inj {m n : Nat} (hc : c.isDigit = false)
    (h : Nat.toDigits 10 m ++ c :: rest = Nat.toDigits 10 n ++ c :: rest') :
    m = n ∧ rest = rest' := by
  obtain ⟨hdigits, hrest⟩ := append_pattern_inj [] []
    (not_mem_toDigits hc m) (not_mem_toDigits hc n) List.not_mem_nil h
  refine ⟨?_, hrest⟩
  have hread := congrArg Number.ofDigits? hdigits
  rw [Number.ofDigits?_toDigits, Number.ofDigits?_toDigits] at hread
  exact Option.some.inj hread

namespace Literal

/-! ## Numbers of characters -/

/-- A hexadecimal digit has the value that it writes. -/
theorem hexValue?_digitChar {d : Nat} (h : d < 16) : hexValue? d.digitChar = some d := by
  revert d
  decide

/-- The hexadecimal form of a number, read digit by digit, gives the number. -/
theorem foldlM_toDigits (n : Nat) :
    (Nat.toDigits 16 n).foldlM (fun n c => (hexValue? c).map fun d => 16 * n + d) 0 = some n := by
  induction n using Nat.strongRecOn with
  | ind n ih =>
    rw [Nat.toDigits_eq_if (by omega)]
    split
    · next hlt => simp [hexValue?_digitChar hlt]
    · next hge =>
      have hrest : n / 16 < n := Nat.div_lt_self (by omega) (by omega)
      rw [List.foldlM_append, ih _ hrest]
      have hlast : hexValue? (n % 16).digitChar = some (n % 16) :=
        hexValue?_digitChar (Nat.mod_lt n (by omega))
      simp [hlast, Nat.div_add_mod]

/-- The hexadecimal form of a number is read as the number. -/
theorem readHex?_toDigits (n : Nat) : readHex? (Nat.toDigits 16 n) = some n := by
  rw [readHex?, foldlM_toDigits, if_neg (by simp [Nat.toDigits_ne_nil])]

/-- The hexadecimal form of a number has no brace. -/
theorem brace_not_mem_toDigits (n : Nat) : '\x7d' ∉ Nat.toDigits 16 n := by
  induction n using Nat.strongRecOn with
  | ind n ih =>
    rw [Nat.toDigits_eq_if (by omega)]
    split
    · simp
    · next hge =>
      rw [List.mem_append, not_or]
      exact ⟨ih _ (Nat.div_lt_self (by omega) (by omega)), by simp⟩

/-- The number of a character names the character. -/
theorem charOfNumber?_toNat (c : Char) : charOfNumber? c.toNat = some c := by
  have hvalid : c.toNat.isValidChar := c.valid
  rw [charOfNumber?, dif_pos hvalid]
  rfl

/-- A character written by its number in braces is read. -/
theorem readEscape?_number (c : Char) (rest : List Char) :
    readEscape? ('u' :: '\x7b' :: (Nat.toDigits 16 c.toNat ++ '\x7d' :: rest))
      = some (c, rest) := by
  have hcut : cut? ['\x7d'] (Nat.toDigits 16 c.toNat ++ '\x7d' :: rest)
      = some (Nat.toDigits 16 c.toNat, rest) :=
    cut?_eq_some [] [] (brace_not_mem_toDigits _) List.not_mem_nil
  simp [readEscape?, hcut, readHex?_toDigits, charOfNumber?_toNat]

/-! ## Literals -/

/-- An escaped character is read as what its escape stands for. -/
theorem readChars?_escape {text rest : List Char} {c : Char}
    (h : readEscape? text = some (c, rest)) :
    readChars? ('\\' :: text) = (readChars? rest).map fun p => (c :: p.1, p.2) := by
  rw [readChars?, if_neg (by decide), if_pos rfl]
  split
  · next c' rest' heq =>
    obtain ⟨rfl, rfl⟩ := Prod.mk.inj (Option.some.inj (h.symm.trans heq))
    rfl
  · next heq =>
    rw [h] at heq
    contradiction

/-- A character other than the quote and the backslash is read as itself. -/
theorem readChars?_plain {c : Char} (hquote : c ≠ '"') (hbackslash : c ≠ '\\') (rest : List Char) :
    readChars? (c :: rest) = (readChars? rest).map fun p => (c :: p.1, p.2) := by
  rw [readChars?, if_neg hquote, if_neg hbackslash]

end Literal

open Literal

/-- The quotes of a style are single and double ones, and the double quote is one of them. -/
structure EscapeStyle.Closes (style : EscapeStyle) : Prop where
  /-- The quote that ends a literal is escaped. -/
  double : '"' ∈ style.quotes
  /-- Only quotes are. -/
  quotes : ∀ c ∈ style.quotes, c = '"' ∨ c = '\''

/-- The style of literals escapes the double quote. -/
theorem EscapeStyle.closes_literal : literal.Closes := by
  refine ⟨List.mem_singleton_self _, fun c hc => .inl (List.mem_singleton.1 hc)⟩

variable {style : EscapeStyle}

/-- The escaped form of a character is read as the character, whichever characters the style writes
by number. -/
theorem readChars?_escapeChar (hstyle : style.Closes) (first : Bool) (c : Char)
    (rest : List Char) :
    readChars? (style.escapeChar first c ++ rest)
      = (readChars? rest).map fun p => (c :: p.1, p.2) := by
  unfold EscapeStyle.escapeChar
  split_ifs with hnul htab hreturn hnewline hbackslash hquote hnumber
  · exact readChars?_escape (by rw [hnul]; rfl)
  · exact readChars?_escape (by rw [htab]; rfl)
  · exact readChars?_escape (by rw [hreturn]; rfl)
  · exact readChars?_escape (by rw [hnewline]; rfl)
  · exact readChars?_escape (by rw [hbackslash]; rfl)
  · refine readChars?_escape ?_
    rcases hstyle.quotes c (List.contains_iff_mem.1 hquote) with rfl | rfl
    · rfl
    · rfl
  · have htext : ['\\', 'u', '\x7b'] ++ Nat.toDigits 16 c.toNat ++ ['\x7d'] ++ rest
        = '\\' :: 'u' :: '\x7b' :: (Nat.toDigits 16 c.toNat ++ '\x7d' :: rest) := by
      simp
    rw [htext]
    exact readChars?_escape (readEscape?_number c rest)
  · have hplain : c ≠ '"' := by
      rintro rfl
      exact hquote (List.contains_iff_mem.2 hstyle.double)
    exact readChars?_plain hplain hbackslash rest

/-- The escaped form of a text is read as the text, up to the quote behind it. -/
theorem readChars?_escapeFrom (hstyle : style.Closes) (text rest : List Char) (first : Bool) :
    readChars? (style.escapeFrom first text ++ '"' :: rest) = some (text, rest) := by
  induction text generalizing first with
  | nil => rw [EscapeStyle.escapeFrom, List.nil_append, readChars?, if_pos rfl]
  | cons c text ih =>
    rw [EscapeStyle.escapeFrom, List.append_assoc, readChars?_escapeChar hstyle, ih]
    rfl

/-- A quoted text is read as the text, up to its closing quote. -/
theorem readLiteral?_quoted (text : String) (rest : List Char) :
    readLiteral? ((EscapeStyle.quoted text).toList ++ rest) = some (text, rest) := by
  have htext : (EscapeStyle.quoted text).toList ++ rest
      = '"' :: (EscapeStyle.literal.escapeFrom true text.toList ++ '"' :: rest) := by
    simp [EscapeStyle.quoted, EscapeStyle.escape]
  rw [htext, readLiteral?, readChars?_escapeFrom EscapeStyle.closes_literal, Option.map_some,
    String.ofList_toList]

end KeywordHash
