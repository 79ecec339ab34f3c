import Mathlib.Algebra.Group.Nat.Defs
import Pratt.Text.Literal

/-!
# Pratt — literals can be read back

A text is written as a literal in one of two quotes, and a character in it is written as itself or
as one of several escapes of different lengths. Still there is one text for each literal, also if
something stands behind it.

* `readChar` — reads one character of a literal, whichever way it is written.
* `literalOf_append_inj` — two literals with something behind each agree only if the texts do and
  what is behind them does.
-/

namespace Pratt

/-! ## Hexadecimal digits -/

/-- The value of a hexadecimal digit. -/
def hexValue (c : Char) : Nat :=
  if c.isDigit then c.toNat - '0'.toNat else c.toNat - 'a'.toNat + 10

/-- The number that a run of hexadecimal digits denotes. -/
def hexNumber (digits : List Char) : Nat :=
  digits.foldl (fun n c => 16 * n + hexValue c) 0

/-- The value of a digit is read off it. -/
theorem hexValue_digitChar {d : Nat} (h : d < 16) : hexValue (Nat.digitChar d) = d := by
  have all : ∀ d < 16, hexValue (Nat.digitChar d) = d := by decide
  exact all d h

/-- A number that fits in so many hexadecimal digits is read back from them. -/
theorem hexNumber_hexDigits {width n : Nat} (h : n < 16 ^ width) :
    hexNumber (hexDigits width n) = n := by
  -- the last digit is the remainder, and the others write the quotient
  induction width generalizing n with
  | zero =>
    rw [Nat.pow_zero, Nat.lt_one_iff] at h
    subst h
    rfl
  | succ width ih =>
    have hrest : n / 16 < 16 ^ width := by
      rw [Nat.pow_succ] at h
      omega
    have hlast : n % 16 < 16 := Nat.mod_lt _ (by decide)
    calc hexNumber (hexDigits (width + 1) n)
        = 16 * hexNumber (hexDigits width (n / 16)) + hexValue (Nat.digitChar (n % 16)) := by
          simp [hexDigits, hexNumber]
      _ = 16 * (n / 16) + n % 16 := by rw [ih hrest, hexValue_digitChar hlast]
      _ = n := Nat.div_add_mod n 16

/-! ## One character -/

/-- Reads a character that is given by so many hexadecimal digits. -/
def readHex (width : Nat) (text : List Char) : Char × List Char :=
  (Char.ofNat (hexNumber (text.take width)), text.drop width)

/-- Reads one character of a literal, and gives what is behind it. -/
def readChar : List Char → Option (Char × List Char)
  | [] => none
  | '\\' :: letter :: text =>
    if letter = 'n' then some ('\n', text)
    else if letter = 'r' then some ('\r', text)
    else if letter = 't' then some ('\t', text)
    else if letter = 'x' then some (readHex 2 text)
    else if letter = 'u' then some (readHex 4 text)
    else if letter = 'U' then some (readHex 8 text)
    else some (letter, text)
  | c :: text => some (c, text)

/-- The two characters that a literal can stand between. -/
def IsQuote (c : Char) : Prop :=
  c = '\'' ∨ c = '"'

/-- A literal stands in one of the two quotes. -/
theorem isQuote_literalQuote (text : List Char) : IsQuote (literalQuote text) := by
  unfold literalQuote
  split
  · exact .inr rfl
  · exact .inl rfl

/-- A character that fits in so many hexadecimal digits is read back from them. -/
theorem readHex_hexDigits {width : Nat} {c : Char} (h : c.toNat < 16 ^ width) (rest : List Char) :
    readHex width (hexDigits width c.toNat ++ rest) = (c, rest) := by
  have hlength := length_hexDigits width c.toNat
  rw [readHex, List.take_left' hlength, List.drop_left' hlength, hexNumber_hexDigits h,
    Char.ofNat_toNat]

/-- Every character but a backslash stands for itself. -/
theorem readChar_of_ne {c : Char} (h : c ≠ '\\') (text : List Char) :
    readChar (c :: text) = some (c, text) := by
  cases text <;> simp [readChar, h]

/-- What a literal writes for a character is read as that character. -/
theorem readChar_literalChar {quote : Char} (hquote : IsQuote quote) (c : Char) (rest : List Char) :
    readChar (literalChar quote c ++ rest) = some (c, rest) := by
  unfold literalChar
  by_cases hescape : c = quote ∨ c = '\\'
  · -- the letters of the other escapes are neither
    have hletter : c ∉ ['n', 'r', 't', 'x', 'u', 'U'] := by
      rcases hescape with rfl | rfl
      · rcases hquote with rfl | rfl <;> decide
      · decide
    simp only [List.mem_cons, List.not_mem_nil, or_false, not_or] at hletter
    simp [hescape, readChar, hletter]
  · rw [if_neg hescape]
    have hplain : c ≠ '\\' := fun h => hescape (.inr h)
    -- the three control characters with letters of their own
    by_cases hn : c = '\n'
    · subst hn
      rfl
    by_cases hr : c = '\r'
    · subst hr
      rfl
    by_cases ht : c = '\t'
    · subst ht
      rfl
    rw [if_neg hn, if_neg hr, if_neg ht]
    -- and the rest stands for itself, or in as few hexadecimal digits as it fits into
    by_cases hprintable : isPrintable c = true
    · rw [if_pos hprintable]
      exact readChar_of_ne hplain rest
    rw [if_neg hprintable]
    by_cases h2 : c.toNat < 0x100
    · rw [if_pos h2]
      show some (readHex 2 (hexDigits 2 c.toNat ++ rest)) = _
      rw [readHex_hexDigits h2]
    by_cases h4 : c.toNat < 0x10000
    · rw [if_neg h2, if_pos h4]
      show some (readHex 4 (hexDigits 4 c.toNat ++ rest)) = _
      rw [readHex_hexDigits h4]
    · rw [if_neg h2, if_neg h4]
      have h8 : c.toNat < 16 ^ 8 := c.val.toNat_lt
      show some (readHex 8 (hexDigits 8 c.toNat ++ rest)) = _
      rw [readHex_hexDigits h8]

/-- No character is written so that it starts with the quote around it. -/
theorem head_literalChar_ne {quote : Char} (hquote : IsQuote quote) (c : Char) {rest : List Char} :
    (literalChar quote c ++ rest).head? ≠ some quote := by
  have hslash : quote ≠ '\\' := by
    rcases hquote with rfl | rfl <;> decide
  unfold literalChar
  by_cases hescape : c = quote ∨ c = '\\'
  · simp [hescape, hslash.symm]
  · have hplain : c ≠ quote := fun h => hescape (.inl h)
    rw [if_neg hescape]
    -- every other escape starts with a backslash, which is no quote
    repeat' split
    all_goals simp [hplain, hslash.symm]

/-! ## The whole literal -/

/-- Two literals in the same quotes. -/
theorem quotedChars_inj {quote : Char} (hquote : IsQuote quote) {a b r s : List Char}
    (h : a.flatMap (literalChar quote) ++ quote :: r =
      b.flatMap (literalChar quote) ++ quote :: s) :
    a = b ∧ r = s := by
  -- character by character, reading the same one from both literals
  induction a generalizing b with
  | nil =>
    cases b with
    | nil => exact ⟨rfl, List.tail_eq_of_cons_eq h⟩
    | cons d b =>
      -- the other literal goes on where this one ends
      rw [List.flatMap_nil, List.nil_append, List.flatMap_cons, List.append_assoc] at h
      exact absurd (congrArg List.head? h).symm (head_literalChar_ne hquote d)
  | cons c a ih =>
    rw [List.flatMap_cons, List.append_assoc] at h
    cases b with
    | nil => exact absurd (congrArg List.head? h) (head_literalChar_ne hquote c)
    | cons d b =>
      rw [List.flatMap_cons, List.append_assoc] at h
      have hread := congrArg readChar h
      rw [readChar_literalChar hquote, readChar_literalChar hquote] at hread
      obtain ⟨rfl, hrest⟩ := Prod.mk.inj (Option.some.inj hread)
      obtain ⟨rfl, hbehind⟩ := ih hrest
      exact ⟨rfl, hbehind⟩

/-- A literal and what is behind it can be told apart, and the text can be told from the literal. -/
theorem literalOf_append_inj {a b : String} {r s : List Char}
    (h : (literalOf a).toList ++ r = (literalOf b).toList ++ s) : a = b ∧ r = s := by
  rw [toList_literalOf, toList_literalOf, List.cons_append, List.cons_append, List.cons_append,
    List.cons_append, List.append_assoc, List.append_assoc] at h
  obtain ⟨hquote, hbody⟩ := List.cons.inj h
  -- the quote is that of both texts from here on
  rw [← hquote] at hbody
  obtain ⟨htext, hrest⟩ := quotedChars_inj (isQuote_literalQuote a.toList) hbody
  exact ⟨String.toList_inj.1 htext, hrest⟩

end Pratt
