/-!
# Pratt — decimal numerals

A numeral is a non-empty run of the ASCII digits; leading zeros are allowed, and
signs, underscores, blanks and the digits of other scripts are not. Its value is
the number that the digits denote in base ten.

Integers of the language are signed 64-bit words (`Numeral.least` to
`Numeral.greatest`). A numeral of more than `Numeral.mostDigits` digits is not
converted at all, whatever its value.
-/

namespace Pratt.Numeral

/-- The least integer of the language. -/
def least : Int := -0x8000000000000000

/-- The greatest integer of the language. -/
def greatest : Int := 0x7fffffffffffffff

/-- How many digits a numeral may have and still be converted. -/
def mostDigits : Nat := 4300

/-- Whether a text is a numeral. -/
def isNumeral (text : List Char) : Bool :=
  !text.isEmpty && text.all Char.isDigit

/-- The number that a run of digits denotes. -/
def value (digits : List Char) : Nat :=
  digits.foldl (fun n c => 10 * n + (c.toNat - '0'.toNat)) 0

/-- What the text of an integer literal turns out to be. -/
inductive Reading where
  /-- An integer of the language. -/
  | integer (value : Int)
  /-- A numeral with too many digits to be converted. -/
  | oversized (digits : Nat)
  /-- Any other text, a numeral out of range included. -/
  | unreadable
  deriving DecidableEq, Repr

/-- Reads the text of an integer literal. -/
def read (text : List Char) : Reading :=
  if isNumeral text then
    if mostDigits < text.length then .oversized text.length
    else if least ≤ value text ∧ value text ≤ greatest then .integer (value text)
    else .unreadable
  else .unreadable

/-! ## Basic lemmas -/

/-- A numeral has at least one digit and nothing but digits. -/
theorem isNumeral_iff {text : List Char} :
    isNumeral text = true ↔ text ≠ [] ∧ ∀ c ∈ text, c.isDigit = true := by
  simp [isNumeral]

/-- A further digit makes ten times the value and its own. -/
theorem value_append_singleton (digits : List Char) (c : Char) :
    value (digits ++ [c]) = 10 * value digits + (c.toNat - '0'.toNat) := by
  simp [value]

/-- A run of digits denotes no number that is too small. -/
theorem inRange_iff {text : List Char} :
    least ≤ value text ∧ value text ≤ greatest ↔ (value text : Int) ≤ greatest := by
  have hleast : least ≤ 0 := by decide
  omega

/-- An integer is read from a numeral that is neither too long to be converted nor too large, and is
its value. -/
theorem read_eq_integer_iff {text : List Char} {n : Int} :
    read text = .integer n ↔
      isNumeral text = true ∧ text.length ≤ mostDigits ∧ n ≤ greatest ∧ n = value text := by
  simp only [read, inRange_iff]
  by_cases numeral : isNumeral text = true
  · by_cases long : mostDigits < text.length
    · simp [numeral, long, Nat.not_le.2 long]
    · by_cases large : (value text : Int) ≤ greatest
      · have agree : (value text : Int) = n ↔ n ≤ greatest ∧ n = value text := by omega
        simpa [numeral, long, large, Nat.not_lt.1 long] using agree
      · have exceed : ¬(n ≤ greatest ∧ n = value text) := by omega
        simpa [numeral, long, large] using fun _ => not_and.1 exceed
  · simp [numeral]

/-- Whether a text can be converted is decided by its length alone, before its value is known. -/
theorem read_eq_oversized_iff {text : List Char} {digits : Nat} :
    read text = .oversized digits ↔
      isNumeral text = true ∧ mostDigits < text.length ∧ digits = text.length := by
  simp only [read, inRange_iff]
  by_cases numeral : isNumeral text = true
  · by_cases long : mostDigits < text.length
    · simp [numeral, long, eq_comm]
    · by_cases large : (value text : Int) ≤ greatest <;> simp [numeral, long, large]
  · simp [numeral]

end Pratt.Numeral
