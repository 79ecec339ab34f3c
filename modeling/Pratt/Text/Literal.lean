import Pratt.Text.Printable

/-!
# Pratt — text written as a literal

Tokens and trees are shown with their texts written as literals: between single
quotes, or between double quotes when the text holds a single quote and no
double quote. Inside, the backslash and the quote in use are escaped, the line
feed, the carriage return and the tab have letters of their own, and any other
character that is not printable is given by the lower-case hexadecimal digits of
its code point: two after `\x`, four after `\u` or eight after `\U`, the
shortest that fits.
-/

namespace Pratt

/-- The last `width` hexadecimal digits of a number. -/
def hexDigits : (width n : Nat) → List Char
  | 0, _ => []
  | width + 1, n => hexDigits width (n / 16) ++ [Nat.digitChar (n % 16)]

/-- The quote that a literal of the text stands in. -/
def literalQuote (text : List Char) : Char :=
  if '\'' ∈ text ∧ '"' ∉ text then '"' else '\''

/-- How a literal in the given quotes writes a character. -/
def literalChar (quote c : Char) : List Char :=
  if c = quote ∨ c = '\\' then ['\\', c]
  else if c = '\n' then ['\\', 'n']
  else if c = '\r' then ['\\', 'r']
  else if c = '\t' then ['\\', 't']
  else if isPrintable c then [c]
  else if c.toNat < 0x100 then '\\' :: 'x' :: hexDigits 2 c.toNat
  else if c.toNat < 0x10000 then '\\' :: 'u' :: hexDigits 4 c.toNat
  else '\\' :: 'U' :: hexDigits 8 c.toNat

/-- The text written as a literal. -/
def literalOf (text : String) : String :=
  let quote := literalQuote text.toList
  String.ofList (quote :: text.toList.flatMap (literalChar quote) ++ [quote])

/-! ## Basic lemmas -/

theorem length_hexDigits (width n : Nat) : (hexDigits width n).length = width := by
  induction width generalizing n with
  | zero => rfl
  | succ width ih => simp [hexDigits, ih]

/-- The characters of a literal, each written by itself with the quotes in mind, which are chosen
for the text as a whole. -/
theorem toList_literalOf (text : String) :
    (literalOf text).toList =
      literalQuote text.toList ::
        text.toList.flatMap (literalChar (literalQuote text.toList)) ++
          [literalQuote text.toList] :=
  String.toList_ofList

end Pratt
