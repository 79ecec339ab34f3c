import Pratt.Token.Kind

/-!
# Pratt — lexemes

A lexeme is the stretch of text that makes one token, together with the kind of
that token. `lexemeAt?` cuts the lexeme off the front of a text that does not
start with white space:

* an operator or delimiter, two characters where two fit and one otherwise;
* else the longest run of ASCII letters, digits and underscores that does not
  start with a digit: a word;
* else the longest run of ASCII digits;
* else a single character, which is not part of the language.

So every text but the empty one has a lexeme, no lexeme is empty, and a lexeme
is a prefix of its text: `lexemeAt?_eq_none_iff`, `text_ne_nil_of_lexemeAt?` and
`eq_append_of_lexemeAt?`.
-/

namespace Pratt

/-! ## Character classes -/

/-- The characters that may stand between two lexemes. -/
def isSpace (c : Char) : Bool :=
  c = ' ' || c = '\t' || c = '\n' || c = '\r'

/-- The characters that a word starts with. -/
def isWordStart (c : Char) : Bool :=
  c.isAlpha || c = '_'

/-- The characters that a word goes on with. -/
def isWordChar (c : Char) : Bool :=
  c.isAlphanum || c = '_'

/-- A word may also go on with what it may start with. -/
theorem isWordChar_of_isWordStart {c : Char} (h : isWordStart c = true) :
    isWordChar c = true := by
  simp only [isWordStart, isWordChar, Char.isAlphanum, Bool.or_eq_true] at h ⊢
  rcases h with h | h
  · exact .inl (.inl h)
  · exact .inr h

/-! ## The lexeme at the front of a text -/

/-- The text that makes one token, and the kind of that token. -/
structure Lexeme where
  kind : Kind
  text : List Char
  deriving DecidableEq, Repr

/-- The operator or delimiter whose text is exactly the one given. -/
def operatorOf? (text : List Char) : Option Lexeme :=
  (Kind.ofOperator? (String.ofList text)).map (⟨·, text⟩)

/-- The operator or delimiter at the front of a text. A pair is tried before its first
character alone. -/
def operatorAt? : List Char → Option Lexeme
  | [] => none
  | [a] => operatorOf? [a]
  | a :: b :: _ => (operatorOf? [a, b]).or (operatorOf? [a])

/-- The lexeme at the front of a text that starts with no operator. -/
def plainLexeme (c : Char) (text : List Char) : Lexeme :=
  if isWordStart c then
    let word := (c :: text).takeWhile isWordChar
    ⟨Kind.ofWord (String.ofList word), word⟩
  else if c.isDigit then ⟨.int, (c :: text).takeWhile Char.isDigit⟩
  else ⟨.illegal, [c]⟩

/-- The lexeme at the front of a text, none when the text is empty. -/
def lexemeAt? : List Char → Option Lexeme
  | [] => none
  | c :: text => some ((operatorAt? (c :: text)).getD (plainLexeme c text))

/-! ## Lexemes are non-empty prefixes -/

/-- An operator has the text that it was looked up by. -/
theorem text_of_operatorOf? {text : List Char} {x : Lexeme} (h : operatorOf? text = some x) :
    x.text = text := by
  obtain ⟨k, _, rfl⟩ := Option.map_eq_some_iff.1 h
  rfl

/-- An operator at the front of a text is one or two characters long and is a prefix of the text. -/
theorem exists_cons_of_operatorAt? {text : List Char} {x : Lexeme}
    (h : operatorAt? text = some x) : ∃ c r rest, x.text = c :: r ∧ text = x.text ++ rest := by
  match text, h with
  | [a], h => exact ⟨a, [], [], by simp [text_of_operatorOf? h]⟩
  | a :: b :: rest, h =>
    rcases Option.or_eq_some_iff.1 h with h | ⟨_, h⟩
    · exact ⟨a, [b], rest, by simp [text_of_operatorOf? h]⟩
    · exact ⟨a, [], b :: rest, by simp [text_of_operatorOf? h]⟩

/-- What is no operator takes at least the first character, and is a prefix of the text too. -/
theorem exists_cons_plainLexeme (c : Char) (text : List Char) :
    ∃ r rest, (plainLexeme c text).text = c :: r ∧ c :: text = (plainLexeme c text).text ++ rest := by
  unfold plainLexeme
  split
  · rename_i word
    -- The first character of a word is one of the word's own.
    have first := isWordChar_of_isWordStart word
    exact ⟨text.takeWhile isWordChar, text.dropWhile isWordChar,
      by simp [first, List.takeWhile_append_dropWhile]⟩
  · split
    · rename_i digit
      exact ⟨text.takeWhile Char.isDigit, text.dropWhile Char.isDigit,
        by simp [digit, List.takeWhile_append_dropWhile]⟩
    · exact ⟨[], text, rfl, rfl⟩

@[simp] theorem lexemeAt?_nil : lexemeAt? [] = none := rfl

/-- There is a lexeme at the front of every text that has a front. -/
theorem lexemeAt?_eq_none_iff {text : List Char} : lexemeAt? text = none ↔ text = [] := by
  cases text <;> simp [lexemeAt?]

/-- A lexeme is a non-empty prefix of the text it is cut off from. -/
theorem exists_cons_of_lexemeAt? {text : List Char} {x : Lexeme}
    (h : lexemeAt? text = some x) : ∃ c r rest, x.text = c :: r ∧ text = x.text ++ rest := by
  match text, h with
  | c :: text, h =>
    rw [lexemeAt?] at h
    cases op : operatorAt? (c :: text) with
    | some y =>
      rw [op, Option.getD_some, Option.some.injEq] at h
      exact h ▸ exists_cons_of_operatorAt? op
    | none =>
      rw [op, Option.getD_none, Option.some.injEq] at h
      exact ⟨c, h ▸ exists_cons_plainLexeme c text⟩

/-- No lexeme is empty, so reading one after the other comes to an end. -/
theorem text_ne_nil_of_lexemeAt? {text : List Char} {x : Lexeme} (h : lexemeAt? text = some x) :
    x.text ≠ [] := by
  obtain ⟨c, r, _, hx, _⟩ := exists_cons_of_lexemeAt? h
  simp [hx]

/-- A lexeme is a prefix of the text that it is read from. -/
theorem eq_append_of_lexemeAt? {text : List Char} {x : Lexeme} (h : lexemeAt? text = some x) :
    ∃ rest, text = x.text ++ rest := by
  obtain ⟨_, _, rest, _, ht⟩ := exists_cons_of_lexemeAt? h
  exact ⟨rest, ht⟩

end Pratt
