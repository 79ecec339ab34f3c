import Pratt.Lexer.Lexeme
import Pratt.Token.Basic

/-!
# Pratt — cursors over a source

A `Cursor` is a place in a source: the index of the next character and the
location that the reader believes it to be at. It may be started anywhere.
Beyond the end of the source there is nothing to read. Before its start, at a
negative index, there is nothing to see ahead, but `next` counts such an index
from the end of the source, `-1` being its last character.

Reading goes through `step`, which passes one character, and `past`, which
passes a text; both move the location along. `rest` is the text ahead, and what
the lexer consumes is always a prefix of it: `rest_past`.
-/

namespace Pratt

/-- A place in a source. -/
structure Cursor where
  source : List Char
  position : Int
  location : Location
  deriving DecidableEq, Repr

/-- Why the next character cannot be read. -/
inductive ReadError where
  /-- The cursor stands at or beyond the end of the source. -/
  | pastEnd (position line : Int)
  /-- The cursor stands so far before the source that counting from the end does not help. -/
  | beforeStart
  deriving DecidableEq, Repr

/-- The text of a reading error. -/
def ReadError.message : ReadError → String
  | .pastEnd position line =>
    "Attempted to read past end of source at position=<" ++ toString position ++
      ">, line=<" ++ toString line ++ ">"
  | .beforeStart => "string index out of range"

namespace Cursor

/-- The cursor at the start of a source. -/
def ofString (source : String) : Cursor :=
  ⟨source.toList, 0, .start⟩

instance : Inhabited Cursor := ⟨ofString ""⟩

/-! ## Looking ahead -/

/-- Whether no character of the source remains to be read. -/
def atEnd (c : Cursor) : Bool :=
  c.source.length ≤ c.position

/-- The character at an index of the source. -/
def charAt? (c : Cursor) (index : Int) : Option Char :=
  if index < 0 then none else c.source[index.toNat]?

/-- The character `offset` places ahead of the cursor, none outside the source. -/
def peek? (c : Cursor) (offset : Int) : Option Char :=
  c.charAt? (c.position + offset)

/-- The text ahead of the cursor; before the start of the source there is none. -/
def rest (c : Cursor) : List Char :=
  if c.position < 0 then [] else c.source.drop c.position.toNat

/-! ## Reading -/

/-- The cursor past a character that stands at it. -/
def step (c : Cursor) (char : Char) : Cursor :=
  { c with position := c.position + 1, location := c.location.after char }

/-- The cursor past a text that starts at it. -/
def past (c : Cursor) (text : List Char) : Cursor :=
  text.foldl step c

/-- Reads the next character. -/
def next (c : Cursor) : Except ReadError (Char × Cursor) :=
  if c.atEnd then .error (.pastEnd c.position c.location.line)
  else
    -- An index before the start counts from the end.
    let index := if c.position < 0 then c.position + c.source.length else c.position
    match c.charAt? index with
    | some char => .ok (char, c.step char)
    | none => .error .beforeStart

/-- Reads the longest run of characters of a class. -/
def readWhile (c : Cursor) (isMember : Char → Bool) : List Char × Cursor :=
  let run := c.rest.takeWhile isMember
  (run, c.past run)

/-- Passes the white space ahead. -/
def skipSpace (c : Cursor) : Cursor :=
  (c.readWhile isSpace).2

/-- The token that a lexeme at the cursor makes. -/
def token (c : Cursor) (x : Lexeme) : Token :=
  ⟨x.kind, String.ofList x.text, c.location⟩

/-- Reads the operator or delimiter ahead, if there is one. -/
def readOperator? (c : Cursor) : Option (Token × Cursor) :=
  (operatorAt? c.rest).map fun x => (c.token x, c.past x.text)

/-! ## Where reading leads -/

@[simp] theorem past_nil (c : Cursor) : c.past [] = c := rfl

@[simp] theorem past_cons (c : Cursor) (char : Char) (text : List Char) :
    c.past (char :: text) = (c.step char).past text := rfl

/-- A cursor goes past a text part by part. -/
theorem past_append (c : Cursor) (a b : List Char) : c.past (a ++ b) = (c.past a).past b :=
  List.foldl_append ..

/-- Going past a text moves the position by its length and the location by what is in it. -/
theorem past_eq (c : Cursor) (text : List Char) :
    c.past text = ⟨c.source, c.position + text.length, c.location.past text⟩ := by
  induction text generalizing c with
  | nil => simp
  | cons char text ih =>
    rw [past_cons, ih]
    simp only [step, Location.past_cons, List.length_cons, Int.natCast_add]
    congr 1
    omega

/-- Where something is left to be read, the position is not in front of the source. -/
theorem position_nonneg_of_rest {c : Cursor} {char : Char} {text : List Char}
    (h : c.rest = char :: text) : 0 ≤ c.position := by
  by_cases hp : c.position < 0
  · simp [rest, hp] at h
  · omega

/-- What is left is what stands behind the position in the source. -/
theorem rest_of_nonneg {c : Cursor} (h : 0 ≤ c.position) :
    c.rest = c.source.drop c.position.toNat := by
  simp [rest, Int.not_lt.2 h]

/-- After a step over the next character the others are left. -/
theorem rest_step {c : Cursor} {char : Char} {text : List Char} (h : c.rest = char :: text) :
    (c.step char).rest = text := by
  have hp := position_nonneg_of_rest h
  have hs : 0 ≤ (c.step char).position := by simp only [step]; omega
  rw [rest_of_nonneg hp] at h
  rw [rest_of_nonneg hs]
  have index : (c.step char).position.toNat = c.position.toNat + 1 := by simp only [step]; omega
  rw [index, ← List.drop_drop]
  simp [step, h]

/-- Passing a prefix of the text ahead leaves the remainder ahead. -/
theorem rest_past {c : Cursor} {text remainder : List Char} (h : c.rest = text ++ remainder) :
    (c.past text).rest = remainder := by
  induction text generalizing c with
  | nil => exact h
  | cons char text ih =>
    rw [past_cons]
    exact ih (rest_step h)

/-- A run of characters is read as far as it goes. -/
theorem rest_readWhile (c : Cursor) (isMember : Char → Bool) :
    (c.readWhile isMember).2.rest = c.rest.dropWhile isMember :=
  rest_past (List.takeWhile_append_dropWhile).symm

/-- Behind the white space stands what did not belong to it. -/
theorem rest_skipSpace (c : Cursor) : c.skipSpace.rest = c.rest.dropWhile isSpace :=
  rest_readWhile c isSpace

end Cursor

end Pratt
