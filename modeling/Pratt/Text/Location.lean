/-!
# Pratt — locations in a text

A `Location` is the line and the column at which a character stands, both
counted from one by whoever starts reading at `Location.start`. Reading a
character moves the location: past a line feed to the first column of the next
line, past any other character by one column. `Location.past` reads a whole
text, and reading two texts one after the other is reading their concatenation.

Lines and columns are integers, because a reader may be started at any
location, also one that no text has.
-/

namespace Pratt

/-- The line and the column at which a character stands. -/
structure Location where
  line : Int
  column : Int
  deriving DecidableEq, Repr, Inhabited

namespace Location

/-- Where the first character of a text stands. -/
def start : Location := ⟨1, 1⟩

/-- The location right after a character that stands at `l`. -/
def after (l : Location) (c : Char) : Location :=
  if c = '\n' then ⟨l.line + 1, 1⟩ else ⟨l.line, l.column + 1⟩

/-- The location right after a text that starts at `l`. -/
def past (l : Location) (text : List Char) : Location :=
  text.foldl after l

/-! ## Basic lemmas -/

@[simp] theorem past_nil (l : Location) : l.past [] = l := rfl

@[simp] theorem past_cons (l : Location) (c : Char) (text : List Char) :
    l.past (c :: text) = (l.after c).past text := rfl

/-- A text is gone past part by part. -/
theorem past_append (l : Location) (a b : List Char) :
    l.past (a ++ b) = (l.past a).past b :=
  List.foldl_append ..

end Location

end Pratt
