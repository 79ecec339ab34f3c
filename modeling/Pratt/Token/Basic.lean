import Pratt.Text.Literal
import Pratt.Text.Location
import Pratt.Token.Kind

/-!
# Pratt — tokens

A `Token` has a kind, the text it was read from, and the location of the first
character of that text. The end of a source is a token too: its kind is `eof`
and its text is empty.

Two tokens are equal when all of these agree. `describe` shows a token without
its location.
-/

namespace Pratt

/-- A unit of the language, as it stands in a source. -/
structure Token where
  kind : Kind
  literal : String
  location : Location
  deriving DecidableEq, Repr

namespace Token

/-- A token that stands nowhere, where the lines and columns are counted from one. -/
def unplaced (kind : Kind) (literal : String) : Token :=
  ⟨kind, literal, ⟨0, 0⟩⟩

/-- The end of a source that has no locations. -/
def endOfInput : Token := unplaced .eof ""

instance : Inhabited Token := ⟨endOfInput⟩

instance : Hashable Token where
  hash t := hash (t.kind.name, t.literal, t.location.line, t.location.column)

/-- Shows the kind and the text of a token. -/
def describe (t : Token) : String :=
  "Token(" ++ t.kind.name ++ ", " ++ literalOf t.literal ++ ")"

/-- What is answered to an attempt to give a token another value for `field`. Tokens never
change, whatever the field is called. -/
def assignmentRefusal (field : String) : String :=
  "Token is immutable; cannot set " ++ literalOf field

end Token

end Pratt
