import Pratt.Parser.Rule
import Pratt.Text.Quoted
import Pratt.Token.Basic

/-!
# Pratt — diagnostics and the journal

A `Diagnostic` says what the parser found wrong and at which token. Parsing goes
on after each, so a run has a list of them.

The journal of a run holds its diagnostics in order and, when the run is traced,
also an entry for the start and the end of each traced rule, with the number of
traced rules around it. The text of such an entry is indented by that depth.
-/

namespace Pratt

/-- What is wrong at a token. -/
inductive Cause where
  /-- A token of another kind has to stand here. -/
  | expected (wanted : Kind)
  /-- What has to stand here is no token at all; `wanted` is how it is shown. -/
  | unattainable (wanted : String)
  /-- No expression starts with such a token. -/
  | noStart
  /-- The text of the token is not an integer of the language. -/
  | notInteger
  deriving DecidableEq, Repr

/-- What the parser found wrong, and at which token. -/
structure Diagnostic where
  token : Token
  cause : Cause
  deriving DecidableEq, Repr

namespace Diagnostic

/-- The text of a diagnostic. -/
def message (d : Diagnostic) : String :=
  match d.cause with
  | .expected wanted =>
    "expected next token to be " ++ wanted.name ++ ", got " ++ d.token.kind.name ++ " instead"
  | .unattainable wanted =>
    "expected next token to be " ++ wanted ++ ", got " ++ d.token.kind.name ++ " instead"
  | .noStart => "no prefix parse function for " ++ d.token.kind.name ++ " found"
  | .notInteger => "could not parse " ++ quoted d.token.literal ++ " as integer"

/-- The text of a diagnostic with the location of its token. -/
def line (d : Diagnostic) : String :=
  "line " ++ toString d.token.location.line ++ ", col " ++ toString d.token.location.column ++
    ": " ++ d.message

end Diagnostic

/-- An entry of a run's journal. -/
inductive Event where
  | diagnostic (d : Diagnostic)
  | enter (depth : Nat) (rule : Rule)
  | leave (depth : Nat) (rule : Rule)
  deriving DecidableEq, Repr

namespace Event

/-- Four blanks for each of the rules around. -/
def indent (depth : Nat) : String :=
  String.ofList (List.replicate (4 * depth) ' ')

/-- The text of an entry. -/
def line : Event → String
  | .diagnostic d => d.line
  | .enter depth rule => indent depth ++ "BEGIN " ++ rule.name
  | .leave depth rule => indent depth ++ "END " ++ rule.name

/-- The diagnostic that an entry holds. -/
def diagnostic? : Event → Option Diagnostic
  | .diagnostic d => some d
  | _ => none

end Event

end Pratt
