import Pratt.Lexer.Scan

/-!
# Pratt — reading by hand

A lexer can be driven one operation at a time, mixing reads of characters with
reads of tokens. `Operation.perform` says what each operation gives and where
the cursor stands afterwards; a refused read leaves the cursor where it was.
-/

namespace Pratt

/-- One thing to do with a cursor. -/
inductive Operation where
  | nextToken
  | peek (offset : Int)
  | nextChar
  | skipSpace
  | readOperator
  | readWhile (members : List Char)
  | tokens
  | atEnd
  deriving DecidableEq, Repr

/-- What an operation gives. -/
inductive Reading where
  | token (t : Option Token)
  | tokens (ts : List Token)
  | text (s : List Char)
  | flag (b : Bool)
  | nothing
  deriving DecidableEq, Repr

/-- What an operation gives at a cursor, and the cursor afterwards. -/
def Operation.perform (c : Cursor) : Operation → Except ReadError Reading × Cursor
  | .nextToken =>
    match c.nextToken with
    | .ok (t, c') => (.ok (.token t), c')
    | .error e => (.error e, c)
  | .peek offset => (.ok (.text (c.peek? offset).toList), c)
  | .nextChar =>
    match c.next with
    | .ok (char, c') => (.ok (.text [char]), c')
    | .error e => (.error e, c)
  | .skipSpace => (.ok .nothing, c.skipSpace)
  | .readOperator =>
    match c.readOperator? with
    | some (t, c') => (.ok (.token t), c')
    | none => (.ok (.token none), c)
  | .readWhile members =>
    let (run, c') := c.readWhile (members.contains ·)
    (.ok (.text run), c')
  | .tokens =>
    match c.tokens with
    | .ok (ts, c') => (.ok (.tokens ts), c')
    | .error e => (.error e, c)
  | .atEnd => (.ok (.flag c.atEnd), c)

end Pratt
