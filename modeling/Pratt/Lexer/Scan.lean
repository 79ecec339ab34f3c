import Pratt.Lexer.Cursor

/-!
# Pratt — from a source to its tokens

`scan` reads one token: it passes the white space ahead, cuts off the lexeme
that follows, and gives the end-of-input token when there is none. It always
succeeds, and once the input is exhausted it gives the same token again and
again. `scanAll` reads to the end of the input, and `tokenize` does so for a
whole source; each token but the last shortens the text ahead
(`length_rest_scan`), which is why the reading ends.

`nextToken` and `tokens` do the same from any cursor. Before the start of the
source nothing can be seen ahead, so there each character is taken, unseen, for
one that is not part of the language.
-/

namespace Pratt.Cursor

/-- Reads one token from the text ahead. -/
def scan (c : Cursor) : Token × Cursor :=
  let c := c.skipSpace
  match lexemeAt? c.rest with
  | none => (⟨.eof, "", c.location⟩, c)
  | some x => (c.token x, c.past x.text)

/-! ## Reading to the end -/

/-- Skipping white space leaves no more to be read than before. -/
theorem length_rest_skipSpace_le (c : Cursor) : c.skipSpace.rest.length ≤ c.rest.length := by
  rw [rest_skipSpace]
  exact List.Sublist.length_le (List.dropWhile_sublist isSpace)

/-- A token that is not the end of the input takes at least one character. -/
theorem length_rest_scan {c : Cursor} (h : c.scan.1.kind ≠ .eof) :
    c.scan.2.rest.length < c.rest.length := by
  unfold scan at h ⊢
  dsimp only at h ⊢
  cases hx : lexemeAt? c.skipSpace.rest with
  | none =>
    rw [hx] at h
    exact absurd rfl h
  | some x =>
    obtain ⟨char, text, remainder, hxt, hrest⟩ := exists_cons_of_lexemeAt? hx
    -- a lexeme has a first character, which is behind the cursor now
    have smaller := length_rest_skipSpace_le c
    rw [hrest, List.length_append, hxt, List.length_cons] at smaller
    dsimp only
    rw [rest_past hrest]
    omega

/-- Reading a token never leaves more text than there was. -/
theorem length_rest_scan_le (c : Cursor) : c.scan.2.rest.length ≤ c.rest.length := by
  have skipped := length_rest_skipSpace_le c
  unfold scan
  dsimp only
  cases hx : lexemeAt? c.skipSpace.rest with
  | none => exact skipped
  | some x =>
    obtain ⟨remainder, hrest⟩ := eq_append_of_lexemeAt? hx
    rw [hrest, List.length_append] at skipped
    dsimp only
    rw [rest_past hrest]
    omega

/-- Reads the tokens ahead, the end of the input included. -/
def scanAll (c : Cursor) : List Token × Cursor :=
  let next := c.scan
  if _more : next.1.kind = .eof then ([next.1], next.2)
  else
    let later := next.2.scanAll
    (next.1 :: later.1, later.2)
termination_by c.rest.length
decreasing_by exact length_rest_scan _more

/-- Reads one token wherever the cursor stands. Before the start of the source the character
that `next` finds there is a token of its own. -/
def nextToken (c : Cursor) : Except ReadError (Token × Cursor) :=
  if c.position < 0 then do
    let (char, c') ← c.next
    return (c.token ⟨.illegal, [char]⟩, c')
  else .ok c.scan

/-- Reads `count` tokens before the start of the source, then those ahead. -/
def tokensAfter : (count : Nat) → Cursor → Except ReadError (List Token × Cursor)
  | 0, c => .ok c.scanAll
  | count + 1, c => do
    let (first, c') ← c.nextToken
    let (later, last) ← tokensAfter count c'
    return (first :: later, last)

/-- Reads the tokens up to and including the end of the input, wherever the cursor stands. -/
def tokens (c : Cursor) : Except ReadError (List Token × Cursor) :=
  -- One token for each index that lies before the start.
  tokensAfter (-c.position).toNat c

end Pratt.Cursor

namespace Pratt

/-- The tokens of a source, the end of the input included. -/
def tokenize (source : String) : List Token :=
  (Cursor.ofString source).scanAll.1

end Pratt
