import Mathlib.Data.List.Induction
import Pratt.Proofs.Description
import Pratt.Proofs.Integers
import Pratt.Proofs.ReadingOrder

/-!
# Pratt — which spellings show in the text of a tree

The text of a parsed tree is made from its content, apart from its integers, which are written as
the source has them. So what equality leaves out does not show in the text: neither white space, nor
redundant parentheses and semicolons, nor the tokens of words, which are determined by what the
nodes are (`Token.literal_of_reserved`). What does show are the zeros in front of an integer.

`Node.pieces` is the text of a tree in pieces, with a gap for each integer, and looks at no token.
`Spelled` fills the gaps with the decimal texts of the integers, behind zeros. The text of a parsed
tree is its pieces spelled so (`spelled_of_parseProgram`), by induction on the shape of the tree;
and trees that are the same have the same pieces. Hence `render_of_same`.
-/

namespace Pratt

/-! ## Numerals -/

/-- A digit is that of a number below ten. -/
theorem Numeral.exists_digitChar {c : Char} (h : c.isDigit = true) :
    ∃ d < 10, c = Nat.digitChar d ∧ c.toNat - '0'.toNat = d := by
  obtain ⟨hlow, hhigh⟩ : 48 ≤ c.toNat ∧ c.toNat ≤ 57 := by
    simpa [Char.isDigit, UInt32.le_iff_toNat_le] using h
  -- the ten digits, one by one
  have table : ∀ d < 10, Char.ofNat (48 + d) = Nat.digitChar d := by decide
  obtain ⟨d, hd⟩ := Nat.exists_eq_add_of_le hlow
  refine ⟨d, by omega, ?_, ?_⟩
  · rw [← table d (by omega), ← hd, Char.ofNat_toNat]
  · rw [hd]
    exact Nat.add_sub_cancel_left 48 d

/-- Every numeral is the decimal text of its number behind some zeros. -/
theorem Numeral.exists_replicate_append_toDigits {digits : List Char} (hne : digits ≠ [])
    (hdigits : ∀ c ∈ digits, c.isDigit = true) :
    ∃ zeros, digits = List.replicate zeros '0' ++ Nat.toDigits 10 (value digits) := by
  -- on the digits from the last one on, as their value is made
  induction digits using List.reverseRecOn with
  | nil => exact absurd rfl hne
  | append_singleton digits c ih =>
    obtain ⟨hfront, hlast⟩ := List.forall_mem_append.1 hdigits
    obtain ⟨d, hd, hc, hvalue⟩ := exists_digitChar (hlast c (List.mem_singleton_self c))
    have hlastDigit : Nat.toDigits 10 d = [c] := by rw [Nat.toDigits_of_lt_base hd, hc]
    rw [value_append_singleton, hvalue]
    by_cases hempty : digits = []
    · exact ⟨0, by rw [hempty, show 10 * value [] + d = d from Nat.zero_add d, hlastDigit]; rfl⟩
    · obtain ⟨zeros, hzeros⟩ := ih hempty hfront
      -- a zero in front of the last digit is padding, and any other number is printed in front of
      -- it
      rcases Nat.eq_zero_or_pos (value digits) with hzero | hpos
      · -- only zeros so far
        rw [hzero, Nat.toDigits_zero, ← List.replicate_succ'] at hzeros
        exact ⟨zeros + 1, by rw [hzero, Nat.mul_zero, Nat.zero_add, hlastDigit, ← hzeros]⟩
      · refine ⟨zeros, ?_⟩
        rw [← Nat.toDigits_append_toDigits (by decide) hpos hd, hlastDigit, ← List.append_assoc,
          ← hzeros]

/-- Every numeral is a padded number. -/
theorem Numeral.exists_eq_padded {text : String} (h : isNumeral text.toList = true) :
    ∃ zeros, text = padded zeros (value text.toList) := by
  obtain ⟨hne, hdigits⟩ := isNumeral_iff.1 h
  obtain ⟨zeros, hzeros⟩ := exists_replicate_append_toDigits hne hdigits
  refine ⟨zeros, String.toList_inj.1 ?_⟩
  rw [toList_padded, ← hzeros]

/-- The text is the decimal text of the integer, behind any number of zeros. -/
def Numeral.Writes (text : String) (v : Int) : Prop :=
  ∃ zeros n : Nat, text = padded zeros n ∧ v = n

/-- What is read as an integer is a text of it. -/
theorem Numeral.writes_of_read {text : String} {v : Int} (h : read text.toList = .integer v) :
    Writes text v := by
  obtain ⟨numeral, -, -, hvalue⟩ := read_eq_integer_iff.1 h
  obtain ⟨zeros, hzeros⟩ := exists_eq_padded numeral
  exact ⟨zeros, _, hzeros, hvalue⟩

/-- Without superfluous zeros there is one text for each integer. -/
theorem Numeral.Writes.eq_toString {text : String} {k : Nat} {v : Int} (h : Writes text v)
    (hplain : text = toString k) : text = toString v := by
  obtain ⟨zeros, n, hpadded, rfl⟩ := h
  have hk : padded 0 k = padded zeros n := by
    rw [← hpadded, hplain]
    exact String.empty_append
  -- a text tells its number, whatever zeros it has
  have hn : k = n := by rw [← value_padded 0 k, hk, value_padded]
  rw [hplain, hn]
  rfl

/-! ## Words -/

/-- Each reserved word has a kind of its own. -/
theorem Kind.eq_of_ofWord {word text : String} {k : Kind} (hword : (word, k) ∈ reservedWords)
    (h : ofWord text = k) : text = word := by
  have notIdent : ∀ p ∈ reservedWords, p.2 ≠ .ident := by decide
  have distinct : ∀ p ∈ reservedWords, ∀ q ∈ reservedWords, p.2 = q.2 → p.1 = q.1 := by decide
  unfold ofWord at h
  cases hlookup : reservedWords.lookup text with
  | none =>
    rw [hlookup] at h
    exact absurd h.symm (notIdent _ hword)
  | some j =>
    rw [hlookup] at h
    obtain rfl : j = k := h
    -- the text is in the list with this kind, and no two words there have the same
    obtain ⟨before, behind, hsplit, -⟩ := List.lookup_eq_some_iff.1 hlookup
    have hmem : (text, j) ∈ reservedWords := hsplit ▸ List.mem_append_cons_self
    exact distinct _ hmem _ hword rfl

/-- A word of the language is told by its kind. -/
theorem Token.literal_of_reserved {t : Token} {word : String} {k : Kind} (h : t.Lexical)
    (hk : t.kind = k) (hword : (word, k) ∈ Kind.reservedWords) : t.literal = word := by
  subst hk
  have notOperator : ∀ p ∈ Kind.operators.map (fun p => (p.1.toList, p.2)),
      ∀ q ∈ Kind.reservedWords, q.2 ≠ p.2 := by decide
  have notPlain : ∀ q ∈ Kind.reservedWords, q.2 ≠ .int ∧ q.2 ≠ .illegal := by decide
  -- the lexeme that the literal makes has the kind: it can only be a word
  rcases operator_or_plain_of_lexemeAt? h with hop | ⟨a, tail, hplain⟩
  · exact absurd rfl (notOperator _ hop _ hword)
  · have hkind : t.kind = (plainLexeme a tail).kind := congrArg Lexeme.kind hplain
    have htext : t.literal.toList = (plainLexeme a tail).text := congrArg Lexeme.text hplain
    unfold plainLexeme at hkind htext
    by_cases hstart : isWordStart a = true
    · rw [if_pos hstart] at hkind htext
      have hliteral : String.ofList ((a :: tail).takeWhile isWordChar) = t.literal := by
        rw [← String.ofList_toList (s := t.literal), htext]
      exact Kind.eq_of_ofWord hword (hliteral ▸ hkind.symm)
    · rw [if_neg hstart] at hkind
      by_cases hdigit : a.isDigit = true
      · rw [if_pos hdigit] at hkind
        exact absurd hkind (notPlain _ hword).1
      · rw [if_neg hdigit] at hkind
        exact absurd hkind (notPlain _ hword).2

/-! ## Pieces -/

/-- A piece of a text: something that is written so, or a gap for an integer. -/
inductive Piece where
  | text (written : String)
  | number (value : Int)

/-- The text is made of the pieces, with numerals for the integers in the gaps. -/
inductive Spelled : List Piece → List String → String → Prop where
  | nil : Spelled [] [] ""
  | text {ps : List Piece} {numerals : List String} {later : String} (written : String)
      (h : Spelled ps numerals later) : Spelled (.text written :: ps) numerals (written ++ later)
  | number {ps : List Piece} {numerals : List String} {later numeral : String} {value : Int}
      (writes : Numeral.Writes numeral value) (h : Spelled ps numerals later) :
      Spelled (.number value :: ps) (numeral :: numerals) (numeral ++ later)

namespace Spelled

variable {ps qs : List Piece} {xs ys : List String} {s t : String}

/-- Two texts are spelled one after the other, and so are the integers in them. -/
theorem append (h : Spelled ps xs s) (h' : Spelled qs ys t) :
    Spelled (ps ++ qs) (xs ++ ys) (s ++ t) := by
  induction h with
  | nil => rwa [String.empty_append]
  | text written _ ih =>
    rw [String.append_assoc]
    exact .text written ih
  | number writes _ ih =>
    rw [String.append_assoc]
    exact .number writes ih

/-- A text that is written so has no gap. -/
theorem written (s : String) : Spelled [.text s] [] s := by
  have h := Spelled.text s .nil
  rwa [String.append_empty] at h

/-- Something more may be written behind it. -/
theorem write (h : Spelled ps xs s) (later : String) :
    Spelled (ps ++ [.text later]) xs (s ++ later) := by
  have h' := h.append (written later)
  rwa [List.append_nil] at h'

/-- What is put in the gaps determines the text. -/
theorem unique (h : Spelled ps xs s) (h' : Spelled ps xs t) : s = t := by
  -- piece by piece: the two texts were put together in the same way
  induction h generalizing t with
  | nil =>
    cases h'
    rfl
  | text written _ ih =>
    cases h' with
    | text _ h' => rw [ih h']
  | number _ _ ih =>
    cases h' with
    | number _ h' => rw [ih h']

/-- Without superfluous zeros, the gaps determine what is put in them. -/
theorem numerals_eq (h : Spelled ps xs s) (h' : Spelled ps ys t)
    (hxs : ∀ x ∈ xs, ∃ k : Nat, x = toString k) (hys : ∀ y ∈ ys, ∃ k : Nat, y = toString k) :
    xs = ys := by
  -- piece by piece, and only the gaps matter
  induction h generalizing ys t with
  | nil =>
    cases h'
    rfl
  | text _ _ ih =>
    cases h' with
    | text _ h' => exact ih h' hxs hys
  | number writes _ ih =>
    cases h' with
    | number writes' h' =>
      obtain ⟨⟨k, hk⟩, hxs⟩ := List.forall_mem_cons.1 hxs
      obtain ⟨⟨l, hl⟩, hys⟩ := List.forall_mem_cons.1 hys
      rw [writes.eq_toString hk, writes'.eq_toString hl, ih h' hxs hys]

end Spelled

/-! ## The pieces of a tree -/

namespace Node

mutual

/-- The text of a tree in pieces. A node that has a token and nothing else has none, and neither has
a sequence. -/
def pieces : Node → List Piece
  | .program statements | .blockStatement _ statements => (piecesEach statements).flatten
  | .identifier _ value => [.text value]
  | .integerLiteral _ value => [.number value]
  | .boolean _ value => [.text (if value then "true" else "false")]
  | .prefixExpression _ operator right =>
    [.text "("] ++ [.text operator] ++ piecesChild right ++ [.text ")"]
  | .infixExpression _ left operator right =>
    [.text "("] ++ piecesChild left ++ [.text " "] ++ [.text operator] ++ [.text " "] ++
      piecesChild right ++ [.text ")"]
  | .ifExpression _ condition consequence alternative =>
    [.text "if"] ++ piecesChild condition ++ [.text " "] ++ piecesChild consequence ++
      piecesElse alternative
  | .functionLiteral _ parameters body =>
    [.text "fn"] ++ [.text "("] ++ [.text ", "].intercalate (piecesEach parameters) ++
      [.text ") "] ++ piecesChild body
  | .callExpression _ function arguments =>
    piecesChild function ++ [.text "("] ++ [.text ", "].intercalate (piecesChildren arguments) ++
      [.text ")"]
  | .letStatement _ name value =>
    [.text "let"] ++ [.text " "] ++ piecesChild name ++ [.text " = "] ++ piecesChild value ++
      [.text ";"]
  | .returnStatement _ value => [.text "return"] ++ [.text " "] ++ piecesChild value ++ [.text ";"]
  | .expressionStatement _ expression => piecesChild expression
  | .bare _ _ | .sequence _ => []

/-- The text of a child in pieces. -/
def piecesChild : Option Node → List Piece
  | none => []
  | some n => n.pieces

/-- The text of an alternative in pieces, with the word before it. -/
def piecesElse : Option Node → List Piece
  | none => []
  | some n => [.text "else "] ++ n.pieces

/-- The texts of several nodes in pieces. -/
def piecesEach : List Node → List (List Piece)
  | [] => []
  | n :: ns => n.pieces :: piecesEach ns

/-- The texts of several children in pieces. -/
def piecesChildren : List (Option Node) → List (List Piece)
  | [] => []
  | v :: vs => piecesChild v :: piecesChildren vs

end

/-- Children none of which is absent have the pieces of the nodes. -/
theorem piecesChildren_map_some (ns : List Node) :
    piecesChildren (ns.map some) = piecesEach ns := by
  induction ns with
  | nil => rfl
  | cons n ns ih => rw [List.map_cons, piecesChildren, piecesEach, ih, piecesChild]

mutual

/-- The pieces of a tree are made without its tokens. -/
theorem pieces_withoutTokens (n : Node) : n.withoutTokens.pieces = n.pieces := by
  -- node by node; a piece is made of the content of a node and never of its token
  cases n <;>
    simp [withoutTokens, pieces, piecesChild_withoutTokens, piecesElse_withoutTokens,
      piecesEach_withoutTokens, piecesChildren_withoutTokens]

theorem piecesChild_withoutTokens (v : Option Node) :
    piecesChild (withoutTokensChild v) = piecesChild v := by
  cases v with
  | none => rfl
  | some n => exact pieces_withoutTokens n

theorem piecesElse_withoutTokens (v : Option Node) :
    piecesElse (withoutTokensChild v) = piecesElse v := by
  cases v with
  | none => rfl
  | some n => exact congrArg (_ ++ ·) (pieces_withoutTokens n)

theorem piecesEach_withoutTokens (ns : List Node) :
    piecesEach (withoutTokensEach ns) = piecesEach ns := by
  cases ns with
  | nil => rfl
  | cons n ns =>
    rw [withoutTokensEach, piecesEach, piecesEach, pieces_withoutTokens n,
      piecesEach_withoutTokens ns]

theorem piecesChildren_withoutTokens (vs : List (Option Node)) :
    piecesChildren (withoutTokensChildren vs) = piecesChildren vs := by
  cases vs with
  | nil => rfl
  | cons v vs =>
    rw [withoutTokensChildren, piecesChildren, piecesChildren, piecesChild_withoutTokens v,
      piecesChildren_withoutTokens vs]

end

/-- Trees that are the same have the same pieces. -/
theorem pieces_of_same {m n : Node} (h : m.same n = true) : m.pieces = n.pieces := by
  rw [← pieces_withoutTokens m, (same_iff_withoutTokens m n).1 h, pieces_withoutTokens]

/-- The text that an integer was read from. -/
def numeral? : Node → Option String
  | .integerLiteral t _ => some (literalOfToken t)
  | _ => none

/-- The texts that the integers of a tree were read from, in the order of the tree. -/
def numerals (n : Node) : List String :=
  n.walk.filterMap numeral?

/-- The text of the tree is its pieces, with its own numerals for the integers. -/
def IsSpelled (n : Node) : Prop :=
  Spelled n.pieces n.numerals n.render

namespace IsSpelled

/-- A child is spelled as its node is, and an absent one as nothing. -/
theorem child {v : Option Node} (h : ∀ n ∈ v, n.IsSpelled) :
    Spelled (piecesChild v) ((walkChild v).filterMap numeral?) (renderChild v) := by
  cases v with
  | none => exact .nil
  | some n => exact h n rfl

/-- An alternative is spelled behind its word. -/
theorem otherwise {v : Option Node} (h : ∀ n ∈ v, n.IsSpelled) :
    Spelled (piecesElse v) ((walkChild v).filterMap numeral?) (renderElse v) := by
  cases v with
  | none => exact .nil
  | some n => exact .text "else " (h n rfl)

/-- Statements are written without anything between them. -/
theorem each {ns : List Node} (h : ∀ n ∈ ns, n.IsSpelled) :
    Spelled (piecesEach ns).flatten ((walkEach ns).filterMap numeral?)
      (String.join (renderEach ns)) := by
  induction ns with
  | nil => exact .nil
  | cons n ns ih =>
    obtain ⟨hn, hns⟩ := List.forall_mem_cons.1 h
    rw [piecesEach, List.flatten_cons, walkEach, List.filterMap_append, renderEach,
      String.join_cons]
    exact hn.append (ih hns)

/-- Parameters and arguments are written with commas between them. -/
theorem separated {ns : List Node} (h : ∀ n ∈ ns, n.IsSpelled) :
    Spelled ([.text ", "].intercalate (piecesEach ns)) ((walkEach ns).filterMap numeral?)
      (", ".intercalate (renderEach ns)) := by
  induction ns with
  | nil => exact .nil
  | cons n ns ih =>
    obtain ⟨hn, hns⟩ := List.forall_mem_cons.1 h
    rw [piecesEach, walkEach, List.filterMap_append, renderEach]
    cases ns with
    | nil =>
      have h := hn.append .nil
      rw [String.append_empty] at h
      exact h
    | cons m ns =>
      -- a comma only stands in front of a second node
      have hlater := (Spelled.written ", ").append (ih hns)
      rw [piecesEach, renderEach] at hlater ⊢
      rw [List.intercalate_cons_cons, String.intercalate_cons_cons, String.append_assoc,
        List.append_assoc]
      exact hn.append hlater

end IsSpelled

end Node

/-- The marks are at tokens that have the kinds which their texts make. -/
def Lexical (ms : List Mark) : Prop :=
  ∀ m ∈ ms, m.token.Lexical

namespace Lexical

/-- Marks of two stretches are those of each. -/
theorem append_iff {ms ms' : List Mark} : Lexical (ms ++ ms') ↔ Lexical ms ∧ Lexical ms' :=
  List.forall_mem_append

/-- The mark of a token alone says so of the token. -/
theorem own {t : Token} (h : Lexical (Node.ownMarks t)) : t.Lexical :=
  h (.own t) (List.mem_singleton_self _)

/-- The marks of a child are those of its node. -/
theorem child {v : Option Node} (h : Lexical (Node.marksChild v)) : ∀ n ∈ v, Lexical n.marks := by
  rintro n ⟨⟩
  exact h

/-- The marks of several nodes include those of each. -/
theorem each {ns : List Node} (h : Lexical (Node.marksEach ns)) : ∀ n ∈ ns, Lexical n.marks := by
  induction ns with
  | nil => exact nofun
  | cons n ns ih =>
    obtain ⟨hn, hns⟩ := append_iff.1 h
    exact List.forall_mem_cons.2 ⟨hn, ih hns⟩

end Lexical

/-- A tree that has its shape, of tokens that have the kinds which their texts make, is spelled. -/
theorem Shaped.isSpelled {place : Place} {n : Node} (h : Shaped place n)
    (lexical : Lexical n.marks) : n.IsSpelled := by
  -- one case for each shape; only words and integers have to do with the tokens
  induction h with
  | @letStatement _ word name value isWord isName inside ih =>
    obtain ⟨hfront, hvalue⟩ := Lexical.append_iff.1 lexical
    obtain ⟨hown, -⟩ := Lexical.append_iff.1 hfront
    have hword : word.literal = "let" := Token.literal_of_reserved hown.own isWord (by decide)
    have later := Node.IsSpelled.child fun n hn => ih n hn (hvalue.child n hn)
    show Spelled _ _ (word.literal ++ " " ++ name.literal ++ " = " ++ Node.renderChild value ++ ";")
    rw [hword]
    exact ((((Spelled.written "let").write " ").write name.literal).write " = ").append later
      |>.write ";"
  | @returnStatement _ word value isWord inside ih =>
    obtain ⟨hown, hvalue⟩ := Lexical.append_iff.1 lexical
    have hword : word.literal = "return" := Token.literal_of_reserved hown.own isWord (by decide)
    have later := Node.IsSpelled.child fun n hn => ih n hn (hvalue.child n hn)
    show Spelled _ _ (word.literal ++ " " ++ Node.renderChild value ++ ";")
    rw [hword]
    exact ((Spelled.written "return").write " ").append later |>.write ";"
  | expressionStatement starts inside ih =>
    obtain ⟨-, hexpression⟩ := Lexical.append_iff.1 lexical
    exact Node.IsSpelled.child fun n hn => ih n hn (hexpression.child n hn)
  | blockStatement isBrace inside ih =>
    obtain ⟨-, hstatements⟩ := Lexical.append_iff.1 lexical
    exact Node.IsSpelled.each fun n hn => ih n hn (hstatements.each n hn)
  | identifier isName => exact .written _
  | @integerLiteral number value isNumber reads =>
    have h := Spelled.number (Numeral.writes_of_read reads) .nil
    rwa [String.append_empty] at h
  | @boolean word isWord =>
    show Spelled [.text (if decide (word.kind = .trueWord) then "true" else "false")] _ word.literal
    rcases isWord with isTrue | isFalse
    · have hword : word.literal = "true" :=
        Token.literal_of_reserved lexical.own isTrue (by decide)
      rw [hword, isTrue]
      exact .written "true"
    · have hword : word.literal = "false" :=
        Token.literal_of_reserved lexical.own isFalse (by decide)
      rw [hword, isFalse]
      exact .written "false"
  | @prefixExpression operator right isOperator operand ih =>
    obtain ⟨-, hright⟩ := Lexical.append_iff.1 lexical
    exact (((Spelled.written "(").write operator.literal).append (ih hright)).write ")"
  | @infixExpression operator left right isOperator before behind ihBefore ihBehind =>
    obtain ⟨hfront, hright⟩ := Lexical.append_iff.1 lexical
    obtain ⟨hleft, -⟩ := Lexical.append_iff.1 hfront
    show Spelled _ ((left.walk ++ right.walk).filterMap Node.numeral?) _
    rw [List.filterMap_append]
    have left := ((Spelled.written "(").append (ihBefore hleft)).write " "
    exact (((left.write operator.literal).write " ").append (ihBehind hright)).write ")"
  | @ifExpression word condition consequence alternative isWord asked first second ihAsked ihFirst
      ihSecond =>
    obtain ⟨hfront, halternative⟩ := Lexical.append_iff.1 lexical
    obtain ⟨hfront, hconsequence⟩ := Lexical.append_iff.1 hfront
    obtain ⟨-, hcondition⟩ := Lexical.append_iff.1 hfront
    have other := Node.IsSpelled.otherwise fun n hn => ihSecond n hn (halternative.child n hn)
    show Spelled _ ((condition.walk ++ consequence.walk ++ Node.walkChild alternative).filterMap
      Node.numeral?) _
    rw [List.filterMap_append, List.filterMap_append]
    exact ((((Spelled.written "if").append (ihAsked hcondition)).write " ").append
      (ihFirst hconsequence)).append other
  | @functionLiteral word names body isWord areNames inside ih =>
    obtain ⟨hfront, hbody⟩ := Lexical.append_iff.1 lexical
    obtain ⟨hown, -⟩ := Lexical.append_iff.1 hfront
    have hword : word.literal = "fn" := Token.literal_of_reserved hown.own isWord (by decide)
    -- the parameters are names, which are written as they are
    have hnames : ∀ n ∈ names.map fun (t : Token) => Node.identifier (some t) t.literal,
        n.IsSpelled := by
      intro n hn
      obtain ⟨t, -, rfl⟩ := List.mem_map.1 hn
      exact Spelled.written t.literal
    show Spelled _ ((Node.walkEach _ ++ body.walk).filterMap Node.numeral?)
      (word.literal ++ "(" ++ _ ++ ") " ++ body.render)
    rw [List.filterMap_append, hword]
    exact ((((Spelled.written "fn").write "(").append
      (Node.IsSpelled.separated hnames)).write ") ").append (ih hbody)
  | @callExpression opening function arguments opens called given ihCalled ihGiven =>
    obtain ⟨hfront, harguments⟩ := Lexical.append_iff.1 lexical
    obtain ⟨hfunction, -⟩ := Lexical.append_iff.1 hfront
    rw [Node.marksChildren_map_some] at harguments
    have items := Node.IsSpelled.separated fun n hn => ihGiven n hn (harguments.each n hn)
    show Spelled (function.pieces ++ [.text "("] ++
        [.text ", "].intercalate (Node.piecesChildren (arguments.map some)) ++ [.text ")"])
      ((function.walk ++ Node.walkChildren (arguments.map some)).filterMap Node.numeral?)
      (function.render ++ "(" ++ ", ".intercalate (Node.renderChildren (arguments.map some)) ++ ")")
    rw [Node.piecesChildren_map_some, Node.walkChildren_map_some, List.filterMap_append,
      Node.renderChildren_map_some, ← Node.renderEach_eq_map]
    exact (((ihCalled hfunction).write "(").append items).write ")"

/-- The text of a parsed source is spelled as the source spells the integers. -/
theorem spelled_of_parseProgram {source : String} {tracing : Bool} {tree : Node} {s : State Cursor}
    (hrun : parseProgram (Cursor.ofString source) tracing = (.ok tree, s)) :
    Spelled tree.pieces tree.numerals tree.render := by
  have hmarks := marks_sublist_of_parseProgram hrun
  obtain ⟨ns, rfl, hns⟩ := shaped_of_parseProgram hrun
  have hinside : InsideInput (Node.program ns).marks := .each fun n hn => (hns n hn).insideInput
  -- a mark of the tree stands at a token that was scanned
  have lexical : Lexical (Node.program ns).marks := by
    intro m hm
    obtain ⟨t, ht, hmt⟩ := List.mem_flatMap.1 (hmarks.subset hm)
    rw [Token.of_mem_marks hmt]
    exact Cursor.lexical_of_mem_scanAll ht (Token.of_mem_marks hmt ▸ hinside m hm)
  exact Node.IsSpelled.each fun n hn => (hns n hn).isSpelled (lexical.each n hn)

/-- Sources that are parsed to equal trees give texts which differ in the zeros in front of their
integers and in nothing else: both are made of the same pieces, with numerals for the same integers
in the gaps. Where the sources spell the integers alike, the texts are the same, and so in
particular where no integer has a superfluous zero in front. -/
theorem render_of_same {source source' : String} {tracing tracing' : Bool} {m n : Node}
    {s t : State Cursor} (hm : parseProgram (Cursor.ofString source) tracing = (.ok m, s))
    (hn : parseProgram (Cursor.ofString source') tracing' = (.ok n, t))
    (hsame : m.same n = true) :
    (∃ pieces, Spelled pieces m.numerals m.render ∧ Spelled pieces n.numerals n.render) ∧
      (m.numerals = n.numerals → m.render = n.render) ∧
      ((∀ x ∈ m.numerals ++ n.numerals, ∃ k : Nat, x = toString k) → m.render = n.render) := by
  have first := spelled_of_parseProgram hm
  have second := spelled_of_parseProgram hn
  -- the pieces are those of both, and the numerals are all that may differ
  rw [← Node.pieces_of_same hsame] at second
  have hequal : m.numerals = n.numerals → m.render = n.render := by
    intro hnumerals
    rw [← hnumerals] at second
    exact first.unique second
  refine ⟨⟨m.pieces, first, second⟩, hequal, fun hplain => hequal ?_⟩
  obtain ⟨hm, hn⟩ := List.forall_mem_append.1 hplain
  exact first.numerals_eq second hm hn

/-- A statement with and without what it can do without, and a zero in front of the integer in both
of them. -/
theorem render_of_same_laidOut :
    ∃ m n s t, parseProgram (Cursor.ofString "let x=-07") false = (.ok m, s) ∧
      parseProgram (Cursor.ofString "let x = (-(07));") true = (.ok n, t) ∧
      m.numerals = ["07"] ∧ n.numerals = ["07"] ∧ m.render = "let x = (-07);" ∧
      m.render = n.render := by
  have hm : parseProgram (Cursor.ofString "let x=-07") false = (.ok (.program [_]), _) :=
    Prod.ext rfl rfl
  have hn : parseProgram (Cursor.ofString "let x = (-(07));") true = (.ok (.program [_]), _) :=
    Prod.ext rfl rfl
  have hsame := render_of_same hm hn (by decide +kernel)
  exact ⟨_, _, _, _, hm, hn, by decide +kernel, by decide +kernel, by decide +kernel,
    hsame.2.1 (by decide +kernel)⟩

/-- The zeros in front of an integer show in the text of a tree, but not in the tree. -/
theorem render_of_leadingZeros :
    ∃ m n s t, parseProgram (Cursor.ofString "007") false = (.ok m, s) ∧
      parseProgram (Cursor.ofString "7") false = (.ok n, t) ∧ s.diagnostics = [] ∧
      t.diagnostics = [] ∧ m.same n = true ∧ m.render ≠ n.render := by
  have hm : parseProgram (Cursor.ofString "007") false = (.ok (.program [_]), _) :=
    Prod.ext rfl rfl
  have hn : parseProgram (Cursor.ofString "7") false = (.ok (.program [_]), _) :=
    Prod.ext rfl rfl
  exact ⟨_, _, _, _, hm, hn, rfl, rfl, by decide +kernel, by decide +kernel⟩

end Pratt
