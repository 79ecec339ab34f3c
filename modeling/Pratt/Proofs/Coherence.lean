import Mathlib.Algebra.Group.Int.Defs
import Pratt.Proofs.Shape

/-!
# Pratt — nodes agree with their tokens

Each rule keeps the token that was the current one when it began, and looks at the window again only
after it has moved. Were a rule to keep a token one move too late, the node would still be there,
but it would have been made from a token of another kind, or its content would be the text of
another token. That this never happens, also where something is wrong with the input, is a property
of every node of a tree by itself.

* `Node.Coherent` — the node was made from a token of the kind that such nodes are made from, and
  its content is what that token says.
* `Node.bodies` and `Node.parts` — the children that are read between braces, and all others. Blocks
  are among the former, and nowhere else.
* `coherent_of_parseProgram` — every node of a parsed tree is coherent, and its children stand where
  such children belong.

Both follow from the shape of a tree (`Shaped`), one node at a time.
-/

namespace Pratt

namespace Node

/-- The node is a block of statements. -/
def IsBlock : Node → Prop
  | .blockStatement _ _ => True
  | _ => False

/-- The node is a name. -/
def IsName : Node → Prop
  | .identifier _ _ => True
  | _ => False

/-- The children that are read between braces. -/
def bodies : Node → List Node
  | .ifExpression _ _ consequence alternative => consequence.toList ++ alternative.toList
  | .functionLiteral _ _ body => body.toList
  | _ => []

/-- The children that are not read between braces, and the statements of a block or a program. -/
def parts : Node → List Node
  | .program statements | .blockStatement _ statements => statements
  | .prefixExpression _ _ right => right.toList
  | .infixExpression _ left _ right => left.toList ++ right.toList
  | .ifExpression _ condition _ _ => condition.toList
  | .functionLiteral _ parameters _ => parameters
  | .callExpression _ function arguments => function.toList ++ arguments.flatMap Option.toList
  | .letStatement _ name value => name.toList ++ value.toList
  | .returnStatement _ value => value.toList
  | .expressionStatement _ expression => expression.toList
  | .identifier _ _ | .integerLiteral _ _ | .boolean _ _ | .bare _ _ => []
  | .sequence items => items

/-- The node is no expression statement that was made from a closing brace. -/
def StartsOpen : Node → Prop
  | .expressionStatement t _ => ∀ first ∈ t, first.kind ≠ .rightBrace
  | _ => True

/-- The node was made from a token of the kind that such nodes are made from, and its content is
what that token says. The nodes that no rule of the language makes are not coherent. -/
def Coherent : Node → Prop
  | .program _ => True
  | .identifier t value => ∃ name ∈ t, name.kind = .ident ∧ value = name.literal
  | .integerLiteral t value =>
    ∃ number ∈ t, number.kind = .int ∧ number.literal.toList ≠ [] ∧
      (∀ c ∈ number.literal.toList, c.isDigit = true) ∧
      value = Numeral.value number.literal.toList ∧ 0 ≤ value ∧ value ≤ 2 ^ 63 - 1
  | .boolean t value =>
    ∃ word ∈ t, (word.kind = .trueWord ∨ word.kind = .falseWord) ∧
      (value = true ↔ word.kind = .trueWord)
  | .prefixExpression t operator _ =>
    ∃ sign ∈ t, (sign.kind = .bang ∨ sign.kind = .minus) ∧ operator = sign.literal
  | .infixExpression t _ operator _ =>
    ∃ sign ∈ t,
      sign.kind ∈ [Kind.equal, .notEqual, .less, .greater, .plus, .minus, .asterisk, .slash] ∧
      operator = sign.literal
  | .ifExpression t _ _ _ => ∃ word ∈ t, word.kind = .ifWord
  | .functionLiteral t parameters _ =>
    (∃ word ∈ t, word.kind = .functionWord) ∧ ∀ n ∈ parameters, n.IsName
  | .callExpression t _ _ => ∃ opening ∈ t, opening.kind = .leftParen
  | .letStatement t name _ => (∃ word ∈ t, word.kind = .letWord) ∧ ∃ n ∈ name, n.IsName
  | .returnStatement t _ => ∃ word ∈ t, word.kind = .returnWord
  | .expressionStatement t _ =>
    ∃ first ∈ t, first.kind ≠ .letWord ∧ first.kind ≠ .returnWord ∧ first.kind ≠ .eof
  | .blockStatement t statements =>
    (∃ brace ∈ t, brace.kind = .leftBrace) ∧ ∀ n ∈ statements, n.StartsOpen
  | .bare _ _ | .sequence _ => False

/-- Parameters are names. -/
theorem isName_of_mem_map {names : List Token} {n : Node}
    (hn : n ∈ names.map fun (t : Token) => .identifier t t.literal) : n.IsName := by
  obtain ⟨t, -, rfl⟩ := List.mem_map.1 hn
  trivial

/-- No name is a block. -/
theorem not_isBlock_of_isName {n : Node} (h : n.IsName) : ¬n.IsBlock := by
  cases n with
  | identifier => exact id
  | _ => exact h.elim

end Node

/-! ## One node -/

namespace Shaped

variable {n : Node}

/-- What has the shape of an expression or of a statement is no block. -/
theorem not_isBlock {place : Place} (h : Shaped place n) (hplace : place ≠ .block) :
    ¬n.IsBlock := by
  cases h with
  | blockStatement => exact absurd rfl hplace
  | _ => exact id

/-- What stands where a block does is one. -/
theorem isBlock (h : Shaped .block n) : n.IsBlock := by
  cases h with
  | blockStatement => trivial

/-- In a block, what starts with a closing brace is no statement. -/
theorem startsOpen (h : Shaped (.statement .rightBrace) n) : n.StartsOpen := by
  cases h with
  | expressionStatement starts inside =>
    intro first hfirst hk
    cases hfirst
    exact starts (by simp [hk])
  | _ => trivial

/-- A node of its shape is coherent, by the rule that made it. -/
theorem coherent {place : Place} (h : Shaped place n) : n.Coherent := by
  cases h with
  | identifier isName => exact ⟨_, rfl, isName, rfl⟩
  | @integerLiteral number value isNumber reads =>
    obtain ⟨numeral, -, hle, hvalue⟩ := Numeral.read_eq_integer_iff.1 reads
    obtain ⟨hne, hdigits⟩ := Numeral.isNumeral_iff.1 numeral
    have hpos : 0 ≤ value := by omega
    exact ⟨number, rfl, isNumber, hne, hdigits, hvalue, hpos, hle⟩
  | boolean isWord => exact ⟨_, rfl, isWord, decide_eq_true_iff⟩
  | @prefixExpression sign right isOperator operand =>
    have hk : sign.kind = .bang ∨ sign.kind = .minus := by
      simpa [Kind.prefixOperators] using isOperator
    exact ⟨sign, rfl, hk, rfl⟩
  | infixExpression isOperator before behind => exact ⟨_, rfl, isOperator, rfl⟩
  | ifExpression isWord asked first second => exact ⟨_, rfl, isWord⟩
  | functionLiteral isWord areNames inside =>
    exact ⟨⟨_, rfl, isWord⟩, fun m hm => Node.isName_of_mem_map hm⟩
  | callExpression opens called given => exact ⟨_, rfl, opens⟩
  | letStatement isWord isName inside => exact ⟨⟨_, rfl, isWord⟩, _, rfl, trivial⟩
  | returnStatement isWord inside => exact ⟨_, rfl, isWord⟩
  | @expressionStatement closer first expression starts inside =>
    -- what closes the statements around it is of no interest here, see `startsOpen`
    simp only [List.mem_cons, not_or] at starts
    obtain ⟨hlet, hreturn, heof, -⟩ := starts
    exact ⟨first, rfl, hlet, hreturn, heof⟩
  | blockStatement isBrace inside =>
    exact ⟨⟨_, rfl, isBrace⟩, fun m hm => (inside m hm).startsOpen⟩

/-- What is read between braces is a block. -/
theorem isBlock_of_mem_bodies {place : Place} (h : Shaped place n) {m : Node}
    (hm : m ∈ n.bodies) : m.IsBlock := by
  cases h with
  | ifExpression isWord asked first second =>
    simp only [Node.bodies, List.mem_append, Option.mem_toList] at hm
    rcases hm with hm | hm
    · cases hm
      exact first.isBlock
    · exact (second m hm).isBlock
  | functionLiteral isWord areNames inside =>
    obtain rfl := List.mem_singleton.1 hm
    exact inside.isBlock
  | _ => cases hm

/-- What is not read between braces is none. -/
theorem not_isBlock_of_mem_parts {place : Place} (h : Shaped place n) {m : Node}
    (hm : m ∈ n.parts) : ¬m.IsBlock := by
  -- every part is an expression, or a name that is bound or listed
  have expression : ∀ {m : Node}, Shaped .expression m → ¬m.IsBlock := fun h => h.not_isBlock nofun
  cases h with
  | identifier | integerLiteral | boolean => cases hm
  | prefixExpression isOperator operand =>
    obtain rfl := List.mem_singleton.1 hm
    exact expression operand
  | infixExpression isOperator before behind =>
    simp only [Node.parts, Option.toList_some, List.cons_append, List.nil_append, List.mem_cons,
      List.not_mem_nil, or_false] at hm
    rcases hm with rfl | rfl
    · exact expression before
    · exact expression behind
  | ifExpression isWord asked first second =>
    obtain rfl := List.mem_singleton.1 hm
    exact expression asked
  | functionLiteral isWord areNames inside =>
    exact Node.not_isBlock_of_isName (Node.isName_of_mem_map hm)
  | callExpression opens called given =>
    simp only [Node.parts, Option.toList_some, List.cons_append, List.nil_append, List.mem_cons,
      List.mem_flatMap, List.mem_map, Option.mem_toList] at hm
    rcases hm with rfl | ⟨_, ⟨argument, hargument, rfl⟩, hm⟩
    · exact expression called
    · obtain rfl := Option.mem_some_iff.1 hm
      exact expression (given argument hargument)
  | letStatement isWord isName inside =>
    simp only [Node.parts, Option.toList_some, List.cons_append, List.nil_append, List.mem_cons,
      Option.mem_toList] at hm
    rcases hm with rfl | hm
    · exact id
    · exact expression (inside m hm)
  | returnStatement isWord inside => exact expression (inside m (Option.mem_toList.1 hm))
  | expressionStatement starts inside => exact expression (inside m (Option.mem_toList.1 hm))
  | blockStatement isBrace inside => exact (inside m hm).not_isBlock nofun

end Shaped

/-! ## Every node of a tree -/

/-- Every node of a parsed tree agrees with the token it was made from, whether or not anything was
reported, and blocks stand where something is read between braces and nowhere else. -/
theorem coherent_of_parseProgram {σ : Type} [TokenSource σ] {source : σ} {tracing : Bool}
    {tree : Node} {s : State σ} (hrun : parseProgram source tracing = (.ok tree, s)) :
    (∃ statements, tree = .program statements) ∧
      ∀ n ∈ tree.walk, n.Coherent ∧ (∀ m ∈ n.bodies, m.IsBlock) ∧ ∀ m ∈ n.parts, ¬m.IsBlock := by
  obtain ⟨ns, rfl, hns⟩ := shaped_of_parseProgram hrun
  refine ⟨⟨ns, rfl⟩, ?_⟩
  intro m hm
  rw [Node.walk, List.mem_cons, Node.mem_walkEach] at hm
  rcases hm with rfl | ⟨n, hn, hm⟩
  · -- the program itself
    refine ⟨trivial, fun n hn => absurd hn List.not_mem_nil, fun n hn => (hns n hn).not_isBlock ?_⟩
    exact Place.noConfusion
  · -- below it, each node has the shape of some place, and that is enough
    obtain ⟨place, hplace⟩ := (hns n hn).of_mem_walk hm
    exact ⟨hplace.coherent, fun _ => hplace.isBlock_of_mem_bodies,
      fun _ => hplace.not_isBlock_of_mem_parts⟩

/-- In `if (a) { !1 let }` with a stray `)` behind it, the block is a branch of the conditional, and
the parenthesis is the token of a statement that has no expression. -/
theorem coherent_of_strayParenthesis :
    let word := Token.unplaced .ifWord "if"
    let name := Token.unplaced .ident "a"
    let brace := Token.unplaced .leftBrace "\x7b"
    let sign := Token.unplaced .bang "!"
    let number := Token.unplaced .int "007"
    let stray := Token.unplaced .rightParen ")"
    let tokens := [word, .unplaced .leftParen "(", name, .unplaced .rightParen ")", brace, sign,
      number, .unplaced .letWord "let", .unplaced .rightBrace "\x7d", stray]
    let block := Node.blockStatement brace
      [.expressionStatement sign
        (some (.prefixExpression sign "!" (some (.integerLiteral number 7))))]
    let conditional := Node.ifExpression word (some (.identifier name "a")) (some block) none
    let tree := Node.program [.expressionStatement word (some conditional),
      .expressionStatement stray none]
    ∃ s, parseProgram tokens false = (.ok tree, s) ∧ s.diagnostics.length = 2 ∧
      conditional.Coherent ∧ (Node.integerLiteral number 7).Coherent ∧ block.Coherent ∧
      ∀ m ∈ conditional.bodies, m.IsBlock := by
  intro word name brace sign number stray tokens block conditional tree
  have htree : (parseProgram tokens false).1 = .ok tree := by
    simp only [tokens, tree, conditional, block, word, name, brace, sign, number, stray]
    rfl
  have hrun : parseProgram tokens false = (.ok tree, (parseProgram tokens false).2) :=
    Prod.ext htree rfl
  have hds : (parseProgram tokens false).2.diagnostics.length = 2 := by decide +kernel
  obtain ⟨-, hnodes⟩ := coherent_of_parseProgram hrun
  obtain ⟨hconditional, hbodies, -⟩ := hnodes conditional (by simp [tree, Node.walk, Node.walkEach,
    Node.walkChild, conditional])
  have hnumber := (hnodes (.integerLiteral number 7) (by simp [tree, Node.walk, Node.walkEach,
    Node.walkChild, conditional, block])).1
  have hblock := (hnodes block (by simp [tree, Node.walk, Node.walkEach, Node.walkChild,
    conditional, block])).1
  exact ⟨_, hrun, hds, hconditional, hnumber, hblock, hbodies⟩

end Pratt
