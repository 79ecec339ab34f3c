import Pratt.Node.Render
import Pratt.Parser.Goal
import Pratt.Parser.State
import Pratt.Precedence

/-!
# Pratt — the rules

Each definition here is one rule of the grammar, written against a function
`parse` that pursues the goals the rule leads to. None of them refers to
itself or to another: `step` puts them together, and the parser is what results
when `parse` is `step` itself.

A rule starts on the current token, which is the first of what it reads, and
ends with the current token on the last. It reports what it finds wrong and then
gives nothing; a rule that gives nothing has always reported something. Where a
part is missing that a tree can do without (the value of a `let` or a `return`,
the expression of a statement) the rule goes on and leaves it absent.

A statement that could not be parsed is skipped by `recovery`, and parsing goes
on behind it.
-/

namespace Pratt.Parse

variable {σ : Type} [TokenSource σ]

/-- What pursues the goals that a rule leads to. -/
abbrev Recur (σ : Type) := (g : Goal) → Parse σ g.Result

/-! ## Statements -/

/-- The statements up to the end of the input. -/
def program (parse : Recur σ) : Parse σ Node := do
  return .program (← parse (.statements .eof))

/-- Any statement, told by its first token. -/
def statement (parse : Recur σ) : Parse σ (Option Node) := do
  match (← get).current.kind with
  | .letWord => parse .letStatement
  | .returnWord => return some (← parse .returnStatement)
  | _ => return some (← parse .expressionStatement)

/-- A name, the assignment sign, and an expression. Without the first two it gives nothing. -/
def letStatement (parse : Recur σ) : Parse σ (Option Node) := do
  let token := (← get).current
  let some name ← expect? .ident | return none
  let some _ ← expect? .assign | return none
  advance
  let value ← parse (.expression Precedence.lowest.level)
  skipOptional .semicolon
  return some (.letStatement token (some (.identifier name name.literal)) value)

/-- An expression after the word. -/
def returnStatement (parse : Recur σ) : Parse σ Node := do
  let token := (← get).current
  advance
  let value ← parse (.expression Precedence.lowest.level)
  skipOptional .semicolon
  return .returnStatement token value

/-- An expression by itself. -/
def expressionStatement (parse : Recur σ) : Parse σ Node := do
  let token := (← get).current
  let expression ← parse (.expression Precedence.lowest.level)
  skipOptional .semicolon
  return .expressionStatement token expression

/-- The statements up to a closing brace, with the current token on the opening one. The end of
the input in its place is reported. -/
def blockStatement (parse : Recur σ) : Parse σ (Option Node) := do
  let token := (← get).current
  advance
  let statements ← parse (.statements .rightBrace)
  let last := (← get).current
  if last.kind = .eof then
    report last (.expected .rightBrace)
    return none
  else return some (.blockStatement token statements)

/-- The statements from the current token on, up to one of the closing kind or the end of the
input. Those that could not be parsed are skipped and left out. -/
def statements (parse : Recur σ) (closer : Kind) : Parse σ (List Node) := do
  let first := (← get).current.kind
  if first = closer ∨ first = .eof then return []
  else
    match ← parse .statement with
    | some node =>
      -- From the last token of the statement onto what follows.
      advance
      return node :: (← parse (.statements closer))
    | none =>
      parse (.recovery 0)
      advance
      parse (.statements closer)

/-- Skips the rest of a statement. Braces opened on the way are skipped as a unit. Outside of them
the skip stops on a semicolon, or just before a closing brace, the word of another statement or
the end of the input, so that the next move is onto what follows. -/
def recovery (parse : Recur σ) (depth : Nat) : Parse σ Unit := do
  let s ← get
  if s.current.kind = .eof ∨ s.peek.kind = .eof then return
  else if depth = 0 ∧
      (s.current.kind = .semicolon ∨ s.peek.kind ∈ [Kind.rightBrace, .letWord, .returnWord]) then
    return
  else
    advance
    -- Outside all braces a closing one is never moved onto, so the depth does not run out.
    match (← get).current.kind with
    | .leftBrace => parse (.recovery (depth + 1))
    | .rightBrace => parse (.recovery (depth - 1))
    | _ => parse (.recovery depth)

/-! ## Expressions -/

/-- Uses a rule at a token that starts an expression. Nothing is given to the rule there, so one
that needs an argument is at fault. -/
def applyStarting (parse : Recur σ) : Rule → Parse σ (Option Node)
  | .program => return some (← parse .program)
  | .statement => parse .statement
  | .letStatement => parse .letStatement
  | .returnStatement => return some (← parse .returnStatement)
  | .expressionStatement => return some (← parse .expressionStatement)
  | .blockStatement => parse .blockStatement
  | .identifier => return some (← parse .identifier)
  | .integerLiteral => parse .integerLiteral
  | .boolean => return some (← parse .boolean)
  | .prefixExpression => parse .prefixExpression
  | .groupedExpression => parse .groupedExpression
  | .ifExpression => parse .ifExpression
  | .functionLiteral => parse .functionLiteral
  | .functionParameters => do
    -- The list stands where one tree is expected.
    let some names ← parse .functionParameters | return none
    return some (.sequence names)
  | r => traced r (throw (.missingArgument r))

/-- The rule registered for the current token. -/
def operand (parse : Recur σ) : Parse σ (Option Node) := do
  let s ← get
  match s.starting.find? s.current.kind with
  | none =>
    report s.current .noStart
    return none
  | some rule => applyStarting parse rule

/-- An expression that starts with an operand and goes on as the bound allows. -/
def expression (parse : Recur σ) (bound : Int) : Parse σ (Option Node) := do
  let some left ← operand parse | return none
  parse (.continuation bound left)

/-- An expression with a tree given as its bound. A semicolon ends it before the bound is looked
at; otherwise the tree would have to be compared with a level. -/
def expressionBoundedBy (parse : Recur σ) (bound : Node) : Parse σ (Option Node) := do
  let some left ← operand parse | return none
  if (← get).peek.kind = .semicolon then return some left
  else throw (.incomparableBound bound.kindName)

/-- A list of expressions with a tree given as what closes it. No token is a tree, so the list is
read and then found not to be closed. -/
def expressionListClosedBy (parse : Recur σ) (closing : Node) : Parse σ (Option Node) := do
  advance
  let _ ← parse .expressions
  report (← get).peek (.unattainable closing.render)
  return none

/-- Uses a rule at a token that continues an expression. What stands before is given to the rule,
as whatever it needs; one that needs nothing is at fault. -/
def applyContinuing (parse : Recur σ) (left : Node) : Rule → Parse σ (Option Node)
  | .infixExpression => parse (.infixExpression left)
  | .callExpression => parse (.callExpression left)
  | .expression => traced .expression (expressionBoundedBy parse left)
  | .expressionList => expressionListClosedBy parse left
  | r => traced r (throw (.surplusArgument r))

/-- Goes on with an expression while the token ahead binds tighter than the bound. A semicolon
never continues an expression. -/
def continuation (parse : Recur σ) (bound : Int) (left : Node) : Parse σ (Option Node) := do
  let s ← get
  if s.peek.kind ≠ .semicolon ∧ bound < s.peek.kind.level then
    match s.continuing.find? s.peek.kind with
    | none => return some left
    | some rule =>
      -- The rule starts on the operator.
      advance
      let some longer ← applyContinuing parse left rule | return none
      parse (.continuation bound longer)
  else return some left

/-- The current token as a name. -/
def identifier : Parse σ Node := do
  let token := (← get).current
  return .identifier token token.literal

/-- The current token as an integer. -/
def integerLiteral : Parse σ (Option Node) := do
  let token := (← get).current
  match Numeral.read token.literal.toList with
  | .integer value => return some (.integerLiteral token value)
  | .oversized digits => throw (.oversizedInteger digits)
  | .unreadable =>
    report token .notInteger
    return none

/-- The current token as a truth value. -/
def boolean : Parse σ Node := do
  let token := (← get).current
  return .boolean token (token.kind = .trueWord)

/-- The current token as an operator, and the operand after it. -/
def prefixExpression (parse : Recur σ) : Parse σ (Option Node) := do
  let token := (← get).current
  advance
  let some right ← parse (.expression Precedence.unary.level) | return none
  return some (.prefixExpression token token.literal (some right))

/-- The current token as an operator, and the operand after it. That operand goes on only for
operators which bind tighter, so operators of the same level associate to the left. -/
def infixExpression (parse : Recur σ) (left : Option Node) : Parse σ (Option Node) := do
  let token := (← get).current
  advance
  let some right ← parse (.expression token.kind.level) | return none
  return some (.infixExpression token left token.literal (some right))

/-- An expression between parentheses, with the current token on the opening one. -/
def groupedExpression (parse : Recur σ) : Parse σ (Option Node) := do
  advance
  let expression ← parse (.expression Precedence.lowest.level)
  let some _ ← expect? .rightParen | return none
  return expression

/-- The block after the word for the alternative, if that word comes next: nothing in it is a
failure, and no such word is no alternative. -/
def alternative (parse : Recur σ) : Parse σ (Option (Option Node)) := do
  if (← get).peek.kind = .elseWord then
    advance
    let some _ ← expect? .leftBrace | return none
    let some block ← parse .blockStatement | return none
    return some (some block)
  else return some none

/-- A condition between parentheses, a block, and an optional alternative. A condition that could
not be parsed does not keep the blocks from being parsed. -/
def ifExpression (parse : Recur σ) : Parse σ (Option Node) := do
  let token := (← get).current
  let some _ ← expect? .leftParen | return none
  advance
  let condition ← parse (.expression Precedence.lowest.level)
  let some _ ← expect? .rightParen | return none
  let some _ ← expect? .leftBrace | return none
  let some consequence ← parse .blockStatement | return none
  let some alternative ← alternative parse | return none
  -- Only now does a failed condition count, so that the blocks have been read in any case.
  let some condition := condition | return none
  return some (.ifExpression token (some condition) (some consequence) alternative)

/-- Parameters and a block. -/
def functionLiteral (parse : Recur σ) : Parse σ (Option Node) := do
  let token := (← get).current
  let some _ ← expect? .leftParen | return none
  let some parameters ← parse .functionParameters | return none
  let some _ ← expect? .leftBrace | return none
  let some body ← parse .blockStatement | return none
  return some (.functionLiteral token parameters (some body))

/-- Identifiers with commas between them, up to a closing parenthesis, with the current token
before the first. -/
def functionParameters (parse : Recur σ) : Parse σ (Option (List Node)) := do
  if (← get).peek.kind = .rightParen then
    advance
    return some []
  else parse .parameters

/-- One parameter, and those after it. -/
def parameters (parse : Recur σ) : Parse σ (Option (List Node)) := do
  let some name ← expect? .ident | return none
  let first := Node.identifier name name.literal
  if (← get).peek.kind = .comma then
    advance
    let some later ← parse .parameters | return none
    return some (first :: later)
  else
    let some _ ← expect? .rightParen | return none
    return some [first]

/-- The arguments after what is called, with the current token on the opening parenthesis. -/
def callExpression (parse : Recur σ) (function : Option Node) : Parse σ (Option Node) := do
  let token := (← get).current
  let some arguments ← parse (.expressionList .rightParen) | return none
  return some (.callExpression token function (arguments.map some))

/-- Expressions with commas between them, up to a closing token, with the current token before the
first. All of them are read, also after one that could not be parsed. -/
def expressionList (parse : Recur σ) (closing : Kind) : Parse σ (Option (List Node)) := do
  if (← get).peek.kind = closing then
    advance
    return some []
  else
    advance
    let items ← parse .expressions
    let some _ ← expect? closing | return none
    -- One item that could not be parsed spoils the list.
    return items.mapM id

/-- One expression of a list, and those after it. -/
def expressions (parse : Recur σ) : Parse σ (List (Option Node)) := do
  let first ← parse (.expression Precedence.lowest.level)
  if (← get).peek.kind = .comma then
    advance
    advance
    return first :: (← parse .expressions)
  else return [first]

/-! ## All rules together -/

/-- Pursues a goal, leaving to `parse` the goals that it leads to. -/
def step (parse : Recur σ) : (g : Goal) → Parse σ g.Result
  | .program => program parse
  | .statement => statement parse
  | .letStatement => letStatement parse
  | .returnStatement => returnStatement parse
  | .expressionStatement => expressionStatement parse
  | .blockStatement => blockStatement parse
  | .expression bound => expression parse bound
  | .identifier => identifier
  | .integerLiteral => integerLiteral
  | .boolean => boolean
  | .prefixExpression => prefixExpression parse
  | .infixExpression left => infixExpression parse left
  | .groupedExpression => groupedExpression parse
  | .ifExpression => ifExpression parse
  | .functionLiteral => functionLiteral parse
  | .functionParameters => functionParameters parse
  | .callExpression function => callExpression parse function
  | .expressionList closing => expressionList parse closing
  | .statements closer => statements parse closer
  | .continuation bound left => continuation parse bound left
  | .parameters => parameters parse
  | .expressions => expressions parse
  | .recovery depth => recovery parse depth

/-- Surrounds a goal by the journal entries of its rule. -/
def tracedGoal {α : Type} (g : Goal) (action : Parse σ α) : Parse σ α :=
  match g.rule? with
  | some r => traced r action
  | none => action

/-- Pursues a goal in which goals lead to each other at most `fuel` deep. -/
def run : (fuel : Nat) → Recur σ
  | 0, _ => throw .endlessRules
  | fuel + 1, g => tracedGoal g (step (run fuel) g)

/-- With fuel left, a goal is pursued by its rule, and the goals that the rule leads to with one
unit less. -/
theorem run_succ (fuel : Nat) (g : Goal) :
    (run (fuel + 1) : Recur σ) g = tracedGoal g (step (run fuel) g) := rfl

/-- How deep goals can lead to each other before the source is used up: a fixed number of times
for each token, those of the window included. -/
def enough (s : State σ) : Nat :=
  16 * (TokenSource.remaining s.source + 4)

/-- Pursues a goal. -/
def perform (g : Goal) : Parse σ g.Result := fun s =>
  run (enough s) g s

end Pratt.Parse
