import Pratt.Node.Basic
import Pratt.Parser.Rule

/-!
# Pratt — what a parser can be asked to do

A `Goal` is a rule with what it needs besides the state of the parser: an
expression is read with a bound, an operator between operands with its left
operand, a list with the kind that closes it. The rules that repeat something
have a further goal for what is repeated. `Goal.Result` is the type of what a
goal gives: a tree, or nothing where the rule can fail, or a list of trees.
-/

namespace Pratt

/-- What a parser can be asked to do. -/
inductive Goal where
  | program
  | statement
  | letStatement
  | returnStatement
  | expressionStatement
  | blockStatement
  /-- An expression that goes on while the kind ahead has a level above `bound`. -/
  | expression (bound : Int)
  | identifier
  | integerLiteral
  | boolean
  | prefixExpression
  | infixExpression (left : Option Node)
  | groupedExpression
  | ifExpression
  | functionLiteral
  | functionParameters
  | callExpression (function : Option Node)
  | expressionList (closing : Kind)
  /-- The statements up to a token of the kind `closer` or the end of the input. -/
  | statements (closer : Kind)
  /-- What is left of an expression after `left`. -/
  | continuation (bound : Int) (left : Node)
  /-- The identifiers of a parameter list, from the first or from one after a comma. -/
  | parameters
  /-- The expressions of a list, from the first or from one after a comma. -/
  | expressions
  /-- The skip over a statement that could not be parsed, inside `depth` braces. -/
  | recovery (depth : Nat)

namespace Goal

/-- What a goal gives. -/
abbrev Result : Goal → Type
  | .program | .returnStatement | .expressionStatement | .identifier | .boolean => Node
  | .statement | .letStatement | .blockStatement | .expression _ | .integerLiteral
  | .prefixExpression | .infixExpression _ | .groupedExpression | .ifExpression
  | .functionLiteral | .callExpression _ | .continuation _ _ => Option Node
  | .functionParameters | .expressionList _ | .parameters => Option (List Node)
  | .statements _ => List Node
  | .expressions => List (Option Node)
  | .recovery _ => Unit

/-- The rule that a goal is an application of; a repeated part of a rule is none. -/
def rule? : Goal → Option Rule
  | .program => some .program
  | .statement => some .statement
  | .letStatement => some .letStatement
  | .returnStatement => some .returnStatement
  | .expressionStatement => some .expressionStatement
  | .blockStatement => some .blockStatement
  | .expression _ => some .expression
  | .identifier => some .identifier
  | .integerLiteral => some .integerLiteral
  | .boolean => some .boolean
  | .prefixExpression => some .prefixExpression
  | .infixExpression _ => some .infixExpression
  | .groupedExpression => some .groupedExpression
  | .ifExpression => some .ifExpression
  | .functionLiteral => some .functionLiteral
  | .functionParameters => some .functionParameters
  | .callExpression _ => some .callExpression
  | .expressionList _ => some .expressionList
  | .statements _ | .continuation _ _ | .parameters | .expressions | .recovery _ => none

end Goal

end Pratt
