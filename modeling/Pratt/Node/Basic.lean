import Pratt.Token.Basic

/-!
# Pratt — syntax trees

A `Node` is a syntax tree: a program at the root, statements in it, expressions
in those. Each node but the program remembers the token it was made from. A
child may be absent, which is how a tree shows a part that could not be parsed;
only the arguments of a call may have absent elements in a list.

One type holds all nodes, because a tree can be made by hand and because a
parser can be told to use any of its rules in any place. A rule that gives a list
of trees leaves a `sequence` where one tree is expected. `NodeFamily` names the
three nodes that have a token and no content of their own.
-/

namespace Pratt

/-- The nodes that have a token and nothing else. -/
inductive NodeFamily where
  | node | statement | expression
  deriving DecidableEq, Repr

/-- A syntax tree. -/
inductive Node where
  | program (statements : List Node)
  | identifier (token : Option Token) (value : String)
  | integerLiteral (token : Option Token) (value : Int)
  | boolean (token : Option Token) (value : Bool)
  /-- An operator before its operand, such as `-x`. -/
  | prefixExpression (token : Option Token) (operator : String) (right : Option Node)
  /-- An operator between its operands, such as `x + y`. -/
  | infixExpression (token : Option Token) (left : Option Node) (operator : String)
      (right : Option Node)
  | ifExpression (token : Option Token) (condition consequence alternative : Option Node)
  | functionLiteral (token : Option Token) (parameters : List Node) (body : Option Node)
  | callExpression (token : Option Token) (function : Option Node)
      (arguments : List (Option Node))
  | letStatement (token : Option Token) (name value : Option Node)
  | returnStatement (token : Option Token) (value : Option Node)
  /-- An expression that stands as a statement. -/
  | expressionStatement (token : Option Token) (expression : Option Node)
  /-- Statements between braces. -/
  | blockStatement (token : Option Token) (statements : List Node)
  | bare (family : NodeFamily) (token : Option Token)
  /-- Several trees in the place of one. -/
  | sequence (items : List Node)

namespace Node

instance : Inhabited Node := ⟨.program []⟩

/-- The token that a node was made from. -/
def token? : Node → Option Token
  | .program _ | .sequence _ => none
  | .identifier t _ | .integerLiteral t _ | .boolean t _ | .prefixExpression t _ _
  | .infixExpression t _ _ _ | .ifExpression t _ _ _ | .functionLiteral t _ _
  | .callExpression t _ _ | .letStatement t _ _ | .returnStatement t _
  | .expressionStatement t _ | .blockStatement t _ | .bare _ t => t

/-- The statements at the top of a program. -/
def topStatements : Node → List Node
  | .program statements => statements
  | _ => []

/-- The name of a node's kind. -/
def kindName : Node → String
  | .program _ => "Program"
  | .identifier _ _ => "Identifier"
  | .integerLiteral _ _ => "IntegerLiteral"
  | .boolean _ _ => "Boolean"
  | .prefixExpression _ _ _ => "PrefixExpression"
  | .infixExpression _ _ _ _ => "InfixExpression"
  | .ifExpression _ _ _ _ => "IfExpression"
  | .functionLiteral _ _ _ => "FunctionLiteral"
  | .callExpression _ _ _ => "CallExpression"
  | .letStatement _ _ _ => "LetStatement"
  | .returnStatement _ _ => "ReturnStatement"
  | .expressionStatement _ _ => "ExpressionStatement"
  | .blockStatement _ _ => "BlockStatement"
  | .bare .node _ => "Node"
  | .bare .statement _ => "Statement"
  | .bare .expression _ => "Expression"
  | .sequence _ => "list"

/-- The text of a token, empty when there is none. -/
def literalOfToken (t : Option Token) : String :=
  (t.map Token.literal).getD ""

mutual

/-- The text of the token that a node was made from; a program answers for its first statement,
and a sequence was made from no token. -/
def literal : Node → String
  | .program statements => literalOfFirst statements
  | .identifier t _ | .integerLiteral t _ | .boolean t _ | .prefixExpression t _ _
  | .infixExpression t _ _ _ | .ifExpression t _ _ _ | .functionLiteral t _ _
  | .callExpression t _ _ | .letStatement t _ _ | .returnStatement t _
  | .expressionStatement t _ | .blockStatement t _ | .bare _ t => literalOfToken t
  | .sequence _ => ""

/-- The text of the token that the first of several nodes was made from. -/
def literalOfFirst : List Node → String
  | [] => ""
  | first :: _ => first.literal

end

/-- What is answered to a request for a hash of the node. Nodes have none, because a node can be
equal to another that was made from other tokens. -/
def hashRefusal (n : Node) : String :=
  "unhashable type: '" ++ n.kindName ++ "'"

end Node

end Pratt
