import Pratt.Node.Basic

/-!
# Pratt — trees shown as constructor calls

`Node.describe` shows a tree as nested constructor calls with named arguments:
the kind of each node, then its content between parentheses. Texts are written
as literals, lists between square brackets, absent children as `None`. Tokens
are not shown, and a sequence is shown as the list that it is.
-/

namespace Pratt.Node

/-- The items of a list between square brackets. -/
def bracketed (items : List String) : String :=
  "[" ++ ", ".intercalate items ++ "]"

/-- How a truth value is shown. -/
def describeBool (b : Bool) : String :=
  if b then "True" else "False"

mutual

/-- A tree shown as nested constructor calls. -/
def describe : Node → String
  | .program statements => "Program(statements=" ++ bracketed (describeEach statements) ++ ")"
  | .identifier _ value => "Identifier(value=" ++ literalOf value ++ ")"
  | .integerLiteral _ value => "IntegerLiteral(value=" ++ toString value ++ ")"
  | .boolean _ value => "Boolean(value=" ++ describeBool value ++ ")"
  | .prefixExpression _ operator right =>
    "PrefixExpression(operator=" ++ literalOf operator ++ ", right=" ++ describeChild right ++ ")"
  | .infixExpression _ left operator right =>
    "InfixExpression(left=" ++ describeChild left ++ ", operator=" ++ literalOf operator ++
      ", right=" ++ describeChild right ++ ")"
  | .ifExpression _ condition consequence alternative =>
    "IfExpression(condition=" ++ describeChild condition ++ ", consequence=" ++
      describeChild consequence ++ ", alternative=" ++ describeChild alternative ++ ")"
  | .functionLiteral _ parameters body =>
    "FunctionLiteral(parameters=" ++ bracketed (describeEach parameters) ++ ", body=" ++
      describeChild body ++ ")"
  | .callExpression _ function arguments =>
    "CallExpression(function=" ++ describeChild function ++ ", arguments=" ++
      bracketed (describeChildren arguments) ++ ")"
  | .letStatement _ name value =>
    "LetStatement(name=" ++ describeChild name ++ ", value=" ++ describeChild value ++ ")"
  | .returnStatement _ value => "ReturnStatement(return_value=" ++ describeChild value ++ ")"
  | .expressionStatement _ expression =>
    "ExpressionStatement(expression=" ++ describeChild expression ++ ")"
  | .blockStatement _ statements =>
    "BlockStatement(statements=" ++ bracketed (describeEach statements) ++ ")"
  | .bare .node _ => "Node()"
  | .bare .statement _ => "Statement()"
  | .bare .expression _ => "Expression()"
  | .sequence items => bracketed (describeEach items)

/-- A child shown as a constructor call. -/
def describeChild : Option Node → String
  | none => "None"
  | some n => n.describe

/-- Several nodes, each shown as a constructor call. -/
def describeEach : List Node → List String
  | [] => []
  | n :: ns => n.describe :: describeEach ns

/-- Several children, each shown as a constructor call. -/
def describeChildren : List (Option Node) → List String
  | [] => []
  | n :: ns => describeChild n :: describeChildren ns

end

end Pratt.Node
