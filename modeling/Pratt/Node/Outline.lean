import Pratt.Node.Basic

/-!
# Pratt — outlines of trees

An `Outline` is a tree as plain data: a record for each node, with the name of
its kind, the text of its token and its named content. It keeps less than the
tree, namely no locations and no kinds of tokens, and is what a tree is exchanged
as.
-/

namespace Pratt

/-- A tree as plain data. -/
inductive Outline where
  | absent
  | text (value : String)
  | integer (value : Int)
  | flag (value : Bool)
  | list (items : List Outline)
  | record (kind token : String) (fields : List (String × Outline))

namespace Node

mutual

/-- The outline of a tree. -/
def outline : Node → Outline
  | .program statements =>
    .record "Program" (literalOfFirst statements) [("statements", .list (outlineEach statements))]
  | .identifier t value => .record "Identifier" (literalOfToken t) [("value", .text value)]
  | .integerLiteral t value =>
    .record "IntegerLiteral" (literalOfToken t) [("value", .integer value)]
  | .boolean t value => .record "Boolean" (literalOfToken t) [("value", .flag value)]
  | .prefixExpression t operator right =>
    .record "PrefixExpression" (literalOfToken t)
      [("operator", .text operator), ("right", outlineChild right)]
  | .infixExpression t left operator right =>
    .record "InfixExpression" (literalOfToken t)
      [("left", outlineChild left), ("operator", .text operator), ("right", outlineChild right)]
  | .ifExpression t condition consequence alternative =>
    .record "IfExpression" (literalOfToken t)
      [("condition", outlineChild condition), ("consequence", outlineChild consequence),
       ("alternative", outlineChild alternative)]
  | .functionLiteral t parameters body =>
    .record "FunctionLiteral" (literalOfToken t)
      [("parameters", .list (outlineEach parameters)), ("body", outlineChild body)]
  | .callExpression t function arguments =>
    .record "CallExpression" (literalOfToken t)
      [("function", outlineChild function), ("arguments", .list (outlineChildren arguments))]
  | .letStatement t name value =>
    .record "LetStatement" (literalOfToken t)
      [("name", outlineChild name), ("value", outlineChild value)]
  | .returnStatement t value =>
    .record "ReturnStatement" (literalOfToken t) [("return_value", outlineChild value)]
  | .expressionStatement t expression =>
    .record "ExpressionStatement" (literalOfToken t) [("expression", outlineChild expression)]
  | .blockStatement t statements =>
    .record "BlockStatement" (literalOfToken t) [("statements", .list (outlineEach statements))]
  | .bare .node t => .record "Node" (literalOfToken t) []
  | .bare .statement t => .record "Statement" (literalOfToken t) []
  | .bare .expression t => .record "Expression" (literalOfToken t) []
  | .sequence items => .list (outlineEach items)

/-- The outline of a child. -/
def outlineChild : Option Node → Outline
  | none => .absent
  | some n => n.outline

/-- The outlines of several nodes. -/
def outlineEach : List Node → List Outline
  | [] => []
  | n :: ns => n.outline :: outlineEach ns

/-- The outlines of several children. -/
def outlineChildren : List (Option Node) → List Outline
  | [] => []
  | n :: ns => outlineChild n :: outlineChildren ns

end

end Node

end Pratt
