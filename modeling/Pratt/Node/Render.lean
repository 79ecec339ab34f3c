import Pratt.Node.Describe

/-!
# Pratt — trees as source text

`Node.render` writes a tree as source text. Every operator expression is put in
parentheses of its own, so that the text shows what binds to what; blocks are
written without their braces and statements without anything between them.
Absent children are written as nothing.

Leaves other than identifiers are written as the text of their token, also where
that differs from their value. A sequence has no source text of its own and is
shown the way `Node.describe` shows it.
-/

namespace Pratt.Node

mutual

/-- A tree as source text. -/
def render : Node → String
  | .program statements => String.join (renderEach statements)
  | .identifier _ value => value
  | .integerLiteral t _ => literalOfToken t
  | .boolean t _ => literalOfToken t
  | .prefixExpression _ operator right => "(" ++ operator ++ renderChild right ++ ")"
  | .infixExpression _ left operator right =>
    "(" ++ renderChild left ++ " " ++ operator ++ " " ++ renderChild right ++ ")"
  | .ifExpression _ condition consequence alternative =>
    "if" ++ renderChild condition ++ " " ++ renderChild consequence ++ renderElse alternative
  | .functionLiteral t parameters body =>
    literalOfToken t ++ "(" ++ ", ".intercalate (renderEach parameters) ++ ") " ++ renderChild body
  | .callExpression _ function arguments =>
    renderChild function ++ "(" ++ ", ".intercalate (renderChildren arguments) ++ ")"
  | .letStatement t name value =>
    literalOfToken t ++ " " ++ renderChild name ++ " = " ++ renderChild value ++ ";"
  | .returnStatement t value => literalOfToken t ++ " " ++ renderChild value ++ ";"
  | .expressionStatement _ expression => renderChild expression
  | .blockStatement _ statements => String.join (renderEach statements)
  | .bare _ t => literalOfToken t
  | .sequence items => bracketed (describeEach items)

/-- A child as source text, nothing when it is absent. -/
def renderChild : Option Node → String
  | none => ""
  | some n => n.render

/-- The alternative of a conditional, with the word before it. -/
def renderElse : Option Node → String
  | none => ""
  | some n => "else " ++ n.render

/-- Several nodes, each as source text. -/
def renderEach : List Node → List String
  | [] => []
  | n :: ns => n.render :: renderEach ns

/-- Several children, each as source text. -/
def renderChildren : List (Option Node) → List String
  | [] => []
  | n :: ns => renderChild n :: renderChildren ns

end

/-- The texts of several nodes are those of each by itself. -/
theorem renderEach_eq_map (ns : List Node) : renderEach ns = ns.map render := by
  induction ns with
  | nil => rfl
  | cons n ns ih => rw [renderEach, ih, List.map_cons]

/-- The texts of nodes some of which may be absent are those of each by itself. -/
theorem renderChildren_eq_map (ns : List (Option Node)) :
    renderChildren ns = ns.map renderChild := by
  induction ns with
  | nil => rfl
  | cons n ns ih => rw [renderChildren, ih, List.map_cons]

/-- Where none is absent, they are the texts of the nodes. -/
theorem renderChildren_map_some (ns : List Node) :
    renderChildren (ns.map some) = ns.map render := by
  rw [renderChildren_eq_map, List.map_map]
  rfl

end Pratt.Node
