import Pratt.Node.Basic

/-!
# Pratt — walking over a tree

`Node.walk` lists a tree and everything below it, each node before its children
and the children in the order in which the node holds them. Absent children are
left out, and a sequence is not listed itself, only what is in it.
-/

namespace Pratt.Node

mutual

/-- The node and all nodes below it, parents first. -/
def walk : Node → List Node
  | n@(.program statements) => n :: walkEach statements
  | n@(.identifier _ _) => [n]
  | n@(.integerLiteral _ _) => [n]
  | n@(.boolean _ _) => [n]
  | n@(.prefixExpression _ _ right) => n :: walkChild right
  | n@(.infixExpression _ left _ right) => n :: (walkChild left ++ walkChild right)
  | n@(.ifExpression _ condition consequence alternative) =>
    n :: (walkChild condition ++ walkChild consequence ++ walkChild alternative)
  | n@(.functionLiteral _ parameters body) => n :: (walkEach parameters ++ walkChild body)
  | n@(.callExpression _ function arguments) => n :: (walkChild function ++ walkChildren arguments)
  | n@(.letStatement _ name value) => n :: (walkChild name ++ walkChild value)
  | n@(.returnStatement _ value) => n :: walkChild value
  | n@(.expressionStatement _ expression) => n :: walkChild expression
  | n@(.blockStatement _ statements) => n :: walkEach statements
  | n@(.bare _ _) => [n]
  | .sequence items => walkEach items

/-- A child and all nodes below it. -/
def walkChild : Option Node → List Node
  | none => []
  | some n => n.walk

/-- Several nodes and all nodes below them. -/
def walkEach : List Node → List Node
  | [] => []
  | n :: ns => n.walk ++ walkEach ns

/-- Several children and all nodes below them. -/
def walkChildren : List (Option Node) → List Node
  | [] => []
  | n :: ns => walkChild n ++ walkChildren ns

end

/-- What is walked of a child that may be absent is in the child, if there is one. -/
theorem mem_walkChild {m : Node} {v : Option Node} : m ∈ walkChild v ↔ ∃ n ∈ v, m ∈ n.walk := by
  cases v <;> simp [walkChild]

/-- What is walked of several nodes is in one of them. -/
theorem mem_walkEach {m : Node} {ns : List Node} :
    m ∈ walkEach ns ↔ ∃ n ∈ ns, m ∈ n.walk := by
  induction ns with
  | nil => simp [walkEach]
  | cons n ns ih => simp [walkEach, ih]

/-- Children none of which is absent are walked as the nodes are. -/
theorem walkChildren_map_some (ns : List Node) : walkChildren (ns.map some) = walkEach ns := by
  induction ns with
  | nil => rfl
  | cons n ns ih => rw [List.map_cons, walkChildren, walkEach, ih, walkChild]

end Pratt.Node
