import Pratt.Node.Basic

/-!
# Pratt — equality of trees

Two trees are the same when they have the same kinds of nodes with the same
content throughout. The tokens that the nodes were made from do not count, so
neither do locations, spellings of a number, or redundant parentheses.
-/

namespace Pratt.Node

mutual

/-- Whether two trees are the same, whatever tokens they were made from. -/
def same : Node → Node → Bool
  | .program ss, .program ts => sameEach ss ts
  | .identifier _ v, .identifier _ w => v == w
  | .integerLiteral _ v, .integerLiteral _ w => v == w
  | .boolean _ v, .boolean _ w => v == w
  | .prefixExpression _ o r, .prefixExpression _ p s => o == p && sameChild r s
  | .infixExpression _ l o r, .infixExpression _ m p s =>
    sameChild l m && o == p && sameChild r s
  | .ifExpression _ a b c, .ifExpression _ d e f =>
    sameChild a d && sameChild b e && sameChild c f
  | .functionLiteral _ ps b, .functionLiteral _ qs c => sameEach ps qs && sameChild b c
  | .callExpression _ f as, .callExpression _ g bs => sameChild f g && sameChildren as bs
  | .letStatement _ n v, .letStatement _ m w => sameChild n m && sameChild v w
  | .returnStatement _ v, .returnStatement _ w => sameChild v w
  | .expressionStatement _ e, .expressionStatement _ f => sameChild e f
  | .blockStatement _ ss, .blockStatement _ ts => sameEach ss ts
  | .bare f _, .bare g _ => f == g
  | .sequence ms, .sequence ns => sameEach ms ns
  | _, _ => false

/-- Whether two children are the same; an absent one is the same as an absent one only. -/
def sameChild : Option Node → Option Node → Bool
  | none, none => true
  | some m, some n => m.same n
  | _, _ => false

/-- Whether two lists hold the same nodes in the same order. -/
def sameEach : List Node → List Node → Bool
  | [], [] => true
  | m :: ms, n :: ns => m.same n && sameEach ms ns
  | _, _ => false

/-- Whether two lists hold the same children in the same order. -/
def sameChildren : List (Option Node) → List (Option Node) → Bool
  | [], [] => true
  | m :: ms, n :: ns => sameChild m n && sameChildren ms ns
  | _, _ => false

end

instance : BEq Node := ⟨same⟩

theorem beq_eq_same (m n : Node) : (m == n) = m.same n := rfl

end Pratt.Node
