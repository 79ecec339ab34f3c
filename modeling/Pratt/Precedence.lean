import Pratt.Token.Kind

/-!
# Pratt — how tightly operators bind

Each token kind has a `Precedence`, and each precedence a level. A kind that
continues no expression has the lowest. An expression read with a bound goes on
as long as the kind ahead has a level above the bound, so of two operators the
one of the higher level takes the operand between them, and of two of the same
level the left one.

Bounds are integers: besides the seven levels, any other number may be asked
for.
-/

namespace Pratt

/-- The precedences, loosest first. -/
inductive Precedence where
  | lowest | equals | lessGreater | sum | product | unary | call
  deriving DecidableEq, Repr

namespace Precedence

/-- The level of a precedence. -/
def level : Precedence → Int
  | .lowest => 1
  | .equals => 2
  | .lessGreater => 3
  | .sum => 4
  | .product => 5
  | .unary => 6
  | .call => 7

/-- The name of a precedence. -/
def name : Precedence → String
  | .lowest => "LOWEST"
  | .equals => "EQUALS"
  | .lessGreater => "LESSGREATER"
  | .sum => "SUM"
  | .product => "PRODUCT"
  | .unary => "PREFIX"
  | .call => "CALL"

/-- The precedences, loosest first. -/
def all : List Precedence :=
  [.lowest, .equals, .lessGreater, .sum, .product, .unary, .call]

/-- The loosest bound that the rules give is level one, and no level is below it. -/
theorem one_le_level (p : Precedence) : 1 ≤ p.level := by
  cases p <;> decide

theorem level_le_seven (p : Precedence) : p.level ≤ 7 := by
  cases p <;> decide

end Precedence

namespace Kind

/-- How tightly a kind binds what stands before it. -/
def precedence : Kind → Precedence
  | .equal | .notEqual => .equals
  | .less | .greater => .lessGreater
  | .plus | .minus => .sum
  | .slash | .asterisk => .product
  | .leftParen => .call
  | _ => .lowest

/-- The level of a kind's precedence. -/
def level (k : Kind) : Int := k.precedence.level

/-- The kinds that can continue an expression. -/
def binding : List Kind :=
  all.filter (·.precedence ≠ .lowest)

end Kind

end Pratt
