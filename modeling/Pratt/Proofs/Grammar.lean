import Pratt.Node.Basic
import Pratt.Text.Numeral

/-!
# Pratt — the grammar

The language that the parser is for, by itself: which sequences of tokens are
programs, and which trees they have. `Derives a ts tree` says that the tokens
`ts` can be derived from the symbol `a` of the grammar, and that `tree` is the
tree of that derivation. Nothing here refers to the parser.

Expressions are stratified. A `Stratum` is made of operands of the next tighter
one, with its own operators between them; the leftmost operand may be of the
stratum itself, so operators of one stratum associate to the left:

    equality    a == b, a != b
    comparison  a < b, a > b
    sum         a + b, a - b
    product     a * b, a / b
    unary       !a, -a
    call        f(a, b)
    atom        names, numbers, truth values, groups, conditionals, functions

A statement may be closed by a semicolon. One that is not must not have a minus
or an opening parenthesis right behind it, which would be read as going on with
it.

An `Ending` is a remark on how an expression or a statement ends. It restricts
no derivation of an expression: whatever stands in a production as an expression
may end in any way.
-/

namespace Pratt

/-- The strata of expressions, the loosest first. -/
inductive Stratum where
  | equality | comparison | sum | product | unary | call | atom
  deriving DecidableEq, Repr

namespace Stratum

/-- The operators that a stratum puts between two operands. -/
def operators : Stratum → List Kind
  | .equality => [.equal, .notEqual]
  | .comparison => [.less, .greater]
  | .sum => [.plus, .minus]
  | .product => [.asterisk, .slash]
  | .unary | .call | .atom => []

/-- The next tighter stratum. -/
def next? : Stratum → Option Stratum
  | .equality => some .comparison
  | .comparison => some .sum
  | .sum => some .product
  | .product => some .unary
  | .unary => some .call
  | .call => some .atom
  | .atom => none

/-- No operator is an end of the input. -/
theorem eof_notMem_operators (c : Stratum) : Kind.eof ∉ c.operators := by
  cases c <;> decide

end Stratum

/-- How an expression or a statement ends. -/
inductive Ending where
  /-- With a conditional that has no alternative: an `else` right behind would be part of it. -/
  | conditional
  /-- With the semicolon that closes a statement. -/
  | semicolon
  | other
  deriving DecidableEq, Repr

/-- The symbols of the grammar. -/
inductive Symbol where
  | program
  | statements
  | statement (e : Ending)
  | block
  | expression (c : Stratum) (e : Ending)
  /-- What stands between the parentheses of a call. -/
  | arguments
  /-- One expression or several, with commas between them. -/
  | items
  /-- What stands between the parentheses of a function. -/
  | parameters
  /-- One name or several, with commas between them. -/
  | names

/-- What is made from the tokens of a symbol. -/
abbrev Symbol.Tree : Symbol → Type
  | .program | .statement _ | .block | .expression _ _ => Node
  | .statements | .arguments | .items | .parameters | .names => List Node

/-- The tokens can be derived from the symbol, and have the tree. -/
inductive Derives : (a : Symbol) → List Token → a.Tree → Prop where
  -- Programs and statements.
  | program {ts : List Token} {ns : List Node} (body : Derives .statements ts ns) :
      Derives .program ts (.program ns)
  | noStatements : Derives .statements [] []
  | moreStatements {ts us : List Token} {e : Ending} {n : Node} {ns : List Node}
      (first : Derives (.statement e) ts n) (later : Derives .statements us ns)
      (apart : e ≠ .semicolon → ∀ u ∈ us.head?, u.kind ≠ .minus ∧ u.kind ≠ .leftParen) :
      Derives .statements (ts ++ us) (n :: ns)
  | letStatement {t i s : Token} {ts : List Token} {e : Ending} {n : Node}
      (word : t.kind = .letWord) (name : i.kind = .ident) (sign : s.kind = .assign)
      (value : Derives (.expression .equality e) ts n) :
      Derives (.statement e) (t :: i :: s :: ts)
        (.letStatement t (some (.identifier i i.literal)) n)
  | returnStatement {t : Token} {ts : List Token} {e : Ending} {n : Node}
      (word : t.kind = .returnWord) (value : Derives (.expression .equality e) ts n) :
      Derives (.statement e) (t :: ts) (.returnStatement t n)
  | expressionStatement {t : Token} {ts : List Token} {e : Ending} {n : Node}
      (expression : Derives (.expression .equality e) (t :: ts) n) :
      Derives (.statement e) (t :: ts) (.expressionStatement t n)
  | closedStatement {s : Token} {ts : List Token} {e : Ending} {n : Node}
      (statement : Derives (.statement e) ts n) (unclosed : e ≠ .semicolon)
      (sign : s.kind = .semicolon) : Derives (.statement .semicolon) (ts ++ [s]) n
  | block {o o' : Token} {ts : List Token} {ns : List Node} (opening : o.kind = .leftBrace)
      (body : Derives .statements ts ns) (closing : o'.kind = .rightBrace) :
      Derives .block (o :: (ts ++ [o'])) (.blockStatement o ns)
  -- Expressions with operators, and calls.
  | loosened {ts : List Token} {c d : Stratum} {e : Ending} {n : Node}
      (tighter : c.next? = some d) (expression : Derives (.expression d e) ts n) :
      Derives (.expression c e) ts n
  | infixExpression {s : Token} {ts us : List Token} {c d : Stratum} {e e' : Ending} {l r : Node}
      (tighter : c.next? = some d) (left : Derives (.expression c e) ts l)
      (operator : s.kind ∈ c.operators) (right : Derives (.expression d e') us r) :
      Derives (.expression c e') (ts ++ s :: us) (.infixExpression s l s.literal r)
  | prefixExpression {s : Token} {ts : List Token} {e : Ending} {r : Node}
      (operator : s.kind ∈ Kind.prefixOperators) (right : Derives (.expression .unary e) ts r) :
      Derives (.expression .unary e) (s :: ts) (.prefixExpression s s.literal r)
  | callExpression {p p' : Token} {ts us : List Token} {e : Ending} {n : Node} {ns : List Node}
      (function : Derives (.expression .call e) ts n) (opening : p.kind = .leftParen)
      (arguments : Derives .arguments us ns) (closing : p'.kind = .rightParen) :
      Derives (.expression .call .other) (ts ++ p :: (us ++ [p']))
        (.callExpression p n (ns.map some))
  -- Atoms.
  | identifier {t : Token} (name : t.kind = .ident) :
      Derives (.expression .atom .other) [t] (.identifier t t.literal)
  | integerLiteral {t : Token} (number : t.kind = .int)
      (digits : Numeral.isNumeral t.literal.toList = true)
      (short : t.literal.toList.length ≤ Numeral.mostDigits)
      (small : Numeral.value t.literal.toList ≤ Numeral.greatest) :
      Derives (.expression .atom .other) [t] (.integerLiteral t (Numeral.value t.literal.toList))
  | trueWord {t : Token} (word : t.kind = .trueWord) :
      Derives (.expression .atom .other) [t] (.boolean t true)
  | falseWord {t : Token} (word : t.kind = .falseWord) :
      Derives (.expression .atom .other) [t] (.boolean t false)
  | group {p p' : Token} {ts : List Token} {e : Ending} {n : Node}
      (opening : p.kind = .leftParen) (inside : Derives (.expression .equality e) ts n)
      (closing : p'.kind = .rightParen) : Derives (.expression .atom .other) (p :: (ts ++ [p'])) n
  | conditional {w p p' : Token} {ts us : List Token} {e : Ending} {m l : Node}
      (word : w.kind = .ifWord) (opening : p.kind = .leftParen)
      (condition : Derives (.expression .equality e) ts l) (closing : p'.kind = .rightParen)
      (consequence : Derives .block us m) :
      Derives (.expression .atom .conditional) (w :: p :: (ts ++ p' :: us))
        (.ifExpression w l m none)
  | alternative {w w' p p' : Token} {ts us vs : List Token} {e : Ending} {m n l : Node}
      (word : w.kind = .ifWord) (opening : p.kind = .leftParen)
      (condition : Derives (.expression .equality e) ts l) (closing : p'.kind = .rightParen)
      (consequence : Derives .block us m) (otherwise : w'.kind = .elseWord)
      (alternative : Derives .block vs n) :
      Derives (.expression .atom .other) (w :: p :: (ts ++ p' :: (us ++ w' :: vs)))
        (.ifExpression w l m n)
  | functionLiteral {w p p' : Token} {ts us : List Token} {n : Node} {ns : List Node}
      (word : w.kind = .functionWord) (opening : p.kind = .leftParen)
      (parameters : Derives .parameters ts ns) (closing : p'.kind = .rightParen)
      (body : Derives .block us n) :
      Derives (.expression .atom .other) (w :: p :: (ts ++ p' :: us)) (.functionLiteral w ns n)
  -- Lists.
  | noArguments : Derives .arguments [] []
  | someArguments {ts : List Token} {ns : List Node} (items : Derives .items ts ns) :
      Derives .arguments ts ns
  | oneItem {ts : List Token} {e : Ending} {n : Node}
      (item : Derives (.expression .equality e) ts n) : Derives .items ts [n]
  | moreItems {s : Token} {ts us : List Token} {e : Ending} {n : Node} {ns : List Node}
      (first : Derives (.expression .equality e) ts n) (comma : s.kind = .comma)
      (later : Derives .items us ns) : Derives .items (ts ++ s :: us) (n :: ns)
  | noParameters : Derives .parameters [] []
  | someParameters {ts : List Token} {ns : List Node} (names : Derives .names ts ns) :
      Derives .parameters ts ns
  | oneName {t : Token} (name : t.kind = .ident) : Derives .names [t] [.identifier t t.literal]
  | moreNames {t s : Token} {us : List Token} {ns : List Node} (name : t.kind = .ident)
      (comma : s.kind = .comma) (later : Derives .names us ns) :
      Derives .names (t :: s :: us) (.identifier t t.literal :: ns)

namespace Derives

/-- No end of the input stands within what is derived. -/
theorem ne_eof {a : Symbol} {ts : List Token} {tree : a.Tree} (h : Derives a ts tree) :
    ∀ t ∈ ts, t.kind ≠ .eof := by
  -- an operator is looked up in a list that the end of the input is not in
  induction h with
  | noStatements => exact List.forall_mem_nil _
  | noArguments => exact List.forall_mem_nil _
  | noParameters => exact List.forall_mem_nil _
  | infixExpression _ _ operator _ ihl ihr =>
    have hs := ne_of_mem_of_not_mem operator (Stratum.eof_notMem_operators _)
    simp only [List.forall_mem_append, List.forall_mem_cons]
    exact ⟨ihl, hs, ihr⟩
  | prefixExpression operator _ ih =>
    have hs := ne_of_mem_of_not_mem operator (by decide : Kind.eof ∉ Kind.prefixOperators)
    exact List.forall_mem_cons.2 ⟨hs, ih⟩
  | _ => grind

end Derives

end Pratt
