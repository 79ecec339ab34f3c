import Pratt.Token.Kind

/-!
# Pratt — the rules of the grammar

`Rule` names the rules that the parser is made of. A `RuleTable` says which rule
is to be used at which token kind; a parser has two of them, one for the tokens
that start an expression and one for those that continue one. Rules can be
registered and removed for any kind, those of the language as well as foreign
ones. Each change concerns its own kind only: `find?_insert` and `find?_erase`.
-/

namespace Pratt

/-- A rule of the grammar. -/
inductive Rule where
  | program | statement | letStatement | returnStatement | expressionStatement | blockStatement
  | expression | identifier | integerLiteral | boolean | prefixExpression | infixExpression
  | groupedExpression | ifExpression | functionLiteral | functionParameters | callExpression
  | expressionList
  deriving DecidableEq, Repr

namespace Rule

/-- The name by which a trace calls a rule. -/
def name : Rule → String
  | .program => "parse_program"
  | .statement => "parse_statement"
  | .letStatement => "parse_let_statement"
  | .returnStatement => "parse_return_statement"
  | .expressionStatement => "parse_expression_statement"
  | .blockStatement => "parse_block_statement"
  | .expression => "parse_expression"
  | .identifier => "parse_identifier"
  | .integerLiteral => "parse_integer_literal"
  | .boolean => "parse_boolean"
  | .prefixExpression => "parse_prefix_expression"
  | .infixExpression => "parse_infix_expression"
  | .groupedExpression => "parse_grouped_expression"
  | .ifExpression => "parse_if_expression"
  | .functionLiteral => "parse_function_literal"
  | .functionParameters => "parse_function_parameters"
  | .callExpression => "parse_call_expression"
  | .expressionList => "parse_expression_list"

/-- All rules. -/
def all : List Rule :=
  [.program, .statement, .letStatement, .returnStatement, .expressionStatement, .blockStatement,
   .expression, .identifier, .integerLiteral, .boolean, .prefixExpression, .infixExpression,
   .groupedExpression, .ifExpression, .functionLiteral, .functionParameters, .callExpression,
   .expressionList]

/-- The rule of a name. -/
def ofName? (label : String) : Option Rule :=
  all.find? (·.name = label)

/-- Whether a trace shows the rule. The rules of a single token, the lists and the program as a
whole are left out. -/
def isTraced : Rule → Bool
  | .program | .identifier | .boolean | .functionParameters | .expressionList => false
  | _ => true

/-- What a rule has to be given besides the state of the parser. -/
def argument? : Rule → Option String
  | .expression => some "precedence"
  | .infixExpression => some "left"
  | .callExpression => some "function"
  | .expressionList => some "end"
  | _ => none

end Rule

/-- Which rule is to be used at which kind. -/
structure RuleTable where
  entries : List (Kind × Rule)

namespace RuleTable

/-- The rule to be used at a kind. -/
def find? (t : RuleTable) (k : Kind) : Option Rule :=
  t.entries.lookup k

/-- The table without an entry for a kind. -/
def erase (t : RuleTable) (k : Kind) : RuleTable :=
  ⟨t.entries.filter (·.1 ≠ k)⟩

/-- The table with a rule for a kind, in place of any other. -/
def insert (t : RuleTable) (k : Kind) (r : Rule) : RuleTable :=
  ⟨(k, r) :: (t.erase k).entries⟩

/-- The names of the kinds that have a rule, in the order of their code points. -/
def kindNames (t : RuleTable) : List String :=
  (t.entries.map (·.1.name)).mergeSort fun a b => decide (a ≤ b)

/-- The rules for the tokens that start an expression. -/
def starting : RuleTable :=
  ⟨[(.ident, .identifier), (.int, .integerLiteral), (.trueWord, .boolean),
    (.falseWord, .boolean), (.leftParen, .groupedExpression), (.ifWord, .ifExpression),
    (.functionWord, .functionLiteral)] ++ Kind.prefixOperators.map (·, .prefixExpression)⟩

/-- The rules for the tokens that continue an expression. -/
def continuing : RuleTable :=
  ⟨Kind.infixOperators.map (·, .infixExpression) ++ [(.leftParen, .callExpression)]⟩

/-! ## Each change concerns its own kind -/

/-- Without the entries for a kind, the look-up of that kind finds nothing and all others find what
they did. -/
theorem lookup_filter_ne (entries : List (Kind × Rule)) (j k : Kind) :
    (entries.filter (·.1 ≠ k)).lookup j = if j = k then none else entries.lookup j := by
  induction entries with
  | nil => simp
  | cons e entries ih =>
    obtain ⟨i, r⟩ := e
    by_cases hi : i = k
    · -- The entry goes, and it was for the kind in question.
      rw [List.filter_cons_of_neg (by simp [hi]), ih, List.lookup_cons]
      by_cases hj : j = k
      · simp [hj]
      · have other : (j == i) = false := beq_eq_false_iff_ne.2 (hi ▸ hj)
        simp [hj, other]
    · rw [List.filter_cons_of_pos (by simp [hi]), List.lookup_cons, List.lookup_cons, ih]
      by_cases hj : j = i
      · subst hj
        simp [hi]
      · simp [beq_eq_false_iff_ne.2 hj]

/-- Removing a rule concerns its own kind. -/
theorem find?_erase (t : RuleTable) (j k : Kind) :
    (t.erase k).find? j = if j = k then none else t.find? j :=
  lookup_filter_ne t.entries j k

/-- Registering a rule concerns its own kind, and replaces the rule that was there. -/
theorem find?_insert (t : RuleTable) (j k : Kind) (r : Rule) :
    (t.insert k r).find? j = if j = k then some r else t.find? j := by
  show List.lookup j ((k, r) :: (t.erase k).entries) = _
  rw [List.lookup_cons]
  by_cases hj : j = k
  · simp [hj]
  · have erased := find?_erase t j k
    rw [if_neg hj] at erased ⊢
    rw [beq_eq_false_iff_ne.2 hj]
    exact erased

end RuleTable

end Pratt
