import Pratt.Node.Walk
import Pratt.Proofs.Fuel

/-!
# Pratt — the shape of a tree

What a parser gives is a tree of a certain shape, whether or not it found anything wrong on the way.
`Shaped` says which node stands where, what its token is, and what it is made of. It is close to the
grammar, but leaves open which tokens stood between those of the tree and whether the value of a
statement is there.

Each rule gives such a tree if the goals that it leads to do (`Goal.Shapes`, and a lemma for each
rule in `Parse.GivesShapes`), so a run does (`Parse.givesShapes_run`), and a parsed program is a
list of such statements (`shaped_of_parseProgram`). What holds of each node by itself, given its shape, follows by induction
on the shape: that it lacks nothing but the parts a tree can do without (`Shaped.furnished`).
-/

namespace Pratt

/-! ## Shapes -/

/-- What stands somewhere in a tree. -/
inductive Place where
  | expression
  /-- A statement in a list that ends at a token of the kind `closer`. -/
  | statement (closer : Kind)
  | block

/-- The node is of the shape of what stands in the place. -/
inductive Shaped : Place → Node → Prop where
  | letStatement {closer : Kind} {word name : Token} {value : Option Node}
    (isWord : word.kind = .letWord) (isName : name.kind = .ident)
    (inside : ∀ n ∈ value, Shaped .expression n) :
    Shaped (.statement closer) (.letStatement word (some (.identifier name name.literal)) value)
  | returnStatement {closer : Kind} {word : Token} {value : Option Node}
    (isWord : word.kind = .returnWord) (inside : ∀ n ∈ value, Shaped .expression n) :
    Shaped (.statement closer) (.returnStatement word value)
  | expressionStatement {closer : Kind} {first : Token} {expression : Option Node}
    (starts : first.kind ∉ [Kind.letWord, .returnWord, .eof, closer])
    (inside : ∀ n ∈ expression, Shaped .expression n) :
    Shaped (.statement closer) (.expressionStatement first expression)
  | blockStatement {brace : Token} {statements : List Node} (isBrace : brace.kind = .leftBrace)
    (inside : ∀ n ∈ statements, Shaped (.statement .rightBrace) n) :
    Shaped .block (.blockStatement brace statements)
  | identifier {name : Token} (isName : name.kind = .ident) :
    Shaped .expression (.identifier name name.literal)
  | integerLiteral {number : Token} {value : Int} (isNumber : number.kind = .int)
    (reads : Numeral.read number.literal.toList = .integer value) :
    Shaped .expression (.integerLiteral number value)
  | boolean {word : Token} (isWord : word.kind = .trueWord ∨ word.kind = .falseWord) :
    Shaped .expression (.boolean word (word.kind = .trueWord))
  | prefixExpression {operator : Token} {right : Node}
    (isOperator : operator.kind ∈ Kind.prefixOperators) (operand : Shaped .expression right) :
    Shaped .expression (.prefixExpression operator operator.literal (some right))
  | infixExpression {operator : Token} {left right : Node}
    (isOperator : operator.kind ∈ Kind.infixOperators) (before : Shaped .expression left)
    (behind : Shaped .expression right) :
    Shaped .expression (.infixExpression operator (some left) operator.literal (some right))
  | ifExpression {word : Token} {condition consequence : Node} {alternative : Option Node}
    (isWord : word.kind = .ifWord) (asked : Shaped .expression condition)
    (first : Shaped .block consequence) (second : ∀ n ∈ alternative, Shaped .block n) :
    Shaped .expression (.ifExpression word (some condition) (some consequence) alternative)
  | functionLiteral {word : Token} {parameters : List Token} {body : Node}
    (isWord : word.kind = .functionWord) (areNames : ∀ t ∈ parameters, t.kind = .ident)
    (inside : Shaped .block body) :
    Shaped .expression
      (.functionLiteral word (parameters.map fun (t : Token) => .identifier t t.literal) (some body))
  | callExpression {opening : Token} {function : Node} {arguments : List Node}
    (opens : opening.kind = .leftParen) (called : Shaped .expression function)
    (given : ∀ n ∈ arguments, Shaped .expression n) :
    Shaped .expression (.callExpression opening (some function) (arguments.map some))

/-- The nodes are names as parameters are. -/
def AreParameters (ns : List Node) : Prop :=
  ∃ names : List Token, (∀ t ∈ names, t.kind = .ident) ∧
    ns = names.map fun (t : Token) => .identifier t t.literal

/-- A further name in front makes a further parameter. -/
theorem AreParameters.cons {name : Token} {ns : List Node} (hname : name.kind = .ident)
    (h : AreParameters ns) : AreParameters (.identifier name name.literal :: ns) := by
  obtain ⟨names, hnames, rfl⟩ := h
  exact ⟨name :: names, List.forall_mem_cons.2 ⟨hname, hnames⟩, rfl⟩

/-- All elements are present where a list of them is. -/
theorem eq_map_some_of_mapM_id {α : Type} {vs : List (Option α)} {as : List α}
    (h : vs.mapM id = some as) : vs = as.map some := by
  induction vs generalizing as with
  | nil =>
    cases h
    rfl
  | cons v vs ih =>
    rw [List.mapM_cons] at h
    obtain ⟨a, ha, h⟩ := Option.bind_eq_some_iff.1 h
    obtain ⟨later, hlater, h⟩ := Option.bind_eq_some_iff.1 h
    cases h
    rw [show v = some a from ha, ih hlater]
    rfl

/-! ## What the goals give -/

namespace Goal

variable {σ : Type}

/-- The goal is pursued on a token that its rule is for, and what it goes on from has the right
shape. -/
def Begins (x : View σ) : Goal → Prop
  | .letStatement => x.current.kind = .letWord
  | .returnStatement => x.current.kind = .returnWord
  | .expressionStatement => x.current.kind ≠ .letWord ∧ x.current.kind ≠ .returnWord
  | .blockStatement => x.current.kind = .leftBrace
  | .identifier => x.current.kind = .ident
  | .integerLiteral => x.current.kind = .int
  | .boolean => x.current.kind = .trueWord ∨ x.current.kind = .falseWord
  | .prefixExpression => x.current.kind ∈ Kind.prefixOperators
  | .ifExpression => x.current.kind = .ifWord
  | .functionLiteral => x.current.kind = .functionWord
  | .infixExpression left =>
    x.current.kind ∈ Kind.infixOperators ∧ ∃ n, left = some n ∧ Shaped .expression n
  | .callExpression function =>
    x.current.kind = .leftParen ∧ ∃ n, function = some n ∧ Shaped .expression n
  | .continuation _ left => Shaped .expression left
  | _ => True

/-- What the goal gives, pursued from the view `x`, is of the shape of what it is asked for. -/
def Shapes (x : View σ) : (g : Goal) → g.Result → Prop
  | .program, tree => ∃ ns, tree = .program ns ∧ ∀ n ∈ ns, Shaped (.statement .eof) n
  | .statements closer, ns => ∀ n ∈ ns, Shaped (.statement closer) n
  | .statement, v | .letStatement, v =>
    ∀ closer, x.current.kind ∉ [Kind.eof, closer] → ∀ n ∈ v, Shaped (.statement closer) n
  | .returnStatement, n | .expressionStatement, n =>
    ∀ closer, x.current.kind ∉ [Kind.eof, closer] → Shaped (.statement closer) n
  | .blockStatement, v => ∀ n ∈ v, Shaped .block n
  | .identifier, n | .boolean, n => Shaped .expression n
  | .expression _, v | .integerLiteral, v | .prefixExpression, v | .infixExpression _, v
  | .groupedExpression, v | .ifExpression, v | .functionLiteral, v | .callExpression _, v
  | .continuation _ _, v => ∀ n ∈ v, Shaped .expression n
  | .functionParameters, v | .parameters, v => ∀ ns ∈ v, AreParameters ns
  | .expressionList _, v => ∀ ns ∈ v, ∀ n ∈ ns, Shaped .expression n
  | .expressions, vs => ∀ v ∈ vs, ∀ n ∈ v, Shaped .expression n
  | .recovery _, _ => True

end Goal

namespace Parse

variable {σ : Type} [TokenSource σ]

/-- What these goals give is of the shape of what is asked for, where they are pursued on a token
that their rule is for. -/
def GivesShapes (p : Recur σ) : Prop :=
  ∀ (g : Goal) (x : View σ), g.Begins x → Ensures (p g) x (fun v _ => g.Shapes x v) fun _ _ => True

namespace GivesShapes

variable {p : Recur σ} (sub : GivesShapes p) {x : View σ}
include sub

/-! ### Statements -/

omit [TokenSource σ] in
/-- A program is what its statements are. -/
theorem program :
    Ensures (Parse.program p) x (fun n _ => Goal.program.Shapes x n) fun _ _ => True :=
  ensures_program ((sub (.statements .eof) x trivial).imp_result fun ns _ hns => ⟨ns, rfl, hns⟩)

omit [TokenSource σ] in
/-- Which statement it is depends on the word that it starts with. -/
theorem statement :
    Ensures (Parse.statement p) x (fun v _ => Goal.statement.Shapes x v) fun _ _ => True := by
  refine ensures_statement (fun hk => sub .letStatement x hk) (fun hk => ?_) fun hlet hreturn => ?_
  · refine (sub .returnStatement x hk).imp_result fun n _ hn closer hopen m hm => ?_
    cases hm
    exact hn closer hopen
  · refine (sub .expressionStatement x ⟨hlet, hreturn⟩).imp_result
      fun n _ hn closer hopen m hm => ?_
    cases hm
    exact hn closer hopen

/-- A `let` that is given has its name; its value may be absent. -/
theorem letStatement (hword : x.current.kind = .letWord) :
    Ensures (Parse.letStatement p) x (fun v _ => Goal.letStatement.Shapes x v)
      fun _ _ => True := by
  refine ensures_letStatement (fun _ => nofun) (fun _ _ => nofun) fun hname _ => ?_
  refine (sub (.expression 1) _ trivial).imp_result fun v _ hv closer _ n hn => ?_
  cases hn
  exact .letStatement hword hname hv

/-- A `return` is given whatever comes of its value. -/
theorem returnStatement (hword : x.current.kind = .returnWord) :
    Ensures (Parse.returnStatement p) x (fun n _ => Goal.returnStatement.Shapes x n)
      fun _ _ => True :=
  ensures_returnStatement ((sub (.expression 1) _ trivial).imp_result
    fun _ _ hv _ _ => .returnStatement hword hv)

/-- A statement that is neither of the two starts with the token that its expression starts with. -/
theorem expressionStatement (hlet : x.current.kind ≠ .letWord)
    (hreturn : x.current.kind ≠ .returnWord) :
    Ensures (Parse.expressionStatement p) x (fun n _ => Goal.expressionStatement.Shapes x n)
      fun _ _ => True := by
  refine ensures_expressionStatement
    ((sub (.expression 1) _ trivial).imp_result fun v _ hv closer hopen => ?_)
  refine .expressionStatement ?_ hv
  simp_all

omit [TokenSource σ] in
/-- A block that is asked for where its brace stands is one, if it is given at all. -/
theorem block {y : View σ} (hbrace : y.current.kind = .leftBrace) :
    Ensures (p .blockStatement) y (fun v _ => ∀ n ∈ v, Shaped .block n) fun _ _ => True :=
  sub .blockStatement y hbrace

/-- There is no block but one that is closed. -/
theorem blockStatement (hbrace : x.current.kind = .leftBrace) :
    Ensures (Parse.blockStatement p) x (fun v _ => ∀ n ∈ v, Shaped .block n)
      fun _ _ => True := by
  refine ensures_blockStatement ((sub (.statements .rightBrace) _ trivial).imp_result
    fun ns _ hns => ⟨fun _ => nofun, fun _ n hn => ?_⟩)
  cases hn
  exact .blockStatement hbrace hns

/-- A statement of a list does not start with what closes the list. -/
theorem statements (closer : Kind) :
    Ensures (Parse.statements p closer) x (fun ns _ => ∀ n ∈ ns, Shaped (.statement closer) n)
      fun _ _ => True := by
  refine ensures_statements (fun _ => nofun) fun hopen => ?_
  refine (sub .statement x trivial).imp_result fun v y hv => ⟨fun n hn => ?_, fun _ => ?_⟩
  · refine (sub (.statements closer) _ trivial).imp_result fun ns _ hns => ?_
    exact List.forall_mem_cons.2 ⟨hv closer (by simp_all) n hn, hns⟩
  · exact (sub (.recovery 0) y trivial).imp_result fun _ z _ => sub (.statements closer) _ trivial

theorem recovery (depth : Nat) :
    Ensures (Parse.recovery p depth) x (fun _ _ => True) fun _ _ => True :=
  ensures_recovery (fun _ => trivial) fun _ _ _ => sub (.recovery _) _ trivial

/-! ### Expressions -/

omit [TokenSource σ] in
/-- Each rule is used on a token that it is for, as the table of starting rules has it. -/
theorem operand :
    Ensures (Parse.operand p) x (fun v _ => ∀ n ∈ v, Shaped .expression n) fun _ _ => True := by
  refine ensures_operand (fun _ => nofun) (fun hk => ?_) (fun hk => sub .integerLiteral x hk)
    (fun hk => ?_) (fun hk => sub .prefixExpression x hk) (fun _ => sub .groupedExpression x trivial)
    (fun hk => sub .ifExpression x hk) fun hk => sub .functionLiteral x hk
  · refine (sub .identifier x hk).imp_result fun n _ hn m hm => ?_
    cases hm
    exact hn
  · refine (sub .boolean x hk).imp_result fun n _ hn m hm => ?_
    cases hm
    exact hn

omit [TokenSource σ] in
/-- What an operand goes on with keeps its shape. -/
theorem goesOn (bound : Int) (v : Option Node) (y : View σ) (hv : ∀ n ∈ v, Shaped .expression n) :
    (v = none → ∀ n ∈ (none : Option Node), Shaped .expression n) ∧ ∀ left, v = some left →
      Ensures (p (.continuation bound left)) y (fun v _ => ∀ n ∈ v, Shaped .expression n)
        fun _ _ => True :=
  ⟨fun _ => nofun, fun left hleft => sub (.continuation bound left) y (hv left hleft)⟩

omit [TokenSource σ] in
/-- An operand goes on, or is not there. -/
theorem expression (bound : Int) :
    Ensures (Parse.expression p bound) x (fun v _ => ∀ n ∈ v, Shaped .expression n)
      fun _ _ => True :=
  ensures_expression (sub.operand.imp_result (sub.goesOn bound))

/-- Each turn makes a larger expression of the left part. -/
theorem continuation (bound : Int) {left : Node} (hleft : Shaped .expression left) :
    Ensures (Parse.continuation p bound left) x (fun v _ => ∀ n ∈ v, Shaped .expression n)
      fun _ _ => True := by
  refine ensures_continuation (fun _ n hn => ?_) (fun hk _ => ?_) fun hk _ => ?_
  · cases hn
    exact hleft
  · exact (sub (.infixExpression left) _ ⟨hk, left, rfl, hleft⟩).imp_result (sub.goesOn bound)
  · exact (sub (.callExpression left) _ ⟨hk, left, rfl, hleft⟩).imp_result (sub.goesOn bound)

omit [TokenSource σ] sub in
/-- A literal is a node only if it can be read. -/
theorem integerLiteral (hk : x.current.kind = .int) :
    Ensures Parse.integerLiteral x (fun v _ => ∀ n ∈ v, Shaped .expression n)
      fun _ _ => True := by
  refine ensures_integerLiteral (fun value hvalue n hn => ?_) (fun _ _ => trivial) fun _ => nofun
  cases hn
  exact .integerLiteral hk hvalue

/-- There is no prefix expression without its operand. -/
theorem prefixExpression (hk : x.current.kind ∈ Kind.prefixOperators) :
    Ensures (Parse.prefixExpression p) x (fun v _ => ∀ n ∈ v, Shaped .expression n)
      fun _ _ => True := by
  refine ensures_prefixExpression
    ((sub (.expression 6) _ trivial).imp_result fun v _ hv n hn => ?_)
  obtain ⟨right, hright, rfl⟩ := Option.map_eq_some_iff.1 hn
  exact .prefixExpression hk (hv right hright)

/-- There is no infix expression without its right operand, and its left one is the left part. -/
theorem infixExpression (hk : x.current.kind ∈ Kind.infixOperators) {left : Node}
    (hleft : Shaped .expression left) :
    Ensures (Parse.infixExpression p left) x (fun v _ => ∀ n ∈ v, Shaped .expression n)
      fun _ _ => True := by
  refine ensures_infixExpression
    ((sub (.expression _) _ trivial).imp_result fun v _ hv n hn => ?_)
  obtain ⟨right, hright, rfl⟩ := Option.map_eq_some_iff.1 hn
  exact .infixExpression hk hleft (hv right hright)

/-- A group makes no node of its own. -/
theorem groupedExpression :
    Ensures (Parse.groupedExpression p) x (fun v _ => ∀ n ∈ v, Shaped .expression n)
      fun _ _ => True :=
  ensures_groupedExpression ((sub (.expression 1) _ trivial).imp_result
    fun _ _ hv => ⟨fun _ => hv, fun _ => nofun⟩)

/-- An alternative that could not be parsed is not one that is absent. -/
theorem alternative :
    Ensures (Parse.alternative p) x (fun a _ => ∀ o ∈ a, ∀ n ∈ o, Shaped .block n)
      fun _ _ => True := by
  refine ensures_alternative (fun _ o ho => ?_) (fun _ _ => nofun) fun _ hbrace => ?_
  · cases ho
    nofun
  · refine (sub.block hbrace).imp_result fun v _ hv o ho n hn => ?_
    obtain ⟨m, hm, rfl⟩ := Option.map_eq_some_iff.1 ho
    cases hn
    exact hv _ hm

/-- There is no conditional without a condition or a first block. -/
theorem ifExpression (hword : x.current.kind = .ifWord) :
    Ensures (Parse.ifExpression p) x (fun v _ => ∀ n ∈ v, Shaped .expression n)
      fun _ _ => True := by
  refine ensures_ifExpression (fun _ => nofun) fun _ => ?_
  refine (sub (.expression 1) _ trivial).imp_result fun c _ hc => ?_
  refine ⟨fun _ => nofun, fun _ _ => nofun, fun _ hbrace => ?_⟩
  refine (sub.block hbrace).imp_result
    fun b _ hb => ⟨fun _ => nofun, fun consequence hfirst => ?_⟩
  refine sub.alternative.imp_result fun a _ ha n hn => ?_
  obtain ⟨o, ho, hn⟩ := Option.bind_eq_some_iff.1 hn
  obtain ⟨condition, hcondition, rfl⟩ := Option.map_eq_some_iff.1 hn
  exact .ifExpression hword (hc condition hcondition) (hb consequence hfirst) (ha o ho)

/-- There is no function without its parameters and its body. -/
theorem functionLiteral (hword : x.current.kind = .functionWord) :
    Ensures (Parse.functionLiteral p) x (fun v _ => ∀ n ∈ v, Shaped .expression n)
      fun _ _ => True := by
  refine ensures_functionLiteral (fun _ => nofun) fun _ => ?_
  refine (sub .functionParameters _ trivial).imp_result fun ps _ hps => ?_
  refine ⟨fun _ => nofun, fun _ _ _ => nofun, fun ns hns hbrace => ?_⟩
  refine (sub.block hbrace).imp_result fun b _ hb n hn => ?_
  obtain ⟨body, hbody, rfl⟩ := Option.map_eq_some_iff.1 hn
  obtain ⟨names, hnames, rfl⟩ := hps ns hns
  exact .functionLiteral hword hnames (hb body hbody)

/-- A list that is closed at once is empty. -/
theorem functionParameters :
    Ensures (Parse.functionParameters p) x (fun v _ => ∀ ns ∈ v, AreParameters ns)
      fun _ _ => True := by
  refine ensures_functionParameters (fun _ ns hns => ?_) fun _ => sub .parameters x trivial
  cases hns
  exact ⟨[], nofun, rfl⟩

/-- Parameters are given only if all of them are names. -/
theorem parameters :
    Ensures (Parse.parameters p) x (fun v _ => ∀ ns ∈ v, AreParameters ns) fun _ _ => True := by
  refine ensures_parameters (fun _ => nofun) (fun hname _ => ?_) (fun hname _ ns hns => ?_)
    fun _ _ _ => nofun
  · refine (sub .parameters _ trivial).imp_result fun v _ hv ns hns => ?_
    obtain ⟨later, hlater, rfl⟩ := Option.map_eq_some_iff.1 hns
    exact (hv later hlater).cons hname
  · cases hns
    exact AreParameters.cons hname ⟨[], nofun, rfl⟩

omit [TokenSource σ] in
/-- There is no call without all of its arguments. -/
theorem callExpression (hk : x.current.kind = .leftParen) {function : Node}
    (hfunction : Shaped .expression function) :
    Ensures (Parse.callExpression p function) x (fun v _ => ∀ n ∈ v, Shaped .expression n)
      fun _ _ => True := by
  refine ensures_callExpression
    ((sub (.expressionList .rightParen) x trivial).imp_result fun v _ hv n hn => ?_)
  obtain ⟨as, has, rfl⟩ := Option.map_eq_some_iff.1 hn
  exact .callExpression hk hfunction (hv as has)

/-- A list that is given has all of its items. -/
theorem expressionList (closing : Kind) :
    Ensures (Parse.expressionList p closing) x (fun v _ => ∀ ns ∈ v, ∀ n ∈ ns, Shaped .expression n)
      fun _ _ => True := by
  refine ensures_expressionList (fun _ ns hns => ?_) fun _ => ?_
  · cases hns
    nofun
  refine (sub .expressions _ trivial).imp_result
    fun vs _ hvs => ⟨fun _ ns hns => ?_, fun _ => nofun⟩
  intro n hn
  refine hvs (some n) ?_ n rfl
  rw [eq_map_some_of_mapM_id hns]
  exact List.mem_map_of_mem hn

/-- The items of a list are each an expression or absent. -/
theorem expressions :
    Ensures (Parse.expressions p) x (fun vs _ => ∀ v ∈ vs, ∀ n ∈ v, Shaped .expression n)
      fun _ _ => True := by
  refine ensures_expressions
    ((sub (.expression 1) _ trivial).imp_result fun v y hv => ⟨fun _ => ?_, fun _ => ?_⟩)
  · exact (sub .expressions _ trivial).imp_result fun vs _ hvs => List.forall_mem_cons.2 ⟨hv, hvs⟩
  · exact List.forall_mem_cons.2 ⟨hv, nofun⟩

/-- Every rule gives the shape that it is asked for, if the goals that it leads to do. -/
theorem step (g : Goal) (hg : g.Begins x) :
    Ensures (Parse.step p g) x (fun v _ => g.Shapes x v) fun _ _ => True := by
  cases g with
  | program => exact sub.program
  | statement => exact sub.statement
  | letStatement => exact sub.letStatement hg
  | returnStatement => exact sub.returnStatement hg
  | expressionStatement => exact sub.expressionStatement hg.1 hg.2
  | blockStatement => exact sub.blockStatement hg
  | statements closer => exact sub.statements closer
  | recovery depth => exact sub.recovery depth
  | expression bound => exact sub.expression bound
  | continuation bound left => exact sub.continuation bound hg
  | identifier => exact ensures_identifier (.identifier hg)
  | integerLiteral => exact integerLiteral hg
  | boolean => exact ensures_boolean (.boolean hg)
  | prefixExpression => exact sub.prefixExpression hg
  | infixExpression left =>
    obtain ⟨hk, left, rfl, hleft⟩ := hg
    exact sub.infixExpression hk hleft
  | groupedExpression => exact sub.groupedExpression
  | ifExpression => exact sub.ifExpression hg
  | functionLiteral => exact sub.functionLiteral hg
  | functionParameters => exact sub.functionParameters
  | parameters => exact sub.parameters
  | callExpression function =>
    obtain ⟨hk, function, rfl, hfunction⟩ := hg
    exact sub.callExpression hk hfunction
  | expressionList closing => exact sub.expressionList closing
  | expressions => exact sub.expressions

end GivesShapes

/-- What a run gives is of the shape of what it is asked for. -/
theorem givesShapes_run (fuel : Nat) : GivesShapes (run fuel : Recur σ) := by
  induction fuel with
  | zero => exact fun _ _ _ => Ensures.throw trivial
  | succ fuel sub => exact fun g x hg => ensures_run_succ (sub.step g hg)

end Parse

/-- A parsed program is a list of statements that have their shape. -/
theorem shaped_of_parseProgram {σ : Type} [TokenSource σ] {source : σ} {tracing : Bool} {tree : Node}
    {s : State σ} (hrun : parseProgram source tracing = (.ok tree, s)) :
    ∃ ns, tree = .program ns ∧ ∀ n ∈ ns, Shaped (.statement .eof) n :=
  Parse.of_parseProgram (fun fuel => Parse.givesShapes_run fuel .program _ trivial) hrun

/-! ## Every node of a tree -/

/-- Every node of a tree that has its shape has that of some place. -/
theorem Shaped.of_mem_walk {place : Place} {n m : Node} (h : Shaped place n) (hm : m ∈ n.walk) :
    ∃ place, Shaped place m := by
  induction h with
  | @letStatement closer _ _ _ isWord isName inside ih =>
    simp only [Node.walk, Node.walkChild, Node.mem_walkChild, List.mem_cons, List.mem_append,
      List.not_mem_nil, or_false] at hm
    rcases hm with rfl | rfl | ⟨n, hn, hm⟩
    · exact ⟨.statement closer, .letStatement isWord isName inside⟩
    · exact ⟨.expression, .identifier isName⟩
    · exact ih n hn hm
  | @returnStatement closer _ _ isWord inside ih =>
    simp only [Node.walk, Node.mem_walkChild, List.mem_cons] at hm
    rcases hm with rfl | ⟨n, hn, hm⟩
    · exact ⟨.statement closer, .returnStatement isWord inside⟩
    · exact ih n hn hm
  | @expressionStatement closer _ _ starts inside ih =>
    simp only [Node.walk, Node.mem_walkChild, List.mem_cons] at hm
    rcases hm with rfl | ⟨n, hn, hm⟩
    · exact ⟨.statement closer, .expressionStatement starts inside⟩
    · exact ih n hn hm
  | blockStatement isBrace inside ih =>
    simp only [Node.walk, Node.mem_walkEach, List.mem_cons] at hm
    rcases hm with rfl | ⟨n, hn, hm⟩
    · exact ⟨.block, .blockStatement isBrace inside⟩
    · exact ih n hn hm
  | identifier isName =>
    obtain rfl := List.mem_singleton.1 hm
    exact ⟨.expression, .identifier isName⟩
  | integerLiteral isNumber reads =>
    obtain rfl := List.mem_singleton.1 hm
    exact ⟨.expression, .integerLiteral isNumber reads⟩
  | boolean isWord =>
    obtain rfl := List.mem_singleton.1 hm
    exact ⟨.expression, .boolean isWord⟩
  | prefixExpression isOperator operand ih =>
    simp only [Node.walk, Node.walkChild, List.mem_cons] at hm
    rcases hm with rfl | hm
    · exact ⟨.expression, .prefixExpression isOperator operand⟩
    · exact ih hm
  | infixExpression isOperator before behind ihBefore ihBehind =>
    simp only [Node.walk, Node.walkChild, List.mem_cons, List.mem_append] at hm
    rcases hm with rfl | hm | hm
    · exact ⟨.expression, .infixExpression isOperator before behind⟩
    · exact ihBefore hm
    · exact ihBehind hm
  | ifExpression isWord asked first second ihAsked ihFirst ihSecond =>
    simp only [Node.walk, Node.mem_walkChild, Node.walkChild, List.mem_cons, List.mem_append] at hm
    rcases hm with rfl | (hm | hm) | ⟨n, hn, hm⟩
    · exact ⟨.expression, .ifExpression isWord asked first second⟩
    · exact ihAsked hm
    · exact ihFirst hm
    · exact ihSecond n hn hm
  | functionLiteral isWord areNames inside ih =>
    simp only [Node.walk, Node.mem_walkEach, Node.walkChild, List.mem_cons, List.mem_append,
      List.mem_map] at hm
    rcases hm with rfl | ⟨n, ⟨t, ht, rfl⟩, hm⟩ | hm
    · exact ⟨.expression, .functionLiteral isWord areNames inside⟩
    -- the parameters
    · obtain rfl := List.mem_singleton.1 hm
      exact ⟨.expression, .identifier (areNames t ht)⟩
    · exact ih hm
  | callExpression opens called given ihCalled ihGiven =>
    simp only [Node.walk, Node.walkChildren_map_some, Node.mem_walkEach, Node.walkChild,
      List.mem_cons, List.mem_append] at hm
    rcases hm with rfl | hm | ⟨n, hn, hm⟩
    · exact ⟨.expression, .callExpression opens called given⟩
    · exact ihCalled hm
    · exact ihGiven n hn hm

/-! ## What is present -/

/-- The node lacks no part but one that a tree can do without: the value of a `let` or of a `return`,
the expression of a statement, and the alternative of a conditional. -/
def Node.Furnished : Node → Prop
  | .letStatement _ name _ => name.isSome
  | .prefixExpression _ _ right => right.isSome
  | .infixExpression _ left _ right => left.isSome ∧ right.isSome
  | .ifExpression _ condition consequence _ => condition.isSome ∧ consequence.isSome
  | .functionLiteral _ _ body => body.isSome
  | .callExpression _ function arguments => function.isSome ∧ ∀ a ∈ arguments, a.isSome
  | _ => True

/-- A tree of its shape lacks nothing that it cannot do without. -/
theorem Shaped.furnished {place : Place} {n : Node} (h : Shaped place n) : n.Furnished := by
  cases h with
  | callExpression =>
    refine ⟨rfl, fun a ha => ?_⟩
    obtain ⟨n, -, rfl⟩ := List.mem_map.1 ha
    rfl
  | infixExpression | ifExpression => exact ⟨rfl, rfl⟩
  | letStatement | prefixExpression | functionLiteral => exact rfl
  | _ => trivial

/-- In a parsed program no node lacks anything else. -/
theorem furnished_of_parseProgram {σ : Type} [TokenSource σ] {source : σ} {tracing : Bool}
    {tree : Node} {s : State σ} (hrun : parseProgram source tracing = (.ok tree, s)) :
    ∀ n ∈ tree.walk, n.Furnished := by
  obtain ⟨ns, rfl, hns⟩ := shaped_of_parseProgram hrun
  intro m hm
  rw [Node.walk, List.mem_cons, Node.mem_walkEach] at hm
  rcases hm with rfl | ⟨n, hn, hm⟩
  · trivial
  · obtain ⟨place, hplace⟩ := (hns n hn).of_mem_walk hm
    exact hplace.furnished

end Pratt
