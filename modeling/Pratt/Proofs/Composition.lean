import Pratt.Node.Render
import Pratt.Parser.Rules
import Pratt.Proofs.Respelling

/-!
# Pratt — how rules are composed

A rule sees of a state no more than the window and the look-ups in the tables, and changes it only
by moving the window on and by adding to the journal; all else it leaves to what pursues the goals.
And of a token it looks at the kind alone: the text and the place are carried into the tree, and
into what is reported. All of that is said of two runs of a rule at once, over sources of their own
and with tokens of the second one that stand for those of the first (`Respelling`): they are put
together alike (`Parse.Parallel`), from the basic actions and from goals which correspond to each
other.

`Parallel.step` says so of every rule but that of integers, which reads the text of its token, and
`Parallel.integerLiteral` of that one if no text is changed. What two parsers have in common can
then be shown by induction on how a rule is composed, and the rules need not be gone through again.
-/

namespace Pratt

namespace Parse

variable {σ τ α β γ δ : Type}

/-- The second state shows a rule what the first one does, with other tokens of the same kinds. -/
structure Sees (φ : Respelling) (s : State σ) (t : State τ) : Prop where
  current : t.current = φ.token s.current
  peek : t.peek = φ.token s.peek
  starting : t.starting.find? s.current.kind = s.starting.find? s.current.kind
  continuing : t.continuing.find? s.peek.kind = s.continuing.find? s.peek.kind
  /-- The rule of lists quotes the operand before it, if there is one. -/
  rendered : s.continuing.find? s.peek.kind = some .expressionList →
    ∀ n : Node, (φ.node n).render = n.render

namespace Sees

variable {φ : Respelling} {s : State σ} {t : State τ}

/-- The current tokens are of the same kind. -/
theorem current_kind (h : Sees φ s t) : t.current.kind = s.current.kind := by
  rw [h.current, φ.kind]

/-- The tokens ahead are of the same kind. -/
theorem peek_kind (h : Sees φ s t) : t.peek.kind = s.peek.kind := by
  rw [h.peek, φ.kind]

/-- Of the same tokens, a rule sees their look-ups in the tables. -/
theorem of_same (current : t.current = s.current)
    (peek : t.peek = s.peek)
    (starting : t.starting.find? s.current.kind = s.starting.find? s.current.kind)
    (continuing : t.continuing.find? s.peek.kind = s.continuing.find? s.peek.kind) :
    Sees .identity s t where
  current := current
  peek := peek
  starting := starting
  continuing := continuing
  rendered _ n := congrArg Node.render (Respelling.node_identity n)

end Sees

variable [TokenSource σ] [TokenSource τ]

/-- The two actions are put together alike, and `V` makes what the second one gives from what the
first one gives. `p` and `q` pursue the goals. -/
inductive Parallel (φ : Respelling) (p : Recur σ) (q : Recur τ) :
    {α β : Type} → (V : α → β) → Parse σ α → Parse τ β → Prop where
  | pure {α β : Type} {V : α → β} {v : α} {w : β} (value : V v = w) :
      Parallel φ p q V (Pure.pure v) (Pure.pure w)
  | throw {α β : Type} {V : α → β} (e : Fault) :
      Parallel φ p q V (MonadExcept.throw e) (MonadExcept.throw e)
  | bind {α β γ δ : Type} {V : α → β} {W : γ → δ} {a : Parse σ α} {b : Parse τ β}
      {k : α → Parse σ γ} {l : β → Parse τ δ} (first : Parallel φ p q V a b)
      (later : ∀ v, Parallel φ p q W (k v) (l (V v))) : Parallel φ p q W (a >>= k) (b >>= l)
  | get {α β : Type} {V : α → β} {k : State σ → Parse σ α} {l : State τ → Parse τ β}
      (seen : ∀ s t, Sees φ s t → Parallel φ p q V (k s) (l t)) :
      Parallel φ p q V (MonadState.get >>= k) (MonadState.get >>= l)
  | report (token : Token) (cause : Cause) :
      Parallel φ p q id (report token cause) (report (φ.token token) cause)
  | advance : Parallel φ p q id advance advance
  | traced {α β : Type} {V : α → β} {a : Parse σ α} {b : Parse τ β} (r : Rule)
      (action : Parallel φ p q V a b) : Parallel φ p q V (traced r a) (traced r b)
  | pursue (g : Goal) : Parallel φ p q (φ.result g) (p g) (q (φ.goal g))

namespace Parallel

variable {φ : Respelling} {p : Recur σ} {q : Recur τ}

/-! ## Basic actions -/

/-- What is made of the two results corresponds if the results do. -/
theorem map {V : α → β} {W : γ → δ} {a : Parse σ α} {b : Parse τ β} {k : α → γ} {l : β → δ}
    (h : Parallel φ p q V a b) (value : ∀ v, W (k v) = l (V v)) :
    Parallel φ p q W (do return k (← a)) (do return l (← b)) :=
  h.bind fun v => .pure (value v)

/-- Both find the token or both miss it, since it is looked up by its kind. -/
theorem expect? (wanted : Kind) :
    Parallel φ p q (Option.map φ.token) (Parse.expect? wanted)
      (Parse.expect? wanted) := by
  refine .get fun s t h => ?_
  dsimp only
  rw [h.peek_kind, h.peek]
  split
  · exact Parallel.advance.bind fun _ => .pure rfl
  · -- the token that is missed is reported in its own spelling
    exact (Parallel.report _ _).bind fun _ => .pure rfl

/-- Both skip the token or neither does. -/
theorem skipOptional (optional : Kind) :
    Parallel φ p q id (Parse.skipOptional optional) (Parse.skipOptional optional) := by
  refine .get fun s t h => ?_
  rw [h.peek_kind]
  split
  · exact .advance
  · exact .pure rfl

/-! ## The rules -/

/-- The two words are told from their kinds. -/
theorem statement : Parallel φ p q φ.child (Parse.statement p) (Parse.statement q) := by
  refine .get fun s t h => ?_
  rw [h.current_kind]
  split
  · exact .pursue .letStatement
  · exact (Parallel.pursue .returnStatement).map fun _ => rfl
  · exact (Parallel.pursue .expressionStatement).map fun _ => rfl

/-- The name is a node of its own, which is respelled with its token. -/
theorem letStatement :
    Parallel φ p q φ.child (Parse.letStatement p) (Parse.letStatement q) := by
  refine .get fun s t h => ?_
  rw [h.current]
  refine (expect? .ident).bind fun name => ?_
  cases name with
  | none => exact .pure rfl
  | some name =>
    refine (expect? .assign).bind fun sign => ?_
    cases sign with
    | none => exact .pure rfl
    | some sign =>
      refine Parallel.advance.bind fun _ => (Parallel.pursue (.expression _)).bind fun value => ?_
      -- the name is copied from its token
      have hname := φ.node_identifier name
      refine (skipOptional .semicolon).bind fun _ => .pure ?_
      exact congrArg (fun n => some (Node.letStatement _ (some n) (φ.child value))) hname

/-- The word and the value are carried into the node. -/
theorem returnStatement :
    Parallel φ p q φ.node (Parse.returnStatement p) (Parse.returnStatement q) := by
  refine .get fun s t h => ?_
  rw [h.current]
  refine Parallel.advance.bind fun _ => (Parallel.pursue (.expression _)).bind fun value => ?_
  exact (skipOptional .semicolon).bind fun _ => .pure rfl

/-- The first token and the expression are carried into the node. -/
theorem expressionStatement :
    Parallel φ p q φ.node (Parse.expressionStatement p) (Parse.expressionStatement q) := by
  refine .get fun s t h => ?_
  rw [h.current]
  refine (Parallel.pursue (.expression _)).bind fun expression => ?_
  exact (skipOptional .semicolon).bind fun _ => .pure rfl

/-- What closes a block is looked for only behind its statements, in the states that these lead
to. -/
theorem blockStatement :
    Parallel φ p q φ.child (Parse.blockStatement p) (Parse.blockStatement q) := by
  refine .get fun s t h => ?_
  rw [h.current]
  refine Parallel.advance.bind fun _ =>
    (Parallel.pursue (.statements .rightBrace)).bind fun ns => ?_
  refine .get fun s' t' h' => ?_
  dsimp only
  rw [h'.current_kind, h'.current]
  split
  · exact (Parallel.report _ _).bind fun _ => .pure rfl
  · exact .pure rfl

/-- A list goes on from the states that a statement or a skip leads to. -/
theorem statements (closer : Kind) :
    Parallel φ p q φ.each (Parse.statements p closer) (Parse.statements q closer) := by
  refine .get fun s t h => ?_
  dsimp only
  rw [h.current_kind]
  split
  · exact .pure rfl
  · refine (Parallel.pursue .statement).bind fun v => ?_
    cases v with
    | some node =>
      exact Parallel.advance.bind fun _ => (Parallel.pursue (.statements closer)).map fun _ => rfl
    | none =>
      exact (Parallel.pursue (.recovery 0)).bind fun _ => Parallel.advance.bind fun _ =>
        .pursue (.statements closer)

/-- Braces are counted by their kinds. -/
theorem recovery (depth : Nat) :
    Parallel φ p q id (Parse.recovery p depth) (Parse.recovery q depth) := by
  refine .get fun s t h => ?_
  rw [h.current_kind, h.peek_kind]
  split
  · exact .pure rfl
  · split
    · exact .pure rfl
    · refine Parallel.advance.bind fun _ => .get fun s' t' h' => ?_
      rw [h'.current_kind]
      split
      · exact .pursue (.recovery _)
      · exact .pursue (.recovery _)
      · exact .pursue (.recovery _)

/-- A rule that a table names is used on both sides, or is refused on both. -/
theorem applyStarting (r : Rule) :
    Parallel φ p q φ.child (Parse.applyStarting p r) (Parse.applyStarting q r) := by
  cases r with
  | program => exact (Parallel.pursue .program).map fun _ => rfl
  | statement => exact .pursue .statement
  | letStatement => exact .pursue .letStatement
  | returnStatement => exact (Parallel.pursue .returnStatement).map fun _ => rfl
  | expressionStatement => exact (Parallel.pursue .expressionStatement).map fun _ => rfl
  | blockStatement => exact .pursue .blockStatement
  | identifier => exact (Parallel.pursue .identifier).map fun _ => rfl
  | integerLiteral => exact .pursue .integerLiteral
  | boolean => exact (Parallel.pursue .boolean).map fun _ => rfl
  | prefixExpression => exact .pursue .prefixExpression
  | groupedExpression => exact .pursue .groupedExpression
  | ifExpression => exact .pursue .ifExpression
  | functionLiteral => exact .pursue .functionLiteral
  | functionParameters =>
    refine (Parallel.pursue .functionParameters).bind fun names => ?_
    cases names with
    | none => exact .pure rfl
    | some names => exact .pure rfl
  | expression | infixExpression | callExpression | expressionList =>
    exact .traced _ (.throw _)

/-- The same rule is found, or the same is missing. -/
theorem operand : Parallel φ p q φ.child (Parse.operand p) (Parse.operand q) := by
  refine .get fun s t h => ?_
  rw [h.current_kind, h.starting, h.current]
  cases s.starting.find? s.current.kind with
  | none => exact (Parallel.report _ _).bind fun _ => .pure rfl
  | some r => exact applyStarting r

/-- What goes on is an operand that is there, in its own spelling. -/
theorem expression (bound : Int) :
    Parallel φ p q φ.child (Parse.expression p bound) (Parse.expression q bound) := by
  refine operand.bind fun left => ?_
  cases left with
  | none => exact .pure rfl
  | some left => exact .pursue (.continuation bound left)

/-- Where an operand has to serve as a bound, both sides fail alike. -/
theorem expressionBoundedBy (bound : Node) :
    Parallel φ p q φ.child (Parse.expressionBoundedBy p bound)
      (Parse.expressionBoundedBy q (φ.node bound)) := by
  refine operand.bind fun left => ?_
  cases left with
  | none => exact .pure rfl
  | some left =>
    refine .get fun s t h => ?_
    rw [h.peek_kind]
    split
    · exact .pure rfl
    · rw [φ.kindName_node]
      exact .throw _

/-- Where an operand has to serve as what closes a list, its text gets into the diagnostic. -/
theorem expressionListClosedBy {closing : Node}
    (rendered : (φ.node closing).render = closing.render) :
    Parallel φ p q φ.child (Parse.expressionListClosedBy p closing)
      (Parse.expressionListClosedBy q (φ.node closing)) := by
  refine Parallel.advance.bind fun _ => (Parallel.pursue .expressions).bind fun _ => ?_
  refine .get fun s t h => ?_
  rw [h.peek, rendered]
  exact (Parallel.report _ _).bind fun _ => .pure rfl

/-- A rule that a table names gets the left part in its own spelling. -/
theorem applyContinuing (left : Node) (r : Rule)
    (rendered : r = .expressionList → ∀ n : Node, (φ.node n).render = n.render) :
    Parallel φ p q φ.child (Parse.applyContinuing p left r)
      (Parse.applyContinuing q (φ.node left) r) := by
  cases r with
  | infixExpression => exact .pursue (.infixExpression left)
  | callExpression => exact .pursue (.callExpression left)
  | expression => exact .traced _ (expressionBoundedBy left)
  | expressionList => exact expressionListClosedBy (rendered rfl left)
  | _ => exact .traced _ (.throw _)

/-- Levels are those of kinds, so both sides go on or neither does. -/
theorem continuation (bound : Int) (left : Node) :
    Parallel φ p q φ.child (Parse.continuation p bound left)
      (Parse.continuation q bound (φ.node left)) := by
  refine .get fun s t h => ?_
  rw [h.peek_kind, h.continuing]
  split
  · cases hfind : s.continuing.find? s.peek.kind with
    | none => exact .pure rfl
    | some r =>
      have rendered : r = .expressionList → ∀ n : Node, (φ.node n).render = n.render :=
        fun hr => h.rendered (hr ▸ hfind)
      refine Parallel.advance.bind fun _ => (applyContinuing left r rendered).bind fun v => ?_
      cases v with
      | none => exact .pure rfl
      | some longer => exact .pursue (.continuation bound longer)
  · exact .pure rfl

/-- A name is copied from its token. -/
theorem identifier : Parallel φ p q φ.node Parse.identifier Parse.identifier := by
  refine .get fun s t h => ?_
  rw [h.current]
  exact .pure (φ.node_identifier _)

/-- The one rule that reads the text of a token. -/
theorem integerLiteral (hφ : φ.Verbatim) :
    Parallel φ p q φ.child Parse.integerLiteral Parse.integerLiteral := by
  refine .get fun s t h => ?_
  dsimp only
  rw [h.current, hφ]
  split
  · exact .pure rfl
  · exact .throw _
  · exact (Parallel.report _ _).bind fun _ => .pure rfl

/-- The value is told from the kind. -/
theorem boolean : Parallel φ p q φ.node Parse.boolean Parse.boolean := by
  refine .get fun s t h => ?_
  dsimp only
  rw [h.current_kind, h.current]
  exact .pure rfl

/-- The operator is copied from its token. -/
theorem prefixExpression :
    Parallel φ p q φ.child (Parse.prefixExpression p) (Parse.prefixExpression q) := by
  refine .get fun s t h => ?_
  rw [h.current]
  refine Parallel.advance.bind fun _ => (Parallel.pursue (.expression _)).bind fun right => ?_
  cases right with
  | none => exact .pure rfl
  | some right => exact .pure (congrArg some (φ.node_prefixExpression _ _))

/-- An operator between two operands is copied from its token, whether or not the left one is
absent. -/
theorem infixExpression (left : Option Node) :
    Parallel φ p q φ.child (Parse.infixExpression p left)
      (Parse.infixExpression q (φ.child left)) := by
  refine .get fun s t h => ?_
  dsimp only
  rw [h.current_kind, h.current]
  refine Parallel.advance.bind fun _ => (Parallel.pursue (.expression _)).bind fun right => ?_
  cases right with
  | none => exact .pure rfl
  | some right => exact .pure (congrArg some (φ.node_infixExpression _ _ _))

/-- A group has nothing of its own but what is inside. -/
theorem groupedExpression :
    Parallel φ p q φ.child (Parse.groupedExpression p) (Parse.groupedExpression q) := by
  refine Parallel.advance.bind fun _ => (Parallel.pursue (.expression _)).bind fun inside => ?_
  refine (expect? .rightParen).bind fun closing => ?_
  cases closing with
  | none => exact .pure rfl
  | some closing => exact .pure rfl

/-- An alternative that is absent is so on both sides. -/
theorem alternative :
    Parallel φ p q (Option.map φ.child) (Parse.alternative p) (Parse.alternative q) := by
  refine .get fun s t h => ?_
  rw [h.peek_kind]
  split
  · refine Parallel.advance.bind fun _ => (expect? .leftBrace).bind fun brace => ?_
    cases brace with
    | none => exact .pure rfl
    | some brace =>
      refine (Parallel.pursue .blockStatement).bind fun block => ?_
      cases block with
      | none => exact .pure rfl
      | some block => exact .pure rfl
  · exact .pure rfl

/-- Each part is looked for on both sides, and found on both or missed on both. -/
theorem ifExpression :
    Parallel φ p q φ.child (Parse.ifExpression p) (Parse.ifExpression q) := by
  refine .get fun s t h => ?_
  rw [h.current]
  refine (expect? .leftParen).bind fun opening => ?_
  cases opening with
  | none => exact .pure rfl
  | some opening =>
    refine Parallel.advance.bind fun _ => (Parallel.pursue (.expression _)).bind fun condition => ?_
    refine (expect? .rightParen).bind fun closing => ?_
    cases closing with
    | none => exact .pure rfl
    | some closing =>
      refine (expect? .leftBrace).bind fun brace => ?_
      cases brace with
      | none => exact .pure rfl
      | some brace =>
        refine (Parallel.pursue .blockStatement).bind fun consequence => ?_
        cases consequence with
        | none => exact .pure rfl
        | some consequence =>
          refine alternative.bind fun other => ?_
          cases other with
          | none => exact .pure rfl
          | some other =>
            cases condition with
            | none => exact .pure rfl
            | some condition => exact .pure rfl

/-- The parameters are respelled one by one, and the body after them. -/
theorem functionLiteral :
    Parallel φ p q φ.child (Parse.functionLiteral p) (Parse.functionLiteral q) := by
  refine .get fun s t h => ?_
  rw [h.current]
  refine (expect? .leftParen).bind fun opening => ?_
  cases opening with
  | none => exact .pure rfl
  | some opening =>
    refine (Parallel.pursue .functionParameters).bind fun names => ?_
    cases names with
    | none => exact .pure rfl
    | some names =>
      refine (expect? .leftBrace).bind fun brace => ?_
      cases brace with
      | none => exact .pure rfl
      | some brace =>
        refine (Parallel.pursue .blockStatement).bind fun body => ?_
        cases body with
        | none => exact .pure rfl
        | some body => exact .pure rfl

/-- An empty list of parameters is told from what is ahead. -/
theorem functionParameters :
    Parallel φ p q (Option.map φ.each) (Parse.functionParameters p)
      (Parse.functionParameters q) := by
  refine .get fun s t h => ?_
  rw [h.peek_kind]
  split
  · exact Parallel.advance.bind fun _ => .pure rfl
  · exact .pursue .parameters

/-- Each name is copied from its token. -/
theorem parameters :
    Parallel φ p q (Option.map φ.each) (Parse.parameters p) (Parse.parameters q) := by
  refine (expect? .ident).bind fun name => ?_
  cases name with
  | none => exact .pure rfl
  | some name =>
    have hname := φ.node_identifier name
    refine .get fun s t h => ?_
    rw [h.peek_kind]
    split
    · refine Parallel.advance.bind fun _ => (Parallel.pursue .parameters).bind fun later => ?_
      cases later with
      | none => exact .pure rfl
      | some later => exact .pure (congrArg (fun n => some (n :: φ.each later)) hname)
    · refine (expect? .rightParen).bind fun closing => ?_
      cases closing with
      | none => exact .pure rfl
      | some closing => exact .pure (congrArg (fun n => some [n]) hname)

/-- A call has all of its arguments or is not there. -/
theorem callExpression (function : Option Node) :
    Parallel φ p q φ.child (Parse.callExpression p function)
      (Parse.callExpression q (φ.child function)) := by
  refine .get fun s t h => ?_
  rw [h.current]
  refine (Parallel.pursue (.expressionList _)).bind fun arguments => ?_
  cases arguments with
  | none => exact .pure rfl
  | some arguments =>
    refine .pure ?_
    rw [Respelling.child, Respelling.node, φ.children_map_some]
    rfl

/-- A list whose items are not all there is not there on either side. -/
theorem expressionList (closing : Kind) :
    Parallel φ p q (Option.map φ.each) (Parse.expressionList p closing)
      (Parse.expressionList q closing) := by
  refine .get fun s t h => ?_
  rw [h.peek_kind]
  split
  · exact Parallel.advance.bind fun _ => .pure rfl
  · refine Parallel.advance.bind fun _ => (Parallel.pursue .expressions).bind fun items => ?_
    refine (expect? closing).bind fun closed => ?_
    cases closed with
    | none => exact .pure rfl
    | some closed => exact .pure (φ.mapM_children items).symm

/-- A comma behind an item is looked for in the states that the item leads to. -/
theorem expressions :
    Parallel φ p q φ.children (Parse.expressions p) (Parse.expressions q) := by
  refine (Parallel.pursue (.expression _)).bind fun first => .get fun s t h => ?_
  rw [h.peek_kind]
  split
  · exact Parallel.advance.bind fun _ => Parallel.advance.bind fun _ =>
      (Parallel.pursue .expressions).map fun _ => rfl
  · exact .pure rfl

/-- Every rule is composed alike, whatever pursues the goals, but for that of integers if texts are
changed. -/
theorem step (g : Goal) (hg : g = .integerLiteral → φ.Verbatim) :
    Parallel φ p q (φ.result g) (Parse.step p g) (Parse.step q (φ.goal g)) := by
  cases g with
  | program => exact (Parallel.pursue (.statements .eof)).map fun _ => rfl
  | statement => exact statement
  | letStatement => exact letStatement
  | returnStatement => exact returnStatement
  | expressionStatement => exact expressionStatement
  | blockStatement => exact blockStatement
  | expression bound => exact expression bound
  | identifier => exact identifier
  | integerLiteral => exact integerLiteral (hg rfl)
  | boolean => exact boolean
  | prefixExpression => exact prefixExpression
  | infixExpression left => exact infixExpression left
  | groupedExpression => exact groupedExpression
  | ifExpression => exact ifExpression
  | functionLiteral => exact functionLiteral
  | functionParameters => exact functionParameters
  | callExpression function => exact callExpression function
  | expressionList closing => exact expressionList closing
  | statements closer => exact statements closer
  | continuation bound left => exact continuation bound left
  | parameters => exact parameters
  | expressions => exact expressions
  | recovery depth => exact recovery depth

end Parallel

end Parse

end Pratt
