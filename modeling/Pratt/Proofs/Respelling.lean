import Pratt.Parser.Diagnostic
import Pratt.Parser.Goal

/-!
# Pratt — other tokens of the same kind

What a parser does depends on the kinds of the tokens. Their texts are copied into the tree, and
where they stand is only carried along. So a token can be replaced by any other one of the same
kind, and what is made of it changes along with it: a `Respelling` says what to put in the place of
each token, and does so in a diagnostic, in a tree, and in a goal and what it gives.

* `Respelling.node`, `Respelling.goal`, `Respelling.result` — trees, goals and results with their
  tokens replaced.
* `Respelling.Verbatim` — no text is changed, so that tokens are only put at other places.
* `Respelling.identity` — every token stays what it is, and so does all that is made of it.
-/

namespace Pratt

/-- Another token in the place of each, of the same kind. -/
structure Respelling where
  token : Token → Token
  kind : ∀ t, (token t).kind = t.kind

namespace Respelling

variable (φ : Respelling)

/-! ## What is respelled -/

/-- What stands in the place of a text in a node that was made from a token: if it is the text of
the token, it is that of the new one. -/
def text (t : Option Token) (value : String) : String :=
  match t with
  | some t => if value = t.literal then (φ.token t).literal else value
  | none => value

mutual

/-- The tree with its tokens replaced, and the texts that were copied from these. -/
def node : Node → Node
  | .program statements => .program (each statements)
  | .identifier t value => .identifier (t.map φ.token) (φ.text t value)
  | .integerLiteral t value => .integerLiteral (t.map φ.token) value
  | .boolean t value => .boolean (t.map φ.token) value
  | .prefixExpression t operator right =>
    .prefixExpression (t.map φ.token) (φ.text t operator) (child right)
  | .infixExpression t left operator right =>
    .infixExpression (t.map φ.token) (child left) (φ.text t operator) (child right)
  | .ifExpression t condition consequence alternative =>
    .ifExpression (t.map φ.token) (child condition) (child consequence) (child alternative)
  | .functionLiteral t parameters body =>
    .functionLiteral (t.map φ.token) (each parameters) (child body)
  | .callExpression t function arguments =>
    .callExpression (t.map φ.token) (child function) (children arguments)
  | .letStatement t name value => .letStatement (t.map φ.token) (child name) (child value)
  | .returnStatement t value => .returnStatement (t.map φ.token) (child value)
  | .expressionStatement t expression => .expressionStatement (t.map φ.token) (child expression)
  | .blockStatement t statements => .blockStatement (t.map φ.token) (each statements)
  | .bare family t => .bare family (t.map φ.token)
  | .sequence items => .sequence (each items)

/-- The child with its tokens replaced. -/
def child : Option Node → Option Node
  | none => none
  | some n => some (node n)

/-- The nodes with their tokens replaced. -/
def each : List Node → List Node
  | [] => []
  | n :: ns => node n :: each ns

/-- The children with their tokens replaced. -/
def children : List (Option Node) → List (Option Node)
  | [] => []
  | v :: vs => child v :: children vs

end

/-- The diagnostic with its token replaced. -/
def diagnostic (d : Diagnostic) : Diagnostic :=
  { d with token := φ.token d.token }

/-- The goal with the tokens of its trees replaced. -/
def goal : Goal → Goal
  | .infixExpression left => .infixExpression (φ.child left)
  | .callExpression function => .callExpression (φ.child function)
  | .continuation bound left => .continuation bound (φ.node left)
  | g => g

/-- What a goal gives, with the tokens of its trees replaced. -/
def result : (g : Goal) → g.Result → (φ.goal g).Result
  | .program, n | .returnStatement, n | .expressionStatement, n | .identifier, n
  | .boolean, n => φ.node n
  | .statement, v | .letStatement, v | .blockStatement, v | .expression _, v
  | .integerLiteral, v | .prefixExpression, v | .infixExpression _, v | .groupedExpression, v
  | .ifExpression, v | .functionLiteral, v | .callExpression _, v
  | .continuation _ _, v => φ.child v
  | .functionParameters, ns | .expressionList _, ns | .parameters, ns => Option.map φ.each ns
  | .statements _, ns => φ.each ns
  | .expressions, vs => φ.children vs
  | .recovery _, _ => ()

/-- Nothing is changed of a goal that a trace would show. -/
theorem rule?_goal (g : Goal) : (φ.goal g).rule? = g.rule? := by
  cases g <;> rfl

/-! ## Trees and lists of trees -/

/-- A text that was copied from a token changes as that of the token does. -/
theorem text_literal (t : Token) : φ.text (some t) t.literal = (φ.token t).literal :=
  if_pos rfl

/-- A name is respelled as its token is. -/
@[simp] theorem node_identifier (t : Token) :
    φ.node (.identifier (some t) t.literal) =
      .identifier (some (φ.token t)) (φ.token t).literal :=
  congrArg (Node.identifier _) (φ.text_literal t)

/-- A sign before an operand is respelled as its token is. -/
@[simp] theorem node_prefixExpression (t : Token) (right : Option Node) :
    φ.node (.prefixExpression (some t) t.literal right) =
      .prefixExpression (some (φ.token t)) (φ.token t).literal (φ.child right) :=
  congrArg (Node.prefixExpression _ · _) (φ.text_literal t)

/-- A sign between two operands is respelled as its token is. -/
@[simp] theorem node_infixExpression (t : Token) (left right : Option Node) :
    φ.node (.infixExpression (some t) left t.literal right) =
      .infixExpression (some (φ.token t)) (φ.child left) (φ.token t).literal (φ.child right) :=
  congrArg (Node.infixExpression _ _ · _) (φ.text_literal t)

/-- What sort of node it is does not depend on the tokens. -/
@[simp] theorem kindName_node (n : Node) : (φ.node n).kindName = n.kindName := by
  cases n with
  | bare family t => cases family <;> rfl
  | _ => rfl

/-- Trees in a list are respelled each by itself. -/
theorem each_eq_map (ns : List Node) : φ.each ns = ns.map φ.node := by
  induction ns with
  | nil => rfl
  | cons n ns ih => exact congrArg (φ.node n :: ·) ih

/-- Where all children are present they can be respelled before or after they are taken for
children. -/
theorem children_map_some (ns : List Node) : φ.children (ns.map some) = (φ.each ns).map some := by
  induction ns with
  | nil => rfl
  | cons n ns ih => exact congrArg (some (φ.node n) :: ·) ih

/-- A respelled list of children has the same gaps. -/
theorem mapM_children (vs : List (Option Node)) :
    (φ.children vs).mapM id = (vs.mapM id).map φ.each := by
  induction vs with
  | nil => rfl
  | cons v vs ih =>
    show (φ.child v :: φ.children vs).mapM id = _
    rw [List.mapM_cons, List.mapM_cons, ih]
    cases v with
    | none => rfl
    | some n => cases vs.mapM id <;> rfl

/-! ## Texts that stay -/

/-- No text is changed. -/
def Verbatim : Prop :=
  ∀ t, (φ.token t).literal = t.literal

variable {φ} in
/-- Where no text is changed, none in a node is. -/
theorem Verbatim.text (hφ : φ.Verbatim) (t : Option Token) (value : String) :
    φ.text t value = value := by
  cases t with
  | none => rfl
  | some t =>
    show (if value = t.literal then (φ.token t).literal else value) = value
    split
    · rename_i h
      rw [hφ, h]
    · rfl

/-! ## Tokens that stay -/

/-- Every token in its own place. -/
def identity : Respelling where
  token := id
  kind _ := rfl

/-- Leaving all tokens what they are changes no text. -/
theorem verbatim_identity : identity.Verbatim :=
  fun _ => rfl

/-- The token of a node stays. -/
theorem map_token_identity (t : Option Token) : t.map identity.token = t := by
  cases t <;> rfl

mutual

/-- A tree whose tokens stay is the tree itself. -/
theorem node_identity (n : Node) : identity.node n = n := by
  cases n <;>
    simp only [node, map_token_identity, verbatim_identity.text, child_identity, each_identity,
      children_identity]

/-- A tree that may be absent stays, too. -/
theorem child_identity (v : Option Node) : identity.child v = v := by
  cases v with
  | none => rfl
  | some n => exact congrArg some (node_identity n)

/-- Several trees stay as they are. -/
theorem each_identity (ns : List Node) : identity.each ns = ns := by
  cases ns with
  | nil => rfl
  | cons n ns => rw [each, node_identity n, each_identity ns]

theorem children_identity (vs : List (Option Node)) : identity.children vs = vs := by
  cases vs with
  | nil => rfl
  | cons v vs => rw [children, child_identity v, children_identity vs]

end

/-- A goal whose tokens stay is the goal itself. -/
theorem goal_identity (g : Goal) : identity.goal g = g := by
  cases g with
  | infixExpression left => exact congrArg _ (child_identity left)
  | callExpression function => exact congrArg _ (child_identity function)
  | continuation bound left => exact congrArg _ (node_identity left)
  | _ => rfl

/-- What it gives stays, too; this is of another type only as long as the goal is not known to be
the same. -/
theorem result_identity (g : Goal) : HEq (identity.result g) (id : g.Result → g.Result) := by
  have hnode : identity.node = id := funext node_identity
  have hchild : identity.child = id := funext child_identity
  have heach : identity.each = id := funext each_identity
  have hchildren : identity.children = id := funext children_identity
  -- each kind of result is made of nodes in one of these ways
  have hlist : Option.map identity.each = id := by rw [heach, Option.map_id]
  cases g with
  | program | returnStatement | expressionStatement | identifier | boolean =>
    exact heq_of_eq hnode
  | functionParameters | expressionList | parameters => exact heq_of_eq hlist
  | statements => exact heq_of_eq heach
  | expressions => exact heq_of_eq hchildren
  | recovery => exact HEq.rfl
  | _ => exact heq_of_eq hchild

/-- Where tokens stay what they are, a goal and what it gives are the ones that they were. -/
theorem goal_identity_iff (g : Goal) (P : (h : Goal) → (g.Result → h.Result) → Prop) :
    P (identity.goal g) (identity.result g) ↔ P g id := by
  have hgoal := goal_identity g
  have hresult := result_identity g
  generalize identity.result g = v at hresult ⊢
  generalize identity.goal g = h at hgoal v hresult ⊢
  subst hgoal
  rw [eq_of_heq hresult]

end Respelling

end Pratt
