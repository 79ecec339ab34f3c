import Mathlib.Data.List.Forall2
import Pratt.Node.Describe
import Pratt.Node.Same
import Pratt.Node.Walk
import Pratt.Proofs.Shown

/-!
# Pratt — sameness, descriptions and outlines agree

Two trees can be compared in three ways: by `Node.same`, by the text that describes them and by
their outlines. The first two ignore the tokens that the nodes were made from, the last keeps the
texts of these.

* `Node.withoutTokens` — the tree with no token in any node. Trees are the same exactly if nothing
  else is between them (`Node.same_iff_withoutTokens`).
* `Node.toList_describe` — a description is the shown outline, which can be read back.
* `describe_eq_iff_same` — the three ways of comparing trees, against each other.

Nothing is assumed of the trees: any child may be absent, and any text may stand anywhere.
-/

namespace Pratt

namespace Node

/-! ## Trees without their tokens -/

mutual

/-- The tree with no token in any node. -/
def withoutTokens : Node → Node
  | .program statements => .program (withoutTokensEach statements)
  | .identifier _ value => .identifier none value
  | .integerLiteral _ value => .integerLiteral none value
  | .boolean _ value => .boolean none value
  | .prefixExpression _ operator right =>
    .prefixExpression none operator (withoutTokensChild right)
  | .infixExpression _ left operator right =>
    .infixExpression none (withoutTokensChild left) operator (withoutTokensChild right)
  | .ifExpression _ condition consequence alternative =>
    .ifExpression none (withoutTokensChild condition) (withoutTokensChild consequence)
      (withoutTokensChild alternative)
  | .functionLiteral _ parameters body =>
    .functionLiteral none (withoutTokensEach parameters) (withoutTokensChild body)
  | .callExpression _ function arguments =>
    .callExpression none (withoutTokensChild function) (withoutTokensChildren arguments)
  | .letStatement _ name value =>
    .letStatement none (withoutTokensChild name) (withoutTokensChild value)
  | .returnStatement _ value => .returnStatement none (withoutTokensChild value)
  | .expressionStatement _ expression => .expressionStatement none (withoutTokensChild expression)
  | .blockStatement _ statements => .blockStatement none (withoutTokensEach statements)
  | .bare family _ => .bare family none
  | .sequence items => .sequence (withoutTokensEach items)

/-- The child with no token in any node. -/
def withoutTokensChild : Option Node → Option Node
  | none => none
  | some n => some n.withoutTokens

/-- The nodes with no token in any of them. -/
def withoutTokensEach : List Node → List Node
  | [] => []
  | n :: ns => n.withoutTokens :: withoutTokensEach ns

/-- The children with no token in any node. -/
def withoutTokensChildren : List (Option Node) → List (Option Node)
  | [] => []
  | v :: vs => withoutTokensChild v :: withoutTokensChildren vs

end

/-- A child keeps its absence and loses its tokens. -/
theorem withoutTokensChild_eq_map (v : Option Node) :
    withoutTokensChild v = v.map withoutTokens := by
  cases v <;> rfl

/-- Tokens are taken out of several nodes one by one. -/
theorem withoutTokensEach_eq_map (ns : List Node) :
    withoutTokensEach ns = ns.map withoutTokens := by
  induction ns with
  | nil => rfl
  | cons n ns ih => rw [withoutTokensEach, ih, List.map_cons]

/-- Tokens are taken out of several children one by one. -/
theorem withoutTokensChildren_eq_map (vs : List (Option Node)) :
    withoutTokensChildren vs = vs.map (Option.map withoutTokens) := by
  induction vs with
  | nil => rfl
  | cons v vs ih => rw [withoutTokensChildren, withoutTokensChild_eq_map, ih, List.map_cons]

mutual

/-- Trees are the same exactly if their tokens are all that is between them. -/
theorem same_iff_withoutTokens (m n : Node) :
    m.same n = true ↔ m.withoutTokens = n.withoutTokens := by
  -- node by node, where two of different kinds are never the same
  cases m <;> cases n <;>
    simp [same, withoutTokens, sameChild_iff_withoutTokens, sameEach_iff_withoutTokens,
      sameChildren_iff_withoutTokens, and_assoc]
termination_by structural m

theorem sameChild_iff_withoutTokens (v w : Option Node) :
    sameChild v w = true ↔ withoutTokensChild v = withoutTokensChild w := by
  cases v <;> cases w <;> simp [sameChild, withoutTokensChild, same_iff_withoutTokens]
termination_by structural v

theorem sameEach_iff_withoutTokens (ms ns : List Node) :
    sameEach ms ns = true ↔ withoutTokensEach ms = withoutTokensEach ns := by
  cases ms <;> cases ns <;>
    simp [sameEach, withoutTokensEach, same_iff_withoutTokens, sameEach_iff_withoutTokens]
termination_by structural ms

theorem sameChildren_iff_withoutTokens (vs ws : List (Option Node)) :
    sameChildren vs ws = true ↔ withoutTokensChildren vs = withoutTokensChildren ws := by
  cases vs <;> cases ws <;>
    simp [sameChildren, withoutTokensChildren, sameChild_iff_withoutTokens,
      sameChildren_iff_withoutTokens]
termination_by structural vs

end

/-! ## Outlines without their tokens -/

/-- A node of a bare family is outlined by its kind and its token alone. -/
theorem outline_bare (family : NodeFamily) (t : Option Token) :
    (bare family t).outline = .record (bare family t).kindName (literalOfToken t) [] := by
  cases family <;> rfl

/-- The bare families have different names. -/
theorem kindName_bare_iff {f g : NodeFamily} {t u : Option Token} :
    (bare f t).kindName = (bare g u).kindName ↔ f = g := by
  cases f <;> cases g <;> simp [kindName]

/-- No node is outlined as an absent one. -/
theorem outline_ne_absent (n : Node) : n.outline.withoutTokens ≠ .absent := by
  cases n with
  | bare family t => cases family <;> exact nofun
  | _ => exact nofun

open Outline in
mutual

/-- An outline leaves out nothing but tokens, and nothing of these but their texts. -/
theorem outline_withoutTokens_iff (m n : Node) :
    m.outline.withoutTokens = n.outline.withoutTokens ↔ m.withoutTokens = n.withoutTokens := by
  -- the bare families share one constructor and are told apart by their names
  cases m with
  | bare f t =>
    rw [outline_bare]
    cases n with
    | bare g u =>
      rw [outline_bare]
      simp [Outline.withoutTokens, withoutTokens, kindName_bare_iff]
    | _ => simp [outline, Outline.withoutTokens, withoutTokens, withoutTokensFields]
  | _ =>
    cases n with
    | bare g u =>
      rw [outline_bare]
      simp [outline, Outline.withoutTokens, withoutTokens, withoutTokensFields]
    | _ =>
      simp [outline, Outline.withoutTokens, withoutTokens, withoutTokensFields,
        outlineChild_withoutTokens_iff, outlineEach_withoutTokens_iff,
        outlineChildren_withoutTokens_iff]
termination_by structural m

theorem outlineChild_withoutTokens_iff (v w : Option Node) :
    (outlineChild v).withoutTokens = (outlineChild w).withoutTokens ↔
      withoutTokensChild v = withoutTokensChild w := by
  cases v <;> cases w <;>
    simp [outlineChild, Outline.withoutTokens, withoutTokensChild, outline_withoutTokens_iff,
      outline_ne_absent, (outline_ne_absent _).symm]
termination_by structural v

theorem outlineEach_withoutTokens_iff (ms ns : List Node) :
    Outline.withoutTokensEach (outlineEach ms) = Outline.withoutTokensEach (outlineEach ns) ↔
      withoutTokensEach ms = withoutTokensEach ns := by
  cases ms <;> cases ns <;>
    simp [outlineEach, withoutTokensEach, Outline.withoutTokensEach, outline_withoutTokens_iff,
      outlineEach_withoutTokens_iff]
termination_by structural ms

theorem outlineChildren_withoutTokens_iff (vs ws : List (Option Node)) :
    Outline.withoutTokensEach (outlineChildren vs) =
        Outline.withoutTokensEach (outlineChildren ws) ↔
      withoutTokensChildren vs = withoutTokensChildren ws := by
  cases vs <;> cases ws <;>
    simp [outlineChildren, withoutTokensChildren, Outline.withoutTokensEach,
      outlineChild_withoutTokens_iff, outlineChildren_withoutTokens_iff]
termination_by structural vs

end

/-! ## Descriptions -/

/-- A list is described with its items between commas, in brackets. -/
theorem toList_bracketed (items : List String) :
    (bracketed items).toList = '[' :: commaSeparated (items.map String.toList) ++ [']'] := by
  simp [bracketed, commaSeparated, String.toList_intercalate]

/-- A truth value is described as it is shown. -/
theorem toList_describeBool (b : Bool) : (describeBool b).toList = (Outline.flag b).shown := by
  cases b <;> rfl

/-- A node of a bare family is described by its kind alone. -/
theorem describe_bare (family : NodeFamily) (t : Option Token) :
    (bare family t).describe = (bare family t).kindName ++ "()" := by
  cases family <;> rfl

open Outline in
mutual

/-- What describes a tree is its outline as it is shown. -/
theorem toList_describe (n : Node) : n.describe.toList = n.outline.shown := by
  cases n with
  | bare family t =>
    cases family <;>
      simp [describe_bare, outline_bare, shown, shownFields, commaSeparated, kindName]
  | sequence items =>
    show (bracketed (describeEach items)).toList = _
    rw [toList_bracketed, toList_describeEach]
    rfl
  | program ss =>
    -- each kind of node writes its name and its fields, and so does its outline
    show ("Program(statements=" ++ bracketed (describeEach ss) ++ ")").toList = _
    simp [outline, shown, shownFields, commaSeparated, List.intercalate, toList_bracketed,
      toList_describeEach]
  | identifier t value =>
    show ("Identifier(value=" ++ literalOf value ++ ")").toList = _
    simp [outline, shown, shownFields, commaSeparated, List.intercalate]
  | integerLiteral t value =>
    show ("IntegerLiteral(value=" ++ toString value ++ ")").toList = _
    simp [outline, shown, shownFields, commaSeparated, List.intercalate]
  | boolean t value =>
    show ("Boolean(value=" ++ describeBool value ++ ")").toList = _
    simp [outline, shown, shownFields, commaSeparated, List.intercalate, toList_describeBool]
  | prefixExpression t operator right =>
    show ("PrefixExpression(operator=" ++ literalOf operator ++ ", right=" ++
      describeChild right ++ ")").toList = _
    simp [outline, shown, shownFields, commaSeparated, List.intercalate, toList_describeChild]
  | infixExpression t left operator right =>
    show ("InfixExpression(left=" ++ describeChild left ++ ", operator=" ++ literalOf operator ++
      ", right=" ++ describeChild right ++ ")").toList = _
    simp [outline, shown, shownFields, commaSeparated, List.intercalate, toList_describeChild]
  | ifExpression t condition consequence alternative =>
    show ("IfExpression(condition=" ++ describeChild condition ++ ", consequence=" ++
      describeChild consequence ++ ", alternative=" ++ describeChild alternative ++ ")").toList = _
    simp [outline, shown, shownFields, commaSeparated, List.intercalate, toList_describeChild]
  | functionLiteral t parameters body =>
    show ("FunctionLiteral(parameters=" ++ bracketed (describeEach parameters) ++ ", body=" ++
      describeChild body ++ ")").toList = _
    simp [outline, shown, shownFields, commaSeparated, List.intercalate, toList_bracketed,
      toList_describeEach, toList_describeChild]
  | callExpression t function arguments =>
    show ("CallExpression(function=" ++ describeChild function ++ ", arguments=" ++
      bracketed (describeChildren arguments) ++ ")").toList = _
    simp [outline, shown, shownFields, commaSeparated, List.intercalate, toList_bracketed,
      toList_describeChildren, toList_describeChild]
  | letStatement t name value =>
    show ("LetStatement(name=" ++ describeChild name ++ ", value=" ++ describeChild value ++
      ")").toList = _
    simp [outline, shown, shownFields, commaSeparated, List.intercalate, toList_describeChild]
  | returnStatement t value =>
    show ("ReturnStatement(return_value=" ++ describeChild value ++ ")").toList = _
    simp [outline, shown, shownFields, commaSeparated, List.intercalate, toList_describeChild]
  | expressionStatement t expression =>
    show ("ExpressionStatement(expression=" ++ describeChild expression ++ ")").toList = _
    simp [outline, shown, shownFields, commaSeparated, List.intercalate, toList_describeChild]
  | blockStatement t ss =>
    show ("BlockStatement(statements=" ++ bracketed (describeEach ss) ++ ")").toList = _
    simp [outline, shown, shownFields, commaSeparated, List.intercalate, toList_bracketed,
      toList_describeEach]

theorem toList_describeChild (v : Option Node) :
    (describeChild v).toList = (outlineChild v).shown := by
  cases v with
  | none => rfl
  | some n => exact toList_describe n

theorem toList_describeEach (ns : List Node) :
    (describeEach ns).map String.toList = shownEach (outlineEach ns) := by
  cases ns with
  | nil => rfl
  | cons n ns =>
    rw [describeEach, outlineEach, shownEach, List.map_cons, toList_describe n,
      toList_describeEach ns]

theorem toList_describeChildren (vs : List (Option Node)) :
    (describeChildren vs).map String.toList = shownEach (outlineChildren vs) := by
  cases vs with
  | nil => rfl
  | cons v vs =>
    rw [describeChildren, outlineChildren, shownEach, List.map_cons, toList_describeChild v,
      toList_describeChildren vs]

end

open Outline in
mutual

/-- The kinds and fields of trees have names that can be told from what is around them. -/
theorem wellNamed_outline (n : Node) : n.outline.WellNamed := by
  cases n with
  -- the names are fixed, and each is looked at once
  | bare family t => cases family <;> exact .of_fields (by decide) .nil
  | sequence items => exact .list (wellNamed_outlineEach items)
  | program ss =>
    exact .of_fields (by decide) (.cons (by decide) (.list (wellNamed_outlineEach ss)) .nil)
  | identifier t value =>
    exact .of_fields (by decide) (.cons (by decide) (.text value) .nil)
  | integerLiteral t value =>
    exact .of_fields (by decide) (.cons (by decide) (.integer value) .nil)
  | boolean t value =>
    exact .of_fields (by decide) (.cons (by decide) (.flag value) .nil)
  | prefixExpression t operator right =>
    exact .of_fields (by decide) (.cons (by decide) (.text operator)
      (.cons (by decide) (wellNamed_outlineChild right) .nil))
  | infixExpression t left operator right =>
    exact .of_fields (by decide) (.cons (by decide) (wellNamed_outlineChild left)
      (.cons (by decide) (.text operator)
      (.cons (by decide) (wellNamed_outlineChild right) .nil)))
  | ifExpression t condition consequence alternative =>
    exact .of_fields (by decide) (.cons (by decide) (wellNamed_outlineChild condition)
      (.cons (by decide) (wellNamed_outlineChild consequence)
      (.cons (by decide) (wellNamed_outlineChild alternative) .nil)))
  | functionLiteral t parameters body =>
    exact .of_fields (by decide) (.cons (by decide) (.list (wellNamed_outlineEach parameters))
      (.cons (by decide) (wellNamed_outlineChild body) .nil))
  | callExpression t function arguments =>
    exact .of_fields (by decide) (.cons (by decide) (wellNamed_outlineChild function)
      (.cons (by decide) (.list (wellNamed_outlineChildren arguments)) .nil))
  | letStatement t name value =>
    exact .of_fields (by decide) (.cons (by decide) (wellNamed_outlineChild name)
      (.cons (by decide) (wellNamed_outlineChild value) .nil))
  | returnStatement t value =>
    exact .of_fields (by decide) (.cons (by decide) (wellNamed_outlineChild value) .nil)
  | expressionStatement t expression =>
    exact .of_fields (by decide) (.cons (by decide) (wellNamed_outlineChild expression) .nil)
  | blockStatement t ss =>
    exact .of_fields (by decide) (.cons (by decide) (.list (wellNamed_outlineEach ss)) .nil)

theorem wellNamed_outlineChild (v : Option Node) : (outlineChild v).WellNamed := by
  cases v with
  | none => exact .absent
  | some n => exact wellNamed_outline n

theorem wellNamed_outlineEach (ns : List Node) : ∀ o ∈ outlineEach ns, o.WellNamed := by
  cases ns with
  | nil => exact nofun
  | cons n ns => exact List.forall_mem_cons.2 ⟨wellNamed_outline n, wellNamed_outlineEach ns⟩

theorem wellNamed_outlineChildren (vs : List (Option Node)) :
    ∀ o ∈ outlineChildren vs, o.WellNamed := by
  cases vs with
  | nil => exact nofun
  | cons v vs =>
    exact List.forall_mem_cons.2 ⟨wellNamed_outlineChild v, wellNamed_outlineChildren vs⟩

end

/-! ## Tokens -/

open Outline in
mutual

/-- The texts of the tokens in an outline are those of the nodes, in the order of a walk. -/
theorem tokens_outline (n : Node) : n.outline.tokens = n.walk.map literal := by
  cases n with
  | bare family t =>
    rw [outline_bare]
    rfl
  | _ =>
    simp [outline, tokens, tokensFields, walk, literal, tokens_outlineChild, tokens_outlineEach,
      tokens_outlineChildren]

theorem tokens_outlineChild (v : Option Node) :
    (outlineChild v).tokens = (walkChild v).map literal := by
  cases v with
  | none => rfl
  | some n => exact tokens_outline n

theorem tokens_outlineEach (ns : List Node) :
    tokensEach (outlineEach ns) = (walkEach ns).map literal := by
  cases ns with
  | nil => rfl
  | cons n ns =>
    rw [outlineEach, tokensEach, walkEach, List.map_append, tokens_outline n, tokens_outlineEach ns]

theorem tokens_outlineChildren (vs : List (Option Node)) :
    tokensEach (outlineChildren vs) = (walkChildren vs).map literal := by
  cases vs with
  | nil => rfl
  | cons v vs =>
    rw [outlineChildren, tokensEach, walkChildren, List.map_append, tokens_outlineChild v,
      tokens_outlineChildren vs]

end

mutual

/-- A tree without its tokens is walked over as the tree itself is. -/
theorem walk_withoutTokens (n : Node) : n.withoutTokens.walk = n.walk.map withoutTokens := by
  cases n <;>
    simp [withoutTokens, walk, walkChild_withoutTokens, walkEach_withoutTokens,
      walkChildren_withoutTokens]

theorem walkChild_withoutTokens (v : Option Node) :
    walkChild (withoutTokensChild v) = (walkChild v).map withoutTokens := by
  cases v with
  | none => rfl
  | some n => exact walk_withoutTokens n

theorem walkEach_withoutTokens (ns : List Node) :
    walkEach (withoutTokensEach ns) = (walkEach ns).map withoutTokens := by
  cases ns with
  | nil => rfl
  | cons n ns =>
    rw [withoutTokensEach, walkEach, walkEach, List.map_append, walk_withoutTokens n,
      walkEach_withoutTokens ns]

theorem walkChildren_withoutTokens (vs : List (Option Node)) :
    walkChildren (withoutTokensChildren vs) = (walkChildren vs).map withoutTokens := by
  cases vs with
  | nil => rfl
  | cons v vs =>
    rw [withoutTokensChildren, walkChildren, walkChildren, List.map_append,
      walkChild_withoutTokens v, walkChildren_withoutTokens vs]

end

/-- In a walk over trees that are the same, each node is at the place of one that is the same. -/
theorem forall₂_walk_of_same {a b : Node} (h : a.same b = true) :
    List.Forall₂ (fun m n => m.same n = true) a.walk b.walk := by
  have hwalk : a.walk.map withoutTokens = b.walk.map withoutTokens := by
    rw [← walk_withoutTokens, ← walk_withoutTokens, (same_iff_withoutTokens a b).1 h]
  rw [← List.forall₂_eq_eq_eq, List.forall₂_map_left_iff, List.forall₂_map_right_iff] at hwalk
  exact hwalk.imp fun m n => (same_iff_withoutTokens m n).2

/-- Trees are the same exactly if their descriptions are. -/
theorem same_iff_describe (a b : Node) : a.same b = true ↔ a.describe = b.describe := by
  -- a description is read back to the outline without its tokens
  rw [same_iff_withoutTokens, ← outline_withoutTokens_iff]
  constructor
  · intro h
    have hshown : a.outline.shown = b.outline.shown := by
      rw [← Outline.shown_withoutTokens a.outline, h, Outline.shown_withoutTokens]
    rw [← String.toList_inj, toList_describe, toList_describe, hshown]
  · intro h
    -- nothing is behind a description
    have hshown : a.outline.shown ++ [] = b.outline.shown ++ [] := by
      rw [← toList_describe, ← toList_describe, h]
    exact (Outline.shown_append_inj (wellNamed_outline a) (wellNamed_outline b)
      Outline.closes_nil Outline.closes_nil hshown).1

/-- Trees have the same outline exactly if they are the same and the texts of their tokens are. -/
theorem outline_eq_iff (a b : Node) :
    a.outline = b.outline ↔ a.same b = true ∧ a.walk.map literal = b.walk.map literal := by
  rw [same_iff_withoutTokens, ← outline_withoutTokens_iff, ← tokens_outline, ← tokens_outline]
  constructor
  · intro h
    exact ⟨congrArg _ h, congrArg _ h⟩
  · rintro ⟨htree, htokens⟩
    exact (Outline.eq_of_withoutTokens htree (congrArg (· ++ []) htokens)).1

end Node

/-! ## All ways of comparing trees -/

/-- Trees are equal exactly if they are described by the same text, and their outlines are equal
exactly if moreover their tokens have the same texts at all corresponding nodes. Equality of trees
is an equivalence that looks at no token, and nodes correspond that a walk comes to at the same
time. -/
theorem describe_eq_iff_same :
    (∀ a b : Node, (a == b) = true ↔ a.describe = b.describe) ∧
      (∀ a b : Node, a.outline = b.outline ↔
        (a == b) = true ∧ List.Forall₂ (fun m n => m.literal = n.literal) a.walk b.walk) ∧
      (∀ a b : Node, (a == b) = true → List.Forall₂ (fun m n => (m == n) = true) a.walk b.walk) ∧
      (∀ a b : Node, (a == b) = true ↔ a.withoutTokens = b.withoutTokens) ∧
      Equivalence fun a b : Node => (a == b) = true := by
  refine ⟨Node.same_iff_describe, ?_, fun a b => Node.forall₂_walk_of_same,
    Node.same_iff_withoutTokens, ?_⟩
  · intro a b
    rw [Node.outline_eq_iff, ← List.forall₂_eq_eq_eq, List.forall₂_map_left_iff,
      List.forall₂_map_right_iff]
    rfl
  · -- it is the equality of what is described
    have hsame : (fun a b : Node => (a == b) = true) = InvImage Eq Node.describe := by
      funext a b
      exact propext (Node.same_iff_describe a b)
    rw [hsame]
    exact ⟨fun _ => rfl, Eq.symm, Eq.trans⟩

/-- A name with a quote in it, made from a token and from none: one tree, one description, and two
outlines. -/
theorem describe_eq_of_quote :
    let placed := Node.prefixExpression (some (.unplaced .bang "!")) "!"
      (some (.identifier (some (.unplaced .ident "it's")) "it's"))
    let bare := Node.prefixExpression none "!" (some (.identifier none "it's"))
    placed.describe = bare.describe ∧
      List.Forall₂ (fun m n => (m == n) = true) placed.walk bare.walk ∧
      placed.outline ≠ bare.outline := by
  intro placed bare
  obtain ⟨hdescribe, houtline, hwalk, -⟩ := describe_eq_iff_same
  have hsame : (placed == bare) = true := (Node.same_iff_withoutTokens placed bare).2 rfl
  refine ⟨(hdescribe placed bare).1 hsame, hwalk placed bare hsame, ?_⟩
  intro h
  -- the tokens differ at the root already
  have hliterals := ((houtline placed bare).1 h).2
  cases hliterals with
  | cons hroot _ => exact absurd hroot (by decide)

end Pratt
