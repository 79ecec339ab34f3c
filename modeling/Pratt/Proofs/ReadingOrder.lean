import Mathlib.Data.List.Flatten
import Pratt.Proofs.Shape
import Pratt.Proofs.SourceOrder

/-!
# Pratt — a tree keeps the order of its tokens

The tokens that the nodes of a tree were made from can be listed in the order in which they are
read: an operator between its operands, the opening parenthesis of a call between what is called and
its arguments, and any other token in front of the parts of its node. Whatever was reported, skipped
or given up on the way, this list is a part of the tokens of the source, none of them used twice and
none out of order.

An expression that stands as a statement has a token as well, the one that the expression starts
with. It may be the token of another node and may be that of none. `Node.marks` lists both sorts of
tokens, and marks which is which. `Window.Carries` is what runs are about: the marks come in order at
the tokens that are read, at each token that of a statement in front of that of a node. What is known
of a part of an expression is always known with the start of its first token in front
(`Goal.Lays`), so that it may become a statement, and where it goes on from a left operand, the start
is that of the left operand.

* `Parse.laysOut`: the marks of what a run gives come in order at the tokens it has read.
* `marks_sublist_of_parseProgram`: so do those of a parsed source, at its tokens.
* `tokens_in_reading_order`: the tokens of a tree are in the order of the source.
-/

namespace Pratt

open scoped List

/-! ## The marks of a tree -/

/-- What a tree says of a token: that a node other than a statement of just an expression was made
from it, or that such a statement starts at it. -/
inductive Mark where
  | own (t : Token)
  | start (t : Token)
  deriving DecidableEq, Repr

namespace Mark

/-- The token that the mark is at. -/
def token : Mark → Token
  | .own t | .start t => t

/-- The token of a node. -/
def own? : Mark → Option Token
  | .own t => some t
  | .start _ => none

/-- The second mark is not at an earlier token, and at a later one if it is the start of a
statement. -/
def Before (m : Mark) : Mark → Prop
  | .own t => m.token.location ≤ t.location
  | .start t => m.token.location < t.location

/-- A mark before another one is not at a later location. -/
theorem Before.le {m m' : Mark} (h : m.Before m') : m.token.location ≤ m'.token.location := by
  cases m' with
  | own t => exact h
  | start t => exact le_of_lt h

/-- A mark at an earlier location is before another one. -/
theorem Before.of_lt {m m' : Mark} (h : m.token.location < m'.token.location) : m.Before m' := by
  cases m' with
  | own t => exact le_of_lt h
  | start t => exact h

end Mark

/-- The marks that a token can have, in their order. -/
def Token.marks (t : Token) : List Mark :=
  [.start t, .own t]

/-- Both marks of a token are at the token. -/
theorem Token.of_mem_marks {t : Token} {m : Mark} (hm : m ∈ t.marks) : m.token = t := by
  rw [marks, List.mem_cons, List.mem_singleton] at hm
  rcases hm with rfl | rfl
  · rfl
  · rfl

/-- Of all marks at some tokens those of the nodes are at each token once. -/
theorem filterMap_own?_marks (ts : List Token) :
    (ts.flatMap Token.marks).filterMap Mark.own? = ts := by
  induction ts with
  | nil => rfl
  | cons t ts ih => exact congrArg (t :: ·) ih

/-- The marks that are not at the end of the input are those of the tokens that are not. -/
theorem filter_marks (ts : List Token) :
    (ts.flatMap Token.marks).filter (·.token.kind ≠ .eof) =
      (ts.filter (·.kind ≠ .eof)).flatMap Token.marks := by
  induction ts with
  | nil => rfl
  | cons t ts ih =>
    have hboth : t.marks.filter (·.token.kind ≠ .eof) = if t.kind ≠ .eof then t.marks else [] := by
      by_cases heof : t.kind = .eof <;> simp [Token.marks, Mark.token, heof]
    rw [List.flatMap_cons, List.filter_append, ih, hboth]
    by_cases heof : t.kind = .eof
    · rw [if_neg (not_not.2 heof), List.filter_cons_of_neg (by simpa using heof), List.nil_append]
    · rw [if_pos heof, List.filter_cons_of_pos (by simpa using heof), List.flatMap_cons]

namespace Node

/-- The mark of the token that a node was made from. -/
def ownMarks (t : Option Token) : List Mark :=
  t.toList.map .own

mutual

/-- The marks of a tree in the order in which its tokens are read. -/
def marks : Node → List Mark
  | .program statements => marksEach statements
  | .identifier t _ | .integerLiteral t _ | .boolean t _ | .bare _ t => ownMarks t
  | .prefixExpression t _ right => ownMarks t ++ marksChild right
  | .infixExpression t left _ right => marksChild left ++ ownMarks t ++ marksChild right
  | .ifExpression t condition consequence alternative =>
    ownMarks t ++ marksChild condition ++ marksChild consequence ++ marksChild alternative
  | .functionLiteral t parameters body => ownMarks t ++ marksEach parameters ++ marksChild body
  | .callExpression t function arguments =>
    marksChild function ++ ownMarks t ++ marksChildren arguments
  | .letStatement t name value => ownMarks t ++ marksChild name ++ marksChild value
  | .returnStatement t value => ownMarks t ++ marksChild value
  | .expressionStatement t expression => t.toList.map .start ++ marksChild expression
  | .blockStatement t statements => ownMarks t ++ marksEach statements
  | .sequence items => marksEach items

/-- The marks of a child, none where it is absent. -/
def marksChild : Option Node → List Mark
  | none => []
  | some n => n.marks

/-- The marks of several nodes. -/
def marksEach : List Node → List Mark
  | [] => []
  | n :: ns => n.marks ++ marksEach ns

/-- The marks of several children. -/
def marksChildren : List (Option Node) → List Mark
  | [] => []
  | n :: ns => marksChild n ++ marksChildren ns

end

/-- The tokens of a tree in the order in which they are read. A statement of just an expression
contributes those of the expression. -/
def tokens (n : Node) : List Token :=
  n.marks.filterMap Mark.own?

/-- The list of statements that a node consists of. -/
def statements : Node → List Node
  | .program statements | .blockStatement _ statements => statements
  | _ => []

/-- The marks of lists put together are those of the lists. -/
theorem marksEach_append (ns ms : List Node) :
    marksEach (ns ++ ms) = marksEach ns ++ marksEach ms := by
  induction ns with
  | nil => rfl
  | cons n ns ih => rw [List.cons_append, marksEach, marksEach, ih, List.append_assoc]

theorem marksChildren_map_some (ns : List Node) : marksChildren (ns.map some) = marksEach ns := by
  induction ns with
  | nil => rfl
  | cons n ns ih => rw [List.map_cons, marksChildren, marksEach, ih, marksChild]

/-- The marks of the statements of a node are the last ones of the node. -/
theorem marksEach_statements_suffix (n : Node) : marksEach n.statements <:+ n.marks := by
  cases n with
  | program ns =>
    rw [marks]
    exact List.suffix_refl _
  | blockStatement t ns =>
    rw [marks]
    exact List.suffix_append _ _
  | _ => exact List.nil_suffix

end Node

/-! ## What is laid out between two windows -/

variable {σ : Type} [TokenSource σ]

/-- Between the two windows the marks come in order at the tokens that are read. -/
def Window.Carries (w : Window σ) (ms : List Mark) (w' : Window σ) : Prop :=
  ∃ ts, w.Reads ts w' ∧ ms <+ ts.flatMap Token.marks

namespace Window.Carries

variable {w v w' : Window σ} {ms ns : List Mark}

theorem nil (w : Window σ) : w.Carries [] w :=
  ⟨[], rfl, .slnil⟩

/-- What is carried up to a window and from there on is carried in all. -/
theorem append (h : w.Carries ms v) (h' : v.Carries ns w') : w.Carries (ms ++ ns) w' := by
  obtain ⟨ts, hts, hms⟩ := h
  obtain ⟨us, hus, hns⟩ := h'
  refine ⟨ts ++ us, hts.append hus, ?_⟩
  rw [List.flatMap_append]
  exact hms.append hns

/-- Fewer marks are carried as well. -/
theorem of_sublist (h : w.Carries ms w') (hns : ns <+ ms) : w.Carries ns w' := by
  obtain ⟨ts, hts, hms⟩ := h
  exact ⟨ts, hts, hns.trans hms⟩

/-- The current token starts a statement and then makes a node. -/
theorem current (w : Window σ) : w.Carries [.start w.current, .own w.current] w.advance :=
  ⟨[w.current], w.reads_current, List.Sublist.refl _⟩

/-- A token that is read and marked by nothing does no harm. -/
theorem advance (h : w.Carries ms w') : w.Carries ms w'.advance := by
  have hnext : w'.Carries [] w'.advance := (current w').of_sublist (List.nil_sublist _)
  have hboth := h.append hnext
  rwa [List.append_nil] at hboth

/-- A node is made from the current token. -/
theorem own (h : w.Carries ms w') : w.Carries (ms ++ [.own w'.current]) w'.advance :=
  h.append ((current w').of_sublist (List.sublist_cons_self _ _))

/-- What is laid out behind a start is laid out. -/
theorem behind {m : Mark} (h : w.Carries (m :: ms) w') : w.Carries ms w' :=
  h.of_sublist (List.sublist_cons_self _ _)

/-- The first mark is laid out, whatever becomes of those behind it. -/
theorem first {m : Mark} (h : w.Carries (m :: ms) w') : w.Carries [m] w' :=
  h.of_sublist (List.singleton_sublist.2 List.mem_cons_self)

theorem skip {y : View σ} (h : w.Carries ms y.window.advance) (optional : Kind) :
    w.Carries ms (y.skip optional).window.advance := by
  unfold View.skip
  split
  · exact h.advance
  · exact h

end Window.Carries

/-- Where only the reading is known, no marks are. -/
theorem View.Follows.carries {x y : View σ} (h : x.Follows y) : x.window.Carries [] y.window := by
  obtain ⟨⟨ts, hts⟩, -⟩ := h
  exact ⟨ts, hts, List.nil_sublist _⟩

/-! ## What a run lays out -/

/-- What a goal gives is laid out at the tokens that are read for it. -/
def Goal.Lays (x : View σ) : (g : Goal) → g.Result → View σ → Prop
  | .program, n, y => x.window.Carries n.marks y.window
  | .statements _, ns, y => x.window.Carries (Node.marksEach ns) y.window
  | .statement, v, y | .letStatement, v, y | .blockStatement, v, y =>
    x.window.Carries (Node.marksChild v) y.window.advance
  | .returnStatement, n, y | .expressionStatement, n, y =>
    x.window.Carries n.marks y.window.advance
  | .identifier, n, y | .boolean, n, y =>
    x.window.Carries (.start x.current :: n.marks) y.window.advance
  | .expression _, v, y | .integerLiteral, v, y | .prefixExpression, v, y
  | .groupedExpression, v, y | .ifExpression, v, y | .functionLiteral, v, y =>
    x.window.Carries (.start x.current :: Node.marksChild v) y.window.advance
  -- The left part may begin anywhere in front of what is read here.
  | .continuation _ left, v, y => ∀ w : Window σ,
    w.Carries (.start w.current :: left.marks) x.window.advance →
      w.Carries (.start w.current :: Node.marksChild v) y.window.advance
  | .infixExpression left, v, y | .callExpression left, v, y => ∀ w : Window σ,
    w.Carries (.start w.current :: Node.marksChild left) x.window →
      w.Carries (.start w.current :: Node.marksChild v) y.window.advance
  | .functionParameters, v, y | .parameters, v, y | .expressionList _, v, y =>
    x.window.advance.Carries (Node.marksEach (v.getD [])) y.window.advance
  | .expressions, vs, y => x.window.Carries (Node.marksChildren vs) y.window.advance
  | .recovery _, _, _ => True

namespace Parse

variable {fuel : Nat} {x : View σ}

/-- Runs with this much fuel lay out what they give. -/
def LaysOut (σ : Type) [TokenSource σ] (fuel : Nat) : Prop :=
  ∀ (g : Goal) (x : View σ), Ensures (run fuel g) x (g.Lays x) fun _ _ => True

namespace LaysOut

variable (sub : LaysOut σ fuel)
include sub

/-- What is laid out for a statement is in front of what is laid out for the next ones. -/
theorem statements (x : View σ) (closer : Kind) :
    Ensures (statements (run fuel) closer) x ((Goal.statements closer).Lays x)
      fun _ _ => True := by
  refine ensures_statements (fun _ => .nil _) fun _ => ?_
  -- behind a statement that was given up only the reading is known, up to where it ended
  have given := (sub .statement x).and (ensures_run_follows fuel .statement x)
  refine given.imp ?_ fun _ _ _ => trivial
  intro v y ⟨hv, hxy⟩
  refine ⟨?_, ?_⟩
  · rintro n rfl
    exact (sub (.statements closer) y.advance).imp_result fun ns z hns => hv.append hns
  · intro _
    refine (ensures_run_follows fuel (.recovery 0) y).imp ?_ fun _ _ _ => trivial
    intro _ z hyz
    have hskipped := (hxy.trans hyz).carries.advance
    exact (sub (.statements closer) z.advance).imp_result fun ns u hns => hskipped.append hns

/-- The mark of the name is between that of the word and those of the value. -/
theorem letStatement (x : View σ) :
    Ensures (letStatement (run fuel)) x (Goal.letStatement.Lays x) fun _ _ => True := by
  have hstart : x.window.Carries [] x.window := .nil _
  refine ensures_letStatement (fun _ => hstart.advance) (fun _ _ => hstart.advance.advance) ?_
  intro _ _
  refine (sub (.expression 1) x.advance.advance.advance).imp_result fun v y hv => ?_
  -- the word, the name, the sign, and the value
  have hname := hstart.own.own
  exact (hname.advance.append hv.behind).skip _

/-- Each operand starts at the current token, and what goes on has it as its left part. -/
theorem expression (x : View σ) (bound : Int) :
    Ensures (expression (run fuel) bound) x ((Goal.expression bound).Lays x) fun _ _ => True := by
  have operand : Ensures (operand (run fuel)) x ((Goal.expression bound).Lays x) fun _ _ => True :=
    ensures_operand (fun _ => (Window.Carries.current x.window).first) (fun _ => sub .identifier x)
      (fun _ => sub .integerLiteral x) (fun _ => sub .boolean x)
      (fun _ => sub .prefixExpression x) (fun _ => sub .groupedExpression x)
      (fun _ => sub .ifExpression x) fun _ => sub .functionLiteral x
  refine ensures_expression (operand.imp_result fun v y hv => ⟨?_, ?_⟩)
  · rintro rfl
    exact hv
  · rintro left rfl
    exact (sub (.continuation bound left) y).imp_result fun u z hu => hu _ hv

/-- What an expression goes on as lays out all that it goes on from, and is gone on with from
there. -/
theorem longer {x y : View σ} {bound : Int} {left : Node} {v : Option Node}
    (hv : ∀ w : Window σ, w.Carries (.start w.current :: left.marks) x.window.advance →
      w.Carries (.start w.current :: Node.marksChild v) y.window.advance) :
    (v = none → (Goal.continuation bound left).Lays x none y) ∧
      ∀ longer, v = some longer → Ensures (run fuel (.continuation bound longer)) y
        ((Goal.continuation bound left).Lays x) fun _ _ => True := by
  refine ⟨?_, ?_⟩
  · rintro rfl
    exact hv
  · rintro longer rfl
    refine (sub (.continuation bound longer) y).imp_result fun u z hu => ?_
    exact fun w hw => hu w (hv w hw)

/-- The left part grows to the right, so its marks stay in front. -/
theorem continuation (x : View σ) (bound : Int) (left : Node) :
    Ensures (continuation (run fuel) bound left) x ((Goal.continuation bound left).Lays x)
      fun _ _ => True := by
  refine ensures_continuation (fun _ w hw => hw) (fun _ _ => ?_) fun _ _ => ?_
  · exact (sub (.infixExpression left) x.advance).imp_result fun v y hv => sub.longer hv
  · exact (sub (.callExpression left) x.advance).imp_result fun v y hv => sub.longer hv

/-- The operator stands between its operands. -/
theorem infixExpression (x : View σ) (left : Option Node) :
    Ensures (infixExpression (run fuel) left) x ((Goal.infixExpression left).Lays x)
      fun _ _ => True := by
  refine ensures_infixExpression ?_
  refine (sub (.expression _) x.advance).imp_result fun v y hv => ?_
  intro w hleft
  have hboth := hleft.own.append hv.behind
  cases v with
  | none => exact hboth.first
  | some right => exact hboth

/-- The parenthesis stands between what is called and the arguments. -/
theorem callExpression (x : View σ) (function : Option Node) :
    Ensures (callExpression (run fuel) function) x ((Goal.callExpression function).Lays x)
      fun _ _ => True := by
  refine ensures_callExpression ?_
  refine (sub (.expressionList .rightParen) x).imp_result fun v y hv => ?_
  intro w hfunction
  have hboth := hfunction.own.append hv
  cases v with
  | none => exact hboth.first
  | some arguments =>
    show w.Carries (_ :: (Node.callExpression _ _ _).marks) _
    rw [Node.marks, Node.marksChildren_map_some]
    exact hboth

/-- The marks of an alternative are behind its word, if there are any. -/
theorem alternative (x : View σ) :
    Ensures (alternative (run fuel)) x
      (fun v y => x.window.advance.Carries (Node.marksChild (v.getD none)) y.window.advance)
      fun _ _ => True := by
  have hstart : x.window.advance.Carries [] x.window.advance := .nil _
  refine ensures_alternative (fun _ => hstart) (fun _ _ => hstart.advance) fun _ _ => ?_
  refine (sub .blockStatement x.advance.advance).imp_result fun v y hv => ?_
  have hboth := hstart.advance.append hv
  cases v with
  | none => exact hboth
  | some n => exact hboth

/-- The parts of a conditional are laid out one after the other, or not at all. -/
theorem ifExpression (x : View σ) :
    Ensures (ifExpression (run fuel)) x (Goal.ifExpression.Lays x) fun _ _ => True := by
  have hword := Window.Carries.current x.window
  refine ensures_ifExpression (fun _ => hword.first) fun _ => ?_
  refine (sub (.expression 1) x.advance.advance).imp_result fun c y hc => ?_
  have hcondition := hword.advance.append hc.behind
  refine ⟨fun _ => hcondition.first, fun _ _ => hcondition.advance.first, fun _ _ => ?_⟩
  refine (sub .blockStatement y.advance.advance).imp_result fun b z hb => ?_
  have hfirst := hcondition.advance.append hb
  refine ⟨fun _ => hfirst.first, ?_⟩
  rintro consequence rfl
  refine (sub.alternative z).imp_result fun a u ha => ?_
  have hboth := hfirst.append ha
  -- the tree needs both the condition and the alternative
  cases a with
  | none => exact hboth.first
  | some other =>
    cases c with
    | none => exact hboth.first
    | some condition => exact hboth

/-- The parameters of a function are laid out, and then its body. -/
theorem functionLiteral (x : View σ) :
    Ensures (functionLiteral (run fuel)) x (Goal.functionLiteral.Lays x) fun _ _ => True := by
  have hword := Window.Carries.current x.window
  refine ensures_functionLiteral (fun _ => hword.first) fun _ => ?_
  refine (sub .functionParameters x.advance).imp_result fun ps y hps => ?_
  have hparameters := hword.advance.append hps
  refine ⟨fun _ => hparameters.first, fun _ _ _ => hparameters.first, ?_⟩
  rintro names rfl _
  refine (sub .blockStatement y.advance).imp_result fun b z hb => ?_
  have hboth := hparameters.append hb
  cases b with
  | none => exact hboth.first
  | some body => exact hboth

/-- Each name is marked where it is read. -/
theorem parameters (x : View σ) :
    Ensures (parameters (run fuel)) x (Goal.parameters.Lays x) fun _ _ => True := by
  have hstart : x.window.advance.Carries [] x.window.advance := .nil _
  have hname := hstart.own
  refine ensures_parameters (fun _ => hstart) (fun _ _ => ?_) (fun _ _ => hname.advance)
    fun _ _ _ => hstart.advance
  refine (sub .parameters x.advance.advance).imp_result fun v y hv => ?_
  have hboth := hname.advance.append hv
  cases v with
  | none => exact hboth.of_sublist (List.nil_sublist _)
  | some later => exact hboth

/-- The items of a list that is not given go by without a mark. -/
theorem expressionList (x : View σ) (closing : Kind) :
    Ensures (expressionList (run fuel) closing) x ((Goal.expressionList closing).Lays x)
      fun _ _ => True := by
  have hstart : x.window.advance.Carries [] x.window.advance := .nil _
  refine ensures_expressionList (fun _ => hstart.advance) fun _ => ?_
  refine (sub .expressions x.advance).imp_result fun vs y hvs => ⟨fun _ => ?_, fun _ => ?_⟩
  · cases hitems : vs.mapM id with
    | none => exact hvs.advance.of_sublist (List.nil_sublist _)
    | some as =>
      rw [eq_map_some_of_mapM_id hitems] at hvs
      have hall := Window.Carries.advance hvs
      rwa [Node.marksChildren_map_some] at hall
  · exact hvs.of_sublist (List.nil_sublist _)

/-- Each item is laid out behind the comma before it. -/
theorem expressions (x : View σ) :
    Ensures (expressions (run fuel)) x (Goal.expressions.Lays x) fun _ _ => True := by
  refine ensures_expressions ?_
  refine (sub (.expression 1) x).imp_result fun v y hv => ⟨fun _ => ?_, fun _ => ?_⟩
  · refine (sub .expressions y.advance.advance).imp_result fun vs z hvs => ?_
    exact hv.behind.advance.append hvs
  · exact hv.behind.append (.nil _)

/-- The mark of the word is in front of those of the value. -/
theorem returnStatement (x : View σ) :
    Ensures (returnStatement (run fuel)) x (Goal.returnStatement.Lays x) fun _ _ => True := by
  have hword := Window.Carries.current x.window
  refine ensures_returnStatement ?_
  refine (sub (.expression 1) x.advance).imp_result fun v y hv => ?_
  exact (hword.behind.append hv.behind).skip _

/-- A block that is left open has no marks, and what was read for it goes by. -/
theorem blockStatement (x : View σ) :
    Ensures (blockStatement (run fuel)) x (Goal.blockStatement.Lays x) fun _ _ => True := by
  have hbrace := Window.Carries.current x.window
  refine ensures_blockStatement ?_
  refine (sub (.statements .rightBrace) x.advance).imp_result fun ns y hns => ?_
  have hboth := (hbrace.behind.append hns).advance
  exact ⟨fun _ => hboth.of_sublist (List.nil_sublist _), fun _ => hboth⟩

/-- The operator stands in front of its operand. -/
theorem prefixExpression (x : View σ) :
    Ensures (prefixExpression (run fuel)) x (Goal.prefixExpression.Lays x) fun _ _ => True := by
  have hoperator := Window.Carries.current x.window
  refine ensures_prefixExpression ?_
  refine (sub (.expression 6) x.advance).imp_result fun v y hv => ?_
  have hboth := hoperator.append hv.behind
  cases v with
  | none => exact hboth.first
  | some right => exact hboth

/-- The parenthesis makes no node, but an expression statement starts at it. -/
theorem groupedExpression (x : View σ) :
    Ensures (groupedExpression (run fuel)) x (Goal.groupedExpression.Lays x) fun _ _ => True := by
  have hopening := Window.Carries.current x.window
  refine ensures_groupedExpression ?_
  refine (sub (.expression 1) x.advance).imp_result fun v y hv => ?_
  have hinside := hopening.first.append hv.behind
  exact ⟨fun _ => hinside.advance, fun _ => hinside.first⟩

/-- Every rule lays out what it gives, if the goals that it leads to do. -/
theorem step (g : Goal) (x : View σ) :
    Ensures (step (run fuel) g) x (g.Lays x) fun _ _ => True := by
  have hword := Window.Carries.current x.window
  cases g with
  | program => exact ensures_program (sub (.statements .eof) x)
  | statement =>
    refine ensures_statement (fun _ => sub .letStatement x) (fun _ => ?_) fun _ _ => ?_
    · exact sub .returnStatement x
    · exact sub .expressionStatement x
  | letStatement => exact sub.letStatement x
  | returnStatement => exact sub.returnStatement x
  | expressionStatement =>
    refine ensures_expressionStatement ?_
    exact (sub (.expression 1) x).imp_result fun v y hv => hv.skip _
  | blockStatement => exact sub.blockStatement x
  | statements closer => exact sub.statements x closer
  | recovery depth => exact ensures_recovery (fun _ => trivial) fun _ _ _ => sub (.recovery _) _
  | expression bound => exact sub.expression x bound
  | continuation bound left => exact sub.continuation x bound left
  | identifier => exact ensures_identifier hword
  | integerLiteral =>
    -- where nothing is given, only the start of it is laid out
    exact ensures_integerLiteral (fun _ _ => hword) (fun _ _ => trivial) fun _ => hword.first
  | boolean => exact ensures_boolean hword
  | prefixExpression => exact sub.prefixExpression x
  | infixExpression left => exact sub.infixExpression x left
  | groupedExpression => exact sub.groupedExpression x
  | ifExpression => exact sub.ifExpression x
  | functionLiteral => exact sub.functionLiteral x
  | functionParameters =>
    have hstart : x.window.advance.Carries [] x.window.advance := .nil _
    exact ensures_functionParameters (fun _ => hstart.advance) fun _ => sub .parameters x
  | parameters => exact sub.parameters x
  | callExpression function => exact sub.callExpression x function
  | expressionList closing => exact sub.expressionList x closing
  | expressions => exact sub.expressions x

end LaysOut

/-- Every run lays out what it gives. -/
theorem laysOut (fuel : Nat) : LaysOut σ fuel := by
  induction fuel with
  | zero => exact fun _ _ => Ensures.throw trivial
  | succ fuel sub => exact fun g x => ensures_run_succ (sub.step g x)

end Parse

/-! ## The nodes of a tree -/

namespace Node

mutual

/-- The marks of a node of a tree are among those of the tree, in their order. -/
theorem marks_sublist_of_mem_walk {m : Node} : ∀ {n : Node}, m ∈ n.walk → m.marks <+ n.marks := by
  intro n hm
  cases n with
  | program | blockStatement =>
    rw [walk, List.mem_cons] at hm
    -- the node itself, or a node below one of its parts
    rcases hm with rfl | hm
    · exact .refl _
    · have hpart := marks_sublist_marksEach hm
      grind [marks]
  | prefixExpression | returnStatement | expressionStatement =>
    rw [walk, List.mem_cons] at hm
    rcases hm with rfl | hm
    · exact .refl _
    · have hpart := marks_sublist_marksChild hm
      grind [marks]
  | infixExpression | letStatement =>
    rw [walk, List.mem_cons, List.mem_append] at hm
    rcases hm with rfl | hm | hm
    · exact .refl _
    all_goals
      have hpart := marks_sublist_marksChild hm
      grind [marks]
  | ifExpression =>
    rw [walk, List.mem_cons, List.mem_append, List.mem_append] at hm
    rcases hm with rfl | (hm | hm) | hm
    · exact .refl _
    all_goals
      have hpart := marks_sublist_marksChild hm
      grind [marks]
  | functionLiteral =>
    rw [walk, List.mem_cons, List.mem_append] at hm
    rcases hm with rfl | hm | hm
    · exact .refl _
    · have hpart := marks_sublist_marksEach hm
      grind [marks]
    · have hpart := marks_sublist_marksChild hm
      grind [marks]
  | callExpression =>
    rw [walk, List.mem_cons, List.mem_append] at hm
    rcases hm with rfl | hm | hm
    · exact .refl _
    · have hpart := marks_sublist_marksChild hm
      grind [marks]
    · have hpart := marks_sublist_marksChildren hm
      grind [marks]
  | sequence =>
    rw [walk] at hm
    exact marks_sublist_marksEach hm
  | _ =>
    rw [walk, List.mem_singleton] at hm
    exact hm ▸ .refl _

/-- The marks of a node in a child are among those of the child. -/
theorem marks_sublist_marksChild {m : Node} :
    ∀ {v : Option Node}, m ∈ walkChild v → m.marks <+ marksChild v := by
  intro v hm
  cases v with
  | none => cases hm
  | some n => exact marks_sublist_of_mem_walk hm

/-- The marks of one of several trees are among those of all. -/
theorem marks_sublist_marksEach {m : Node} :
    ∀ {ns : List Node}, m ∈ walkEach ns → m.marks <+ marksEach ns := by
  intro ns hm
  cases ns with
  | nil => cases hm
  | cons n ns =>
    rw [walkEach, List.mem_append] at hm
    rcases hm with hm | hm
    · exact (marks_sublist_of_mem_walk hm).trans (List.sublist_append_left _ _)
    · exact (marks_sublist_marksEach hm).trans (List.sublist_append_right _ _)

/-- The marks of one of several trees are among those of all, some of which may be absent. -/
theorem marks_sublist_marksChildren {m : Node} :
    ∀ {vs : List (Option Node)}, m ∈ walkChildren vs → m.marks <+ marksChildren vs := by
  intro vs hm
  cases vs with
  | nil => cases hm
  | cons v vs =>
    rw [walkChildren, List.mem_append] at hm
    rcases hm with hm | hm
    · exact (marks_sublist_marksChild hm).trans (List.sublist_append_left _ _)
    · exact (marks_sublist_marksChildren hm).trans (List.sublist_append_right _ _)

end

end Node

/-! ## No mark at the end of the input -/

/-- None of the marks is at the end of the input. -/
def InsideInput (ms : List Mark) : Prop :=
  ∀ m ∈ ms, m.token.kind ≠ .eof

namespace InsideInput

variable {ms ms' : List Mark}

theorem append (h : InsideInput ms) (h' : InsideInput ms') : InsideInput (ms ++ ms') :=
  List.forall_mem_append.2 ⟨h, h'⟩

/-- The mark of a node is inside if its token is not the end of the input. -/
theorem own {t : Token} (h : t.kind ≠ .eof) : InsideInput (Node.ownMarks t) :=
  List.forall_mem_singleton.2 h

theorem child {v : Option Node} (h : ∀ n ∈ v, InsideInput n.marks) :
    InsideInput (Node.marksChild v) := by
  cases v with
  | none => exact nofun
  | some n => exact h n rfl

theorem each {ns : List Node} (h : ∀ n ∈ ns, InsideInput n.marks) :
    InsideInput (Node.marksEach ns) := by
  induction ns with
  | nil => exact nofun
  | cons n ns ih =>
    obtain ⟨hn, hns⟩ := List.forall_mem_cons.1 h
    exact append hn (ih hns)

end InsideInput

/-- In a tree that has its shape each token is of a kind that its node says, and no node is made
from the end of the input. -/
theorem Shaped.insideInput {place : Place} {n : Node} (h : Shaped place n) :
    InsideInput n.marks := by
  induction h with
  | letStatement isWord isName inside ih =>
    have hword := InsideInput.own (isWord.trans_ne nofun)
    have hname := InsideInput.own (isName.trans_ne nofun)
    exact (hword.append hname).append (.child ih)
  | returnStatement isWord inside ih =>
    exact (InsideInput.own (isWord.trans_ne nofun)).append (.child ih)
  | expressionStatement starts inside ih =>
    -- a statement starts at a token that is its own, but not at the end of the input
    have hfirst := (ne_of_mem_of_not_mem (a := Kind.eof) (by simp) starts).symm
    exact InsideInput.append (List.forall_mem_singleton.2 hfirst) (.child ih)
  | blockStatement isBrace inside ih =>
    exact (InsideInput.own (isBrace.trans_ne nofun)).append (.each ih)
  | identifier isName => exact InsideInput.own (isName.trans_ne nofun)
  | integerLiteral isNumber reads => exact InsideInput.own (isNumber.trans_ne nofun)
  | boolean isWord =>
    rcases isWord with isWord | isWord
    · exact InsideInput.own (isWord.trans_ne nofun)
    · exact InsideInput.own (isWord.trans_ne nofun)
  | prefixExpression isOperator operand ih =>
    have hsign := InsideInput.own (ne_of_mem_of_not_mem isOperator (by decide))
    exact hsign.append ih
  | infixExpression isOperator before behind ihBefore ihBehind =>
    have hsign := InsideInput.own (ne_of_mem_of_not_mem isOperator (by decide))
    exact (InsideInput.append ihBefore hsign).append ihBehind
  | ifExpression isWord asked first second ihAsked ihFirst ihSecond =>
    have hword := InsideInput.own (isWord.trans_ne nofun)
    exact ((hword.append ihAsked).append ihFirst).append (.child ihSecond)
  | functionLiteral isWord areNames inside ih =>
    have hword := InsideInput.own (isWord.trans_ne nofun)
    refine (hword.append (.each ?_)).append ih
    intro n hn
    obtain ⟨t, ht, rfl⟩ := List.mem_map.1 hn
    exact InsideInput.own ((areNames t ht).trans_ne nofun)
  | callExpression opens called given ihCalled ihGiven =>
    have hopening := InsideInput.own (opens.trans_ne nofun)
    rw [Node.marks, Node.marksChildren_map_some]
    exact (InsideInput.append ihCalled hopening).append (.each ihGiven)

/-! ## The tokens of a source -/

namespace Cursor

variable {c : Cursor}

/-- What is read of a source are tokens ahead, apart from the end of the input that is read again
and again. -/
theorem filter_sublist_filter_scanAll {ts : List Token} {w : Window Cursor}
    (h : (Window.filled c).Reads ts w) :
    ts.filter (·.kind ≠ .eof) <+ c.scanAll.1.filter (·.kind ≠ .eof) := by
  induction ts generalizing c with
  | nil => exact List.nil_sublist _
  | cons t ts ih =>
    obtain ⟨ht, hlater⟩ := h
    rw [Window.advance_filled] at hlater
    have hsub := ih hlater
    have ht : c.scan.1 = t := ht
    by_cases heof : t.kind = .eof
    -- behind the end of the input there is only the end of the input
    · have hnext := scan_of_eof (ht ▸ heof)
      rw [show (TokenSource.next c).2 = c.scan.2 from rfl, scanAll_of_eof hnext,
        List.filter_cons_of_neg (by simpa using hnext), List.filter_nil, List.sublist_nil] at hsub
      rw [List.filter_cons_of_neg (by simpa using heof), hsub]
      exact List.nil_sublist _
    · rw [scanAll_of_ne (ht ▸ heof), ht, List.filter_cons_of_pos (by simpa using heof),
        List.filter_cons_of_pos (by simpa using heof)]
      exact hsub.cons_cons _

end Cursor

/-- The marks of a parsed source come in order at its tokens. -/
theorem marks_sublist_of_parseProgram {source : String} {tracing : Bool} {tree : Node}
    {s : State Cursor} (hrun : parseProgram (Cursor.ofString source) tracing = (.ok tree, s)) :
    tree.marks <+ (tokenize source).flatMap Token.marks := by
  have hlaid : (View.start (Cursor.ofString source)).window.Carries tree.marks s.view.window :=
    Parse.of_parseProgram (fun fuel => Parse.laysOut fuel .program _) hrun
  obtain ⟨ts, hts, hmarks⟩ := hlaid
  obtain ⟨ns, rfl, hns⟩ := shaped_of_parseProgram hrun
  have hinside : InsideInput (Node.program ns).marks := .each fun n hn => (hns n hn).insideInput
  -- at the end of the input there is no mark, so only the tokens in front of it matter
  have hkept : (Node.program ns).marks.filter (·.token.kind ≠ .eof) = (Node.program ns).marks := by
    rw [List.filter_eq_self]
    intro m hm
    simpa using hinside m hm
  have hsub := hmarks.filter (·.token.kind ≠ .eof)
  rw [hkept, filter_marks] at hsub
  have htokens := (Cursor.filter_sublist_filter_scanAll hts).trans List.filter_sublist
  exact hsub.trans (htokens.flatMap _)

/-- The marks at the tokens of a source are in order. -/
theorem pairwise_before_marks (source : String) :
    ((tokenize source).flatMap Token.marks).Pairwise Mark.Before := by
  rw [List.pairwise_flatMap]
  refine ⟨?_, (Cursor.pairwise_scanAll _).imp ?_⟩
  · intro t _
    exact List.pairwise_pair.2 (le_refl t.location)
  · intro t u htu m hm m' hm'
    have hlt : m.token.location < m'.token.location := by
      rw [Token.of_mem_marks hm, Token.of_mem_marks hm']
      exact htu
    exact .of_lt hlt

/-- In a parsed program what stands in a list of statements is a statement. -/
theorem shaped_of_mem_statements {source : σ} {tracing : Bool} {tree n m : Node} {s : State σ}
    (hrun : parseProgram source tracing = (.ok tree, s)) (hn : n ∈ tree.walk)
    (hm : m ∈ n.statements) : ∃ closer, Shaped (.statement closer) m := by
  obtain ⟨ns, rfl, hns⟩ := shaped_of_parseProgram hrun
  rw [Node.walk, List.mem_cons, Node.mem_walkEach] at hn
  rcases hn with rfl | ⟨k, hk, hn⟩
  · exact ⟨.eof, hns m hm⟩
  · obtain ⟨place, hplace⟩ := (hns k hk).of_mem_walk hn
    cases hplace with
    | blockStatement isBrace inside => exact ⟨.rightBrace, inside m hm⟩
    | _ => cases hm

/-- Where a source is parsed, the tokens of the tree, in the order in which they are read, are
tokens of the source, with locations that increase. An expression that stands as a statement has a
token of the source as well: it is behind all tokens of the statements in front of it in the same
list, and not behind any of the expression itself. -/
theorem tokens_in_reading_order {source : String} {tracing : Bool} {tree : Node} {s : State Cursor}
    (hrun : parseProgram (Cursor.ofString source) tracing = (.ok tree, s)) :
    tree.tokens <+ tokenize source ∧ tree.tokens.Pairwise (·.location < ·.location) ∧
      ∀ n ∈ tree.walk, ∀ before first expression behind,
        n.statements = before ++ .expressionStatement first expression :: behind →
        ∃ t ∈ tokenize source, first = some t ∧
          (∀ m ∈ Node.marksEach before, m.token.location < t.location) ∧
          ∀ m ∈ Node.marksChild expression, t.location ≤ m.token.location := by
  have hmarks := marks_sublist_of_parseProgram hrun
  have htokens : tree.tokens <+ tokenize source := by
    have hsub := hmarks.filterMap Mark.own?
    rwa [filterMap_own?_marks] at hsub
  refine ⟨htokens, (Cursor.pairwise_scanAll _).sublist htokens, ?_⟩
  intro n hn before first expression behind hsplit
  obtain ⟨closer, hshaped⟩ := shaped_of_mem_statements hrun hn (hsplit ▸ List.mem_append_cons_self)
  cases hshaped with
  | @expressionStatement _ t _ starts inside =>
    -- the marks of the list up to the end of the expression are among those of the source
    have hlist : Node.marksEach before ++ .start t :: Node.marksChild expression <+
        (tokenize source).flatMap Token.marks := by
      have hstatements := (Node.marksEach_statements_suffix n).sublist
      rw [hsplit, Node.marksEach_append, Node.marksEach, Node.marks,
        ← List.append_assoc] at hstatements
      have hfront := (List.sublist_append_left _ _).trans hstatements
      exact (hfront.trans (Node.marks_sublist_of_mem_walk hn)).trans hmarks
    have hmem : .start t ∈ (tokenize source).flatMap Token.marks :=
      hlist.subset List.mem_append_cons_self
    obtain ⟨u, hu, hmark⟩ := List.mem_flatMap.1 hmem
    have htu : t = u := Token.of_mem_marks hmark
    have horder := (pairwise_before_marks source).sublist hlist
    rw [List.pairwise_append, List.pairwise_cons] at horder
    obtain ⟨-, ⟨hexpression, -⟩, hbefore⟩ := horder
    refine ⟨t, htu ▸ hu, rfl, ?_, ?_⟩
    · intro m hm
      exact hbefore m hm (.start t) List.mem_cons_self
    · intro m hm
      exact (hexpression m hm).le

/-- A call with a function in it of which a statement is spoilt, a parenthesis that makes no
expression, and one around an expression. -/
theorem tokens_of_strayParenthesis :
    ∃ tree s, parseProgram (Cursor.ofString "f(1, fn(y) \x7b let 5; (y) \x7d)\n) ; (a + b)") false =
        (.ok tree, s) ∧
      s.diagnostics.length = 2 ∧
      tree.tokens.map (·.literal) = ["f", "(", "1", "fn", "y", "\x7b", "y", "a", "+", "b"] ∧
      tree.tokens.Pairwise (·.location < ·.location) ∧
      ∃ before t expression, tree.statements = before ++ [.expressionStatement (some t) expression] ∧
        t.literal = "(" ∧ (∀ m ∈ Node.marksEach before, m.token.location < t.location) ∧
        ∀ m ∈ Node.marksChild expression, t.location ≤ m.token.location := by
  have hrun : parseProgram (Cursor.ofString "f(1, fn(y) \x7b let 5; (y) \x7d)\n) ; (a + b)") false =
      (.ok (.program [_, _, .expressionStatement (some ⟨.leftParen, "(", 2, 5⟩) _]), _) :=
    Prod.ext rfl rfl
  obtain ⟨-, hincreasing, hstatements⟩ := tokens_in_reading_order hrun
  obtain ⟨t, -, ht, hbefore, hbehind⟩ := hstatements _ List.mem_cons_self [_, _] _ _ [] rfl
  cases ht
  exact ⟨_, _, hrun, rfl, rfl, hincreasing, [_, _], _, _, rfl, rfl, hbefore, hbehind⟩

end Pratt
