import Pratt.Proofs.Lockstep
import Pratt.Proofs.Shape

/-!
# Pratt — absent parts and diagnostics

A parser that finds something wrong still gives a tree, in which something is absent or from which a
statement was left out. A diagnostic and one of these always go together, and there are never more
of these than diagnostics.

What is left out does not show in the tree, so it is counted while parsing. `Tallied` puts a count
next to a source, and `tally` is the parser that adds to it where a list of statements leaves one
out. The tokens are the same, so what comes of it is the same but for the count
(`tallyProgram_mapSource`).

`Balance` is what is kept up between two views of a run, with the gaps in what is given at the one and
at the other. Reporting something opens a gap, which may then be closed by leaving a statement out. A
part that is thrown away takes all of its gaps with it, but what it was a part of becomes one
(`Balance.spoil`).
-/

namespace Pratt

/-! ## Gaps -/

namespace Node

/-- The statement is there, but its value or its expression is not. -/
def isHollow : Node → Bool
  | .letStatement _ _ none | .returnStatement _ none | .expressionStatement _ none => true
  | _ => false

/-- In how many statements of a tree the value or the expression is absent. -/
def gaps (n : Node) : Nat :=
  n.walk.countP isHollow

/-- The gaps in several trees. -/
def gapsEach : List Node → Nat
  | [] => 0
  | n :: ns => n.gaps + gapsEach ns

/-- The gaps in a tree, or so many as there are where there is none. -/
def gapsOr (absent : Nat) (v : Option Node) : Nat :=
  v.elim absent gaps

/-- The gaps in several trees, where one that is absent is a gap itself. -/
def gapsEachOr : List (Option Node) → Nat
  | [] => 0
  | v :: vs => gapsOr 1 v + gapsEachOr vs

/-- The hollow nodes of a child that is absent are none. -/
theorem countP_walkChild (v : Option Node) : (walkChild v).countP isHollow = gapsOr 0 v := by
  cases v <;> rfl

/-- Those of several trees are counted one tree after the other. -/
theorem countP_walkEach (ns : List Node) : (walkEach ns).countP isHollow = gapsEach ns := by
  induction ns with
  | nil => rfl
  | cons n ns ih => rw [walkEach, List.countP_append, ih, gapsEach, gaps]

theorem gaps_program (ns : List Node) : (program ns).gaps = gapsEach ns := by
  show (walkEach ns).countP isHollow = gapsEach ns
  exact countP_walkEach ns

theorem gaps_blockStatement (t : Option Token) (ns : List Node) :
    (blockStatement t ns).gaps = gapsEach ns := by
  show (walkEach ns).countP isHollow = gapsEach ns
  exact countP_walkEach ns

/-- A `let` without its value has one gap, and otherwise has those of the value. -/
theorem gaps_letStatement (t name : Option Token) (literal : String) (v : Option Node) :
    (letStatement t (some (identifier name literal)) v).gaps = gapsOr 1 v := by
  cases v <;> rfl

/-- A `return` without its value has one gap, too. -/
theorem gaps_returnStatement (t : Option Token) (v : Option Node) :
    (returnStatement t v).gaps = gapsOr 1 v := by
  cases v <;> rfl

/-- A statement without its expression has one gap as well. -/
theorem gaps_expressionStatement (t : Option Token) (v : Option Node) :
    (expressionStatement t v).gaps = gapsOr 1 v := by
  cases v <;> rfl

theorem gaps_prefixExpression (t : Option Token) (operator : String) (right : Node) :
    (prefixExpression t operator (some right)).gaps = right.gaps := rfl

/-- The gaps of two operands add up. -/
theorem gaps_infixExpression (t : Option Token) (left : Option Node) (operator : String)
    (right : Node) :
    (infixExpression t left operator (some right)).gaps = gapsOr 0 left + right.gaps := by
  show (walkChild left ++ walkChild (some right)).countP isHollow = _
  rw [List.countP_append, countP_walkChild, countP_walkChild]
  rfl

/-- An alternative that is absent is no gap. -/
theorem gaps_ifExpression (t : Option Token) (condition consequence : Node)
    (alternative : Option Node) :
    (ifExpression t (some condition) (some consequence) alternative).gaps =
      condition.gaps + consequence.gaps + gapsOr 0 alternative := by
  show (walkChild (some condition) ++ walkChild (some consequence) ++
    walkChild alternative).countP isHollow = _
  rw [List.countP_append, List.countP_append, countP_walkChild, countP_walkChild, countP_walkChild]
  rfl

/-- The gaps of a function are those of its body, and of its parameters, which have none. -/
theorem gaps_functionLiteral (t : Option Token) (parameters : List Node) (body : Node) :
    (functionLiteral t parameters (some body)).gaps = gapsEach parameters + body.gaps := by
  show (walkEach parameters ++ walkChild (some body)).countP isHollow = _
  rw [List.countP_append, countP_walkEach, countP_walkChild]
  rfl

/-- A call of which nothing is absent has the gaps of its parts. -/
theorem gaps_callExpression (t : Option Token) (function : Option Node) (arguments : List Node) :
    (callExpression t function (arguments.map some)).gaps =
      gapsOr 0 function + gapsEach arguments := by
  show (walkChild function ++ walkChildren (arguments.map some)).countP isHollow = _
  rw [List.countP_append, walkChildren_map_some, countP_walkChild, countP_walkEach]

/-- Where all elements of a list are present, its gaps are those of the elements. -/
theorem gapsEachOr_of_mapM {vs : List (Option Node)} {ns : List Node} (h : vs.mapM id = some ns) :
    gapsEachOr vs = gapsEach ns := by
  rw [eq_map_some_of_mapM_id h]
  clear h
  induction ns with
  | nil => rfl
  | cons n ns ih => exact congrArg (n.gaps + ·) ih

/-- A list that cannot be given has something absent in it. -/
theorem gapsEachOr_pos {vs : List (Option Node)} (h : vs.mapM id = none) : 0 < gapsEachOr vs := by
  induction vs with
  | nil => cases h
  | cons v vs ih =>
    rw [gapsEachOr]
    cases v with
    | none => exact Nat.lt_add_right _ Nat.one_pos
    | some n =>
      -- it is a later element that is absent
      refine Nat.add_pos_right _ (ih ?_)
      cases hvs : vs.mapM id with
      | none => rfl
      | some ns => simp [List.mapM_cons, hvs] at h

end Node

/-! ## Counting -/

/-- A source, and how many statements were left out so far. -/
structure Tallied (σ : Type) where
  source : σ
  dropped : Nat

variable {σ : Type} [TokenSource σ]

instance : TokenSource (Tallied σ) where
  next t := ((TokenSource.next t.source).1, { t with source := (TokenSource.next t.source).2 })
  remaining t := TokenSource.remaining t.source

/-- A source with a count gives the tokens of the source. -/
theorem Tallied.sourceMap : SourceMap (Tallied.source : Tallied σ → σ) :=
  ⟨fun _ => rfl, fun _ => rfl⟩

namespace Parse

omit [TokenSource σ] in
/-- One more statement is left out. -/
def drop : Parse (Tallied σ) Unit :=
  modify fun s => { s with source := { s.source with dropped := s.source.dropped + 1 } }

/-- What pursues the goals that a list of statements leads to. A statement that gives nothing is
counted. -/
def counting (parse : Recur (Tallied σ)) : Recur (Tallied σ)
  | .statement => do
    let result ← parse .statement
    if result.isNone then drop
    return result
  | g => parse g

/-- Pursues a goal as `run` does, and counts the statements that are left out on the way. -/
def tally : (fuel : Nat) → Recur (Tallied σ)
  | 0, _ => throw .endlessRules
  | fuel + 1, .statements closer => statements (counting (tally fuel)) closer
  | fuel + 1, g => tracedGoal g (step (tally fuel) g)

end Parse

/-- Parses all that a source holds, and counts the statements that are left out on the way. -/
def tallyProgram (source : σ) (tracing : Bool) : Except Fault Node × State (Tallied σ) :=
  let s : State (Tallied σ) := .start ⟨source, 0⟩ tracing
  (Parse.tally (Parse.enough s) .program).outcome s

namespace Parse

/-- A run stays alongside the one that counts. -/
theorem alongside_tally (fuel : Nat) (g : Goal) :
    Alongside (fun (t : State σ) s => t = s.mapSource Tallied.source) (run fuel g) (tally fuel g) := by
  -- everything but the statements of a list is run by the same rules
  have hR : Lockstep .identity
      fun (_ : Unit) (t : State σ) s => t = s.mapSource Tallied.source :=
    Tallied.sourceMap.lockstep
  induction fuel generalizing g with
  | zero => exact .throw _
  | succ fuel ih =>
    have rule : ∀ g, Alongside (fun (t : State σ) s => t = s.mapSource Tallied.source)
        (run (fuel + 1) g) (tracedGoal g (step (tally fuel) g)) :=
      fun g => hR.tracedGoal g (fun _ => hR.step_same (fun _ => ih) () g) ()
    cases g with
    | statements closer =>
      refine hR.step_same (fun _ g => ?_) () (.statements closer)
      cases g with
      | statement =>
        rw [← bind_pure (run fuel .statement)]
        refine (ih .statement).bind fun v t s h => ?_
        -- the count is no part of what the other run works on
        cases v with
        | none => exact .ok h
        | some n => exact .ok h
      | _ => exact ih _
    | _ => exact rule _

end Parse

/-- Apart from the count it is the same parser. -/
theorem tallyProgram_mapSource [LawfulTokenSource σ] (source : σ) (tracing : Bool) :
    parseProgram source tracing =
      ((tallyProgram source tracing).1,
        (tallyProgram source tracing).2.mapSource Tallied.source) := by
  have hcost := Parse.cost_le_enough .program
    ((State.start (⟨source, 0⟩ : Tallied σ) tracing).mapSource Tallied.source)
  have standard : (State.start (⟨source, 0⟩ : Tallied σ) tracing).Standard := ⟨rfl, rfl⟩
  have h := Parse.outcome_of_alongside standard hcost (Parse.alongside_tally _ .program)
  rw [Tallied.sourceMap.mapSource_start] at h
  unfold parseProgram tallyProgram
  rw [Parse.outcome_perform]
  exact h

/-! ## What is kept up -/

namespace View

variable (x : View (Tallied σ))

/-- How many statements were left out so far. -/
def dropped : Nat := x.window.source.dropped

/-- How many diagnostics there are so far. -/
def reported : Nat := x.diagnostics.length

end View

/-- From the one view to the other, every new gap and every statement left out has a diagnostic of
its own, and where something was reported there is one of these. -/
structure Balance (x y : View (Tallied σ)) (before after : Nat) : Prop where
  gaps : before ≤ after
  dropped : x.dropped ≤ y.dropped
  reported : x.reported ≤ y.reported
  covered : after + y.dropped + x.reported ≤ before + x.dropped + y.reported
  shown : x.reported < y.reported → before < after ∨ x.dropped < y.dropped

namespace Balance

variable {x y z : View (Tallied σ)} {a b c k : Nat}

omit [TokenSource σ] in
/-- Where nothing happens nothing is counted. -/
theorem refl (x : View (Tallied σ)) (a : Nat) : Balance x x a a := by
  constructor <;> omega

omit [TokenSource σ] in
/-- Accounts of what comes one after the other are added up. -/
theorem trans (h : Balance x y a b) (h' : Balance y z b c) : Balance x z a c := by
  obtain ⟨_, _, _, _, hxy⟩ := h
  obtain ⟨_, _, _, _, hyz⟩ := h'
  constructor <;> omega

omit [TokenSource σ] in
/-- Gaps elsewhere make no difference. -/
theorem frame (h : Balance x y a b) (k : Nat) : Balance x y (k + a) (k + b) := by
  obtain ⟨_, _, _, _, hxy⟩ := h
  constructor <;> omega

omit [TokenSource σ] in
/-- What was reported may be taken for a gap. -/
theorem report (h : Balance x y a b) (token : Token) (cause : Cause) :
    Balance x (y.report token cause) a (b + 1) := by
  obtain ⟨_, _, _, _, hxy⟩ := h
  have : (y.report token cause).reported = y.reported + 1 := List.length_append
  have : (y.report token cause).dropped = y.dropped := rfl
  constructor <;> omega

omit [TokenSource σ] in
/-- Of a part with gaps that is thrown away, one gap is left. -/
theorem spoil (h : Balance x y a b) (hlt : a < b) : Balance x y a (a + 1) := by
  obtain ⟨_, _, _, _, hxy⟩ := h
  constructor <;> omega

/-- Moving on at the end of a composition is not counted. -/
theorem advance (h : Balance x y a b) : Balance x y.advance a b :=
  ⟨h.gaps, h.dropped, h.reported, h.covered, h.shown⟩

/-- Moving on at its start is not counted either. -/
theorem of_advance (h : Balance x.advance y a b) : Balance x y a b :=
  ⟨h.gaps, h.dropped, h.reported, h.covered, h.shown⟩

/-- A token that is skipped is not counted. -/
theorem skip (h : Balance x y a b) (optional : Kind) : Balance x (y.skip optional) a b := by
  unfold View.skip
  split
  · exact h.advance
  · exact h

end Balance

/-! ## What the goals give -/

namespace Goal

/-- The gaps in what a goal goes on from. -/
def given : Goal → Nat
  | .infixExpression left | .callExpression left => Node.gapsOr 0 left
  | .continuation _ left => left.gaps
  | _ => 0

/-- The gaps in what a goal gives. Nothing in the place of a tree is one gap more than there was. -/
def gaps : (g : Goal) → g.Result → Nat
  | .program, n | .returnStatement, n | .expressionStatement, n | .identifier, n | .boolean, n =>
    n.gaps
  | .statement, v | .letStatement, v | .blockStatement, v | .expression _, v | .integerLiteral, v
  | .prefixExpression, v | .groupedExpression, v | .ifExpression, v | .functionLiteral, v =>
    Node.gapsOr 1 v
  | .infixExpression left, v | .callExpression left, v => Node.gapsOr (Node.gapsOr 0 left + 1) v
  | .continuation _ left, v => Node.gapsOr (left.gaps + 1) v
  | .functionParameters, v | .expressionList _, v | .parameters, v => v.elim 1 Node.gapsEach
  | .statements _, ns => Node.gapsEach ns
  | .expressions, vs => Node.gapsEachOr vs
  | .recovery _, _ => 0

end Goal

namespace Parse

variable {x : View (Tallied σ)} {fuel : Nat}

/-- The goals that are pursued this way keep the balance. -/
def Balances (p : Recur (Tallied σ)) : Prop :=
  ∀ (g : Goal) (x : View (Tallied σ)),
    Ensures (p g) x (fun v y => Balance x y g.given (g.gaps v)) fun _ _ => True

namespace Balances

variable {p : Recur (Tallied σ)} (sub : Balances p)
include sub

/-! ### Statements -/

omit [TokenSource σ] in
/-- A program has the gaps of its statements. -/
theorem program :
    Ensures (Parse.program p) x (fun n y => Balance x y 0 n.gaps) fun _ _ => True := by
  refine ensures_program ((sub (.statements .eof) x).imp_result fun ns y h => ?_)
  rw [Node.gaps_program]
  exact h

omit [TokenSource σ] in
/-- A statement that is not there is one gap for now, which is dropped by the list it should be
in. -/
theorem statement :
    Ensures (Parse.statement p) x (fun v y => Balance x y 0 (Node.gapsOr 1 v))
      fun _ _ => True :=
  ensures_statement (fun _ => sub .letStatement x) (fun _ => sub .returnStatement x)
    fun _ _ => sub .expressionStatement x

/-- Without a name or a sign there is nothing in the place of the statement, and a diagnostic. -/
theorem letStatement :
    Ensures (Parse.letStatement p) x (fun v y => Balance x y 0 (Node.gapsOr 1 v))
      fun _ _ => True := by
  have start := Balance.refl x 0
  refine ensures_letStatement (fun _ => start.report _ _) (fun _ _ => start.advance.report _ _)
    fun _ _ => ?_
  refine (sub (.expression 1) _).imp_result fun v y h => ?_
  show Balance x _ 0 (Node.letStatement _ _ _).gaps
  rw [Node.gaps_letStatement]
  exact (Balance.skip h _).of_advance.of_advance.of_advance

/-- What the value reports is a gap in it, or is its absence. -/
theorem returnStatement :
    Ensures (Parse.returnStatement p) x (fun n y => Balance x y 0 n.gaps) fun _ _ => True := by
  refine ensures_returnStatement ((sub (.expression 1) _).imp_result fun v y h => ?_)
  rw [Node.gaps_returnStatement]
  exact (Balance.skip h _).of_advance

/-- What the expression of a statement reports is a gap in it, or is its absence. -/
theorem expressionStatement :
    Ensures (Parse.expressionStatement p) x (fun n y => Balance x y 0 n.gaps)
      fun _ _ => True := by
  refine ensures_expressionStatement ((sub (.expression 1) _).imp_result fun v y h => ?_)
  rw [Node.gaps_expressionStatement]
  exact Balance.skip h _

/-- A block that is not closed is thrown away. -/
theorem blockStatement :
    Ensures (Parse.blockStatement p) x (fun v y => Balance x y 0 (Node.gapsOr 1 v))
      fun _ _ => True := by
  refine ensures_blockStatement ((sub (.statements .rightBrace) _).imp_result fun ns y h => ?_)
  refine ⟨fun _ => (Balance.report h.of_advance _ _).spoil (Nat.succ_pos _), fun _ => ?_⟩
  show Balance x y 0 (Node.blockStatement x.current ns).gaps
  rw [Node.gaps_blockStatement]
  exact Balance.of_advance h

omit [TokenSource σ] in
/-- A statement that gives nothing is left out, in the place of its gap. -/
theorem counting :
    Ensures (counting p .statement) x (fun v y => Balance x y 0 (Node.gapsOr 0 v))
      fun _ _ => True := by
  refine Ensures.bind ((sub .statement x).imp_result fun v y h => ?_)
  cases v with
  | some n => exact Ensures.pure h
  | none =>
    intro s hs hy
    subst hy
    refine ⟨hs, ?_⟩
    -- the gap that the statement was is one more that is left out
    obtain ⟨_, _, _, hcovered, _⟩ := h
    simp only [Goal.given, Goal.gaps, Node.gapsOr, Option.elim] at hcovered ⊢
    have hdropped : View.dropped { s.view with window :=
        { s.view.window with source :=
          { s.view.window.source with dropped := s.view.window.source.dropped + 1 } } } =
        s.view.dropped + 1 := rfl
    refine ⟨Nat.le_refl 0, ?_, ‹_›, ?_, fun _ => .inr ?_⟩
    · exact Nat.le_succ_of_le ‹_›
    · show 0 + (s.view.dropped + 1) + x.reported ≤ 0 + x.dropped + s.view.reported
      omega
    · exact Nat.lt_succ_of_le ‹_›

/-- A list of statements has the gaps of its statements, and what is left out of it is counted. -/
theorem statements (closer : Kind) :
    Ensures (Parse.statements (Parse.counting p) closer) x
      (fun ns y => Balance x y 0 (Node.gapsEach ns)) fun _ _ => True := by
  have later : ∀ y : View (Tallied σ), Ensures (Parse.counting p (.statements closer)) y.advance
      (fun ns z => Balance y z 0 (Node.gapsEach ns)) fun _ _ => True :=
    fun y => (sub (.statements closer) _).imp_result fun ns z h => Balance.of_advance h
  refine ensures_statements (fun _ => .refl x 0) fun _ => ?_
  -- a statement keeps its gaps in the list; in the place of none there is a skip
  refine sub.counting.imp_result fun v y h => ⟨fun n hn => ?_, fun hnone => ?_⟩
  · subst hn
    exact (later y).imp_result fun ns z hz => h.trans (hz.frame n.gaps)
  · subst hnone
    refine (sub (.recovery 0) y).imp_result fun _ z hz => ?_
    exact (later z).imp_result fun ns u hu => (h.trans hz).trans hu

/-- A skip neither reports nor drops anything. -/
theorem recovery (depth : Nat) :
    Ensures (Parse.recovery p depth) x (fun _ y => Balance x y 0 0) fun _ _ => True :=
  ensures_recovery (fun _ => .refl x 0) fun _ _ _ =>
    (sub (.recovery _) _).imp_result fun _ _ h => Balance.of_advance h

/-! ### Expressions -/

omit [TokenSource σ] in
/-- An expression that goes on keeps the balance that it had so far, and loses its gaps if it
fails. -/
theorem longer {a : Nat} (bound : Int) (v : Option Node) (y : View (Tallied σ))
    (h : Balance x y a (Node.gapsOr (a + 1) v)) :
    (v = none → Balance x y a (a + 1)) ∧ ∀ longer, v = some longer →
      Ensures (p (.continuation bound longer)) y
        (fun w z => Balance x z a (Node.gapsOr (a + 1) w)) fun _ _ => True := by
  refine ⟨fun hnone => ?_, fun longer hlonger => ?_⟩
  · subst hnone
    exact h
  · subst hlonger
    refine (sub (.continuation bound longer) y).imp_result fun w z hz => ?_
    -- if there is nothing longer, the left part is lost with its gaps
    have whole := Balance.trans h hz
    cases w with
    | none => exact whole.spoil (Nat.lt_succ_of_le h.gaps)
    | some n => exact whole

omit [TokenSource σ] in
/-- An operand that is not there was reported. -/
theorem operand :
    Ensures (Parse.operand p) x (fun v y => Balance x y 0 (Node.gapsOr 1 v)) fun _ _ => True :=
  ensures_operand (fun _ => (Balance.refl x 0).report _ _) (fun _ => sub .identifier x)
    (fun _ => sub .integerLiteral x) (fun _ => sub .boolean x) (fun _ => sub .prefixExpression x)
    (fun _ => sub .groupedExpression x) (fun _ => sub .ifExpression x)
    fun _ => sub .functionLiteral x

omit [TokenSource σ] in
/-- An expression that is not there, though its operand was, was reported. -/
theorem expression (bound : Int) :
    Ensures (Parse.expression p bound) x (fun v y => Balance x y 0 (Node.gapsOr 1 v))
      fun _ _ => True :=
  ensures_expression (sub.operand.imp_result (sub.longer bound))

/-- The gaps that are kept up are those in the operand that it goes on from. -/
theorem continuation (bound : Int) (left : Node) :
    Ensures (Parse.continuation p bound left) x
      (fun v y => Balance x y left.gaps (Node.gapsOr (left.gaps + 1) v)) fun _ _ => True := by
  refine ensures_continuation (fun _ => .refl x left.gaps) (fun _ _ => ?_) fun _ _ => ?_
  · exact (sub (.infixExpression left) _).imp_result fun v y h =>
      sub.longer bound v y (Balance.of_advance h)
  · exact (sub (.callExpression left) _).imp_result fun v y h =>
      sub.longer bound v y (Balance.of_advance h)

omit [TokenSource σ] sub in
theorem identifier :
    Ensures (σ := Tallied σ) Parse.identifier x (fun n y => Balance x y 0 n.gaps)
      fun _ _ => True :=
  ensures_identifier (.refl x 0)

omit [TokenSource σ] sub in
/-- A number that cannot be read is reported, and is a gap. -/
theorem integerLiteral :
    Ensures Parse.integerLiteral x (fun v y => Balance x y 0 (Node.gapsOr 1 v))
      fun _ _ => True :=
  ensures_integerLiteral (fun _ _ => .refl x 0) (fun _ _ => trivial)
    fun _ => (Balance.refl x 0).report _ _

omit [TokenSource σ] sub in
theorem boolean :
    Ensures Parse.boolean x (fun n y => Balance x y 0 n.gaps) fun _ _ => True :=
  ensures_boolean (.refl x 0)

/-- There is no prefix expression with a gap right in it: without the operand, the whole is
absent. -/
theorem prefixExpression :
    Ensures (Parse.prefixExpression p) x (fun v y => Balance x y 0 (Node.gapsOr 1 v))
      fun _ _ => True := by
  refine ensures_prefixExpression ((sub (.expression 6) _).imp_result fun v y h => ?_)
  cases v with
  | none => exact Balance.of_advance h
  | some right =>
    show Balance x y 0 (Node.prefixExpression x.current x.current.literal (some right)).gaps
    rw [Node.gaps_prefixExpression]
    exact Balance.of_advance h

/-- The gaps of the left operand are there before, and are all lost in one if the whole is
absent. -/
theorem infixExpression (left : Option Node) :
    Ensures (Parse.infixExpression p left) x
      (fun v y => Balance x y (Node.gapsOr 0 left) (Node.gapsOr (Node.gapsOr 0 left + 1) v))
      fun _ _ => True := by
  refine ensures_infixExpression ((sub (.expression _) _).imp_result fun v y h => ?_)
  cases v with
  | none => exact (Balance.of_advance h).frame (Node.gapsOr 0 left)
  | some right =>
    show Balance x y _ (Node.infixExpression x.current left x.current.literal (some right)).gaps
    rw [Node.gaps_infixExpression]
    exact (Balance.of_advance h).frame (Node.gapsOr 0 left)

/-- A group that is not closed is absent, and what was inside is lost in that one gap. -/
theorem groupedExpression :
    Ensures (Parse.groupedExpression p) x (fun v y => Balance x y 0 (Node.gapsOr 1 v))
      fun _ _ => True := by
  refine ensures_groupedExpression ((sub (.expression 1) _).imp_result fun v y h => ?_)
  exact ⟨fun _ => (Balance.of_advance h).advance,
    fun _ => ((Balance.of_advance h).report _ _).spoil (Nat.succ_pos _)⟩

/-- An alternative that is broken off is one gap, and one that is not there is none. -/
theorem alternative :
    Ensures (Parse.alternative p) x (fun a y => Balance x y 0 (a.elim 1 (Node.gapsOr 0)))
      fun _ _ => True := by
  have start := Balance.refl x 0
  refine ensures_alternative (fun _ => start) (fun _ _ => start.advance.report _ _) fun _ _ => ?_
  refine (sub .blockStatement _).imp_result fun v y h => ?_
  cases v with
  | none => exact (Balance.of_advance h).of_advance
  | some block => exact (Balance.of_advance h).of_advance

/-- It is one tree, or it lacks a part and is thrown away. -/
theorem ifExpression :
    Ensures (Parse.ifExpression p) x (fun v y => Balance x y 0 (Node.gapsOr 1 v))
      fun _ _ => True := by
  refine ensures_ifExpression (fun _ => (Balance.refl x 0).report _ _) fun _ => ?_
  refine (sub (.expression 1) _).imp_result fun c y hc => ?_
  have condition : Balance x y 0 (Node.gapsOr 1 c) := (Balance.of_advance hc).of_advance
  refine ⟨fun _ => (condition.report _ _).spoil (Nat.succ_pos _),
    fun _ _ => (condition.advance.report _ _).spoil (Nat.succ_pos _), fun _ _ => ?_⟩
  refine (sub .blockStatement _).imp_result fun b z hb => ?_
  -- the gaps of the condition stay while the block is read
  have block : Balance x z 0 (Node.gapsOr 1 c + Node.gapsOr 1 b) :=
    condition.trans ((Balance.of_advance hb).of_advance.frame _)
  refine ⟨fun hnone => ?_, fun consequence hconsequence => ?_⟩
  · subst hnone
    exact block.spoil (Nat.succ_pos _)
  subst hconsequence
  refine sub.alternative.imp_result fun a u ha => ?_
  have whole := block.trans (ha.frame _)
  -- the blocks have been read in any case
  cases a with
  | none => exact whole.spoil (Nat.succ_pos _)
  | some other =>
    cases c with
    | none => exact whole.spoil (Nat.lt_add_right _ (Nat.lt_add_right _ Nat.one_pos))
    | some n =>
      show Balance x u 0 (Node.ifExpression x.current (some n) (some consequence) other).gaps
      rw [Node.gaps_ifExpression]
      exact whole

/-- A function lacks nothing, or is absent as a whole. -/
theorem functionLiteral :
    Ensures (Parse.functionLiteral p) x (fun v y => Balance x y 0 (Node.gapsOr 1 v))
      fun _ _ => True := by
  refine ensures_functionLiteral (fun _ => (Balance.refl x 0).report _ _) fun _ => ?_
  refine (sub .functionParameters _).imp_result fun ps y hps => ?_
  have parameters : Balance x y 0 (ps.elim 1 Node.gapsEach) := Balance.of_advance hps
  refine ⟨fun hnone => ?_, fun names hnames _ => ?_, fun names hnames _ => ?_⟩
  · subst hnone
    exact parameters
  · exact (parameters.report _ _).spoil (Nat.succ_pos _)
  subst hnames
  refine (sub .blockStatement _).imp_result fun b z hb => ?_
  have whole := parameters.trans ((Balance.of_advance hb).frame _)
  cases b with
  | none => exact whole.spoil (Nat.succ_pos _)
  | some body =>
    show Balance x z 0 (Node.functionLiteral x.current names (some body)).gaps
    rw [Node.gaps_functionLiteral]
    exact whole

/-- An empty list has no gaps. -/
theorem functionParameters :
    Ensures (Parse.functionParameters p) x (fun v y => Balance x y 0 (v.elim 1 Node.gapsEach))
      fun _ _ => True :=
  ensures_functionParameters (fun _ => (Balance.refl x 0).advance) fun _ => sub .parameters x

/-- There is no gap in a name. -/
theorem parameters :
    Ensures (Parse.parameters p) x (fun v y => Balance x y 0 (v.elim 1 Node.gapsEach))
      fun _ _ => True := by
  have start := Balance.refl x 0
  refine ensures_parameters (fun _ => start.report _ _) (fun _ _ => ?_)
    (fun _ _ => start.advance.advance) fun _ _ _ => start.advance.report _ _
  refine (sub .parameters _).imp_result fun v y h => ?_
  have later := (Balance.of_advance h).of_advance
  cases v with
  | none => exact later
  | some names => exact later.frame 0

omit [TokenSource σ] in
/-- The gaps of what is called are there before, and are lost in one if the arguments are absent. -/
theorem callExpression (function : Option Node) :
    Ensures (Parse.callExpression p function) x
      (fun v y =>
        Balance x y (Node.gapsOr 0 function) (Node.gapsOr (Node.gapsOr 0 function + 1) v))
      fun _ _ => True := by
  refine ensures_callExpression
    ((sub (.expressionList .rightParen) x).imp_result fun v y h => ?_)
  have whole := Balance.frame h (Node.gapsOr 0 function)
  cases v with
  | none => exact whole
  | some as =>
    show Balance x y _ (Node.callExpression x.current function (as.map some)).gaps
    rw [Node.gaps_callExpression]
    exact whole

/-- One item that is absent spoils the list. -/
theorem expressionList (closing : Kind) :
    Ensures (Parse.expressionList p closing) x
      (fun v y => Balance x y 0 (v.elim 1 Node.gapsEach)) fun _ _ => True := by
  refine ensures_expressionList (fun _ => (Balance.refl x 0).advance) fun _ => ?_
  refine (sub .expressions _).imp_result fun vs y h => ?_
  have items : Balance x y 0 (Node.gapsEachOr vs) := Balance.of_advance h
  refine ⟨fun _ => ?_, fun _ => (items.report _ _).spoil (Nat.succ_pos _)⟩
  -- an item that is absent is a gap, which stands for the list then
  cases hvs : vs.mapM id with
  | none => exact items.advance.spoil (Node.gapsEachOr_pos hvs)
  | some ns =>
    rw [Node.gapsEachOr_of_mapM hvs] at items
    exact items.advance

/-- Each item has its gaps, or is one. -/
theorem expressions :
    Ensures (Parse.expressions p) x (fun vs y => Balance x y 0 (Node.gapsEachOr vs))
      fun _ _ => True := by
  refine ensures_expressions ((sub (.expression 1) x).imp_result fun v y h => ?_)
  refine ⟨fun _ => ?_, fun _ => h⟩
  exact (sub .expressions _).imp_result fun vs z hz =>
    Balance.trans h ((Balance.of_advance hz).of_advance.frame _)

/-- Every rule keeps the balance, if the goals that it leads to do; the statements of a list are
counted. -/
theorem step (g : Goal) (hg : ∀ closer, g ≠ .statements closer) :
    Ensures (Parse.step p g) x (fun v y => Balance x y g.given (g.gaps v)) fun _ _ => True := by
  cases g with
  | program => exact sub.program
  | statement => exact sub.statement
  | letStatement => exact sub.letStatement
  | returnStatement => exact sub.returnStatement
  | expressionStatement => exact sub.expressionStatement
  | blockStatement => exact sub.blockStatement
  | statements closer => exact absurd rfl (hg closer)
  | recovery depth => exact sub.recovery depth
  | expression bound => exact sub.expression bound
  | continuation bound left => exact sub.continuation bound left
  | identifier => exact identifier
  | integerLiteral => exact integerLiteral
  | boolean => exact boolean
  | prefixExpression => exact sub.prefixExpression
  | infixExpression left => exact sub.infixExpression left
  | groupedExpression => exact sub.groupedExpression
  | ifExpression => exact sub.ifExpression
  | functionLiteral => exact sub.functionLiteral
  | functionParameters => exact sub.functionParameters
  | parameters => exact sub.parameters
  | callExpression function => exact sub.callExpression function
  | expressionList closing => exact sub.expressionList closing
  | expressions => exact sub.expressions

end Balances

/-- Every run that counts keeps the balance. -/
theorem balances_tally (fuel : Nat) : Balances (tally fuel : Recur (Tallied σ)) := by
  induction fuel with
  | zero => exact fun _ _ => Ensures.throw trivial
  | succ fuel sub =>
    intro g x
    -- a list of statements is where it counts, and is not traced
    cases g with
    | statements closer => exact sub.statements closer
    | _ => exact ensures_tracedGoal (sub.step _ nofun)

end Parse

/-! ## Whole programs -/

/-- Of a parsed program, every gap in the tree and every statement that was left out has a diagnostic
of its own, and if there is neither, nothing was reported. -/
theorem balance_of_tallyProgram {source : σ} {tracing : Bool} {tree : Node} {s : State (Tallied σ)}
    (hrun : tallyProgram source tracing = (.ok tree, s)) :
    tree.gaps + s.source.dropped ≤ s.diagnostics.length ∧
      (s.diagnostics = [] ↔ tree.gaps = 0 ∧ s.source.dropped = 0) := by
  let start : State (Tallied σ) := .start ⟨source, 0⟩ tracing
  have ends := Parse.balances_tally (Parse.enough start) .program _ start ⟨rfl, rfl⟩ rfl
  have hok : Parse.tally (Parse.enough start) .program start = .ok tree s :=
    Parse.eq_ok_of_outcome hrun
  rw [hok] at ends
  obtain ⟨-, -, -, hcovered, hshown⟩ := ends.2
  -- nothing was reported or left out at the start
  have hcovered : tree.gaps + s.source.dropped + 0 ≤ 0 + 0 + s.diagnostics.length := hcovered
  have hshown : 0 < s.diagnostics.length → 0 < tree.gaps ∨ 0 < s.source.dropped := hshown
  rw [← List.length_eq_zero_iff]
  omega

/-- The run that counts is the run that is counted, and its account gives the two bounds on
diagnostics. -/
theorem exists_tallyProgram [LawfulTokenSource σ] {source : σ} {tracing : Bool} {tree : Node}
    {s : State σ} (hrun : parseProgram source tracing = (.ok tree, s)) :
    ∃ t : State (Tallied σ), tallyProgram source tracing = (.ok tree, t) ∧
      s = t.mapSource Tallied.source ∧ tree.gaps + t.source.dropped ≤ s.diagnostics.length ∧
      (s.diagnostics = [] ↔ tree.gaps = 0 ∧ t.source.dropped = 0) := by
  rw [tallyProgram_mapSource] at hrun
  cases htally : tallyProgram source tracing with
  | mk result t =>
    rw [htally] at hrun
    cases hrun
    exact ⟨t, rfl, rfl, balance_of_tallyProgram htally⟩

/-- Nothing but the value of a `let` or of a `return`, the expression of a statement and the
alternative of a conditional is absent in a parsed tree. There is a diagnostic for each such value or
expression and for each statement that was left out, also in blocks that were thrown away. Nothing
was reported exactly if there is none of these, and a strict parse refuses a text exactly if there
is one. -/
theorem absences_of_parseProgram :
    (∀ {σ : Type} [TokenSource σ] [LawfulTokenSource σ] (source : σ) (tracing : Bool) (tree : Node)
        (s : State σ), parseProgram source tracing = (.ok tree, s) →
      (∀ n ∈ tree.walk, n.Furnished) ∧
      ∃ t : State (Tallied σ), tallyProgram source tracing = (.ok tree, t) ∧
        s = t.mapSource Tallied.source ∧
        tree.gaps + t.source.dropped ≤ s.diagnostics.length ∧
        (s.diagnostics = [] ↔ tree.gaps = 0 ∧ t.source.dropped = 0)) ∧
    ∀ (text : String) (tracing : Bool),
      (∃ first others, (parse text true tracing).1 = .error (.rejected first others)) ↔
        ∃ tree t, tallyProgram (Cursor.ofString text) tracing = (.ok tree, t) ∧
          (tree.gaps ≠ 0 ∨ t.source.dropped ≠ 0) := by
  refine ⟨fun source tracing tree s hrun =>
    ⟨furnished_of_parseProgram hrun, exists_tallyProgram hrun⟩, fun text tracing => ?_⟩
  -- a text is refused for the diagnostics of the run that does not count
  rw [parse_rejected_iff]
  constructor
  · rintro ⟨tree, s, hrun, hds⟩
    obtain ⟨t, htally, -, -, hempty⟩ := exists_tallyProgram hrun
    refine ⟨tree, t, htally, ?_⟩
    rw [← Decidable.not_and_iff_not_or_not, ← hempty]
    exact hds
  · rintro ⟨tree, t, htally, habsent⟩
    have hrun := tallyProgram_mapSource (Cursor.ofString text) tracing
    rw [htally] at hrun
    refine ⟨tree, _, hrun, fun hds => ?_⟩
    obtain ⟨hgaps, hdropped⟩ := (balance_of_tallyProgram htally).2.1 hds
    exact habsent.elim (absurd hgaps) (absurd hdropped)

/-- In `let 5; return;` the `let` is left out and the `return` has no value. -/
theorem absences_of_spoiltLet :
    let word := Token.unplaced .returnWord "return"
    let tokens := [Token.unplaced .letWord "let", .unplaced .int "5", .unplaced .semicolon ";",
      word, .unplaced .semicolon ";"]
    let tree := Node.program [.returnStatement word none]
    ∃ s t, parseProgram tokens false = (.ok tree, s) ∧ tallyProgram tokens false = (.ok tree, t) ∧
      (∀ n ∈ tree.walk, n.Furnished) ∧ tree.gaps = 1 ∧ t.source.dropped = 1 ∧
      tree.gaps + t.source.dropped ≤ s.diagnostics.length := by
  intro word tokens tree
  have hrun : parseProgram tokens false = (.ok tree, (parseProgram tokens false).2) :=
    Prod.ext rfl rfl
  obtain ⟨hfurnished, t, htally, -, hle, -⟩ := absences_of_parseProgram.1 tokens false tree _ hrun
  have hdropped : (tallyProgram tokens false).2.source.dropped = 1 := rfl
  rw [htally] at hdropped
  exact ⟨_, t, hrun, htally, hfurnished, rfl, hdropped, hle⟩

end Pratt
