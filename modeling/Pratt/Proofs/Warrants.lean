import Pratt.Proofs.Fuel

/-!
# Pratt — every diagnostic has a reason in its token

A diagnostic says what is wrong with a token, and it can be told from the token alone whether that
is so: a token that should have been of another kind is not of that kind, no expression starts with
one of which this is said, and the text of one that should have been an integer cannot be read as
one. The parser reports nothing without such a reason (`Parse.keepsWarranted`), whether or not it
ends in a fault later on.
-/

namespace Pratt

/-- What the diagnostic says of its token is so. With the tables of the language it never says that
something else than a token should have been there. -/
def Diagnostic.Warranted (d : Diagnostic) : Prop :=
  match d.cause with
  | .expected wanted => d.token.kind ≠ wanted
  | .unattainable _ => False
  | .noStart => d.token.kind ∉ Kind.opening
  | .notInteger => Numeral.read d.token.literal.toList = .unreadable

variable {σ : Type} [TokenSource σ]

/-- Nothing was reported without a reason. -/
def View.Warranted (y : View σ) : Prop :=
  ∀ d ∈ y.diagnostics, d.Warranted

namespace View.Warranted

variable {y : View σ}

omit [TokenSource σ] in
/-- A further diagnostic needs a reason of its own. -/
theorem report (h : Warranted y) {token : Token} {cause : Cause}
    (hd : Diagnostic.Warranted ⟨token, cause⟩) : Warranted (y.report token cause) := by
  intro d hmem
  rcases List.mem_append.1 hmem with hbefore | hlast
  · exact h d hbefore
  · rw [List.mem_singleton.1 hlast]
    exact hd

/-- Skipping a token reports nothing. -/
theorem skip (h : Warranted y) (optional : Kind) : Warranted (y.skip optional) := by
  intro d hmem
  rw [View.diagnostics_skip] at hmem
  exact h d hmem

end View.Warranted

namespace Parse

variable {fuel : Nat} {x : View σ}

/-- Runs with this much fuel report nothing without a reason. -/
def KeepsWarranted (σ : Type) [TokenSource σ] (fuel : Nat) : Prop :=
  ∀ (g : Goal) {x : View σ}, x.Warranted →
    Ensures (run fuel g) x (fun _ y => y.Warranted) fun _ y => y.Warranted

namespace KeepsWarranted

variable (sub : KeepsWarranted σ fuel) (hx : x.Warranted)
include sub hx

/-- An operand without a rule is reported at a token that starts no expression. -/
theorem expression (bound : Int) :
    Ensures (expression (run fuel) bound) x (fun _ y => y.Warranted) fun _ y => y.Warranted := by
  have operand : Ensures (operand (run fuel)) x (fun _ y => y.Warranted) fun _ y => y.Warranted :=
    ensures_operand (fun hk => hx.report hk) (fun _ => sub .identifier hx)
      (fun _ => sub .integerLiteral hx) (fun _ => sub .boolean hx)
      (fun _ => sub .prefixExpression hx) (fun _ => sub .groupedExpression hx)
      (fun _ => sub .ifExpression hx) fun _ => sub .functionLiteral hx
  refine ensures_expression (operand.imp_result fun _ y hy => ⟨fun _ => hy, fun left _ => ?_⟩)
  exact sub (.continuation bound left) hy

/-- Going on reports nothing of its own. -/
theorem continuation (bound : Int) (left : Node) :
    Ensures (continuation (run fuel) bound left) x (fun _ y => y.Warranted)
      fun _ y => y.Warranted := by
  have goesOn : ∀ (v : Option Node) (y : View σ), y.Warranted → (v = none → y.Warranted) ∧
      ∀ longer, v = some longer → Ensures (run fuel (.continuation bound longer)) y
        (fun _ z => z.Warranted) fun _ z => z.Warranted := by
    intro v y hy
    exact ⟨fun _ => hy, fun longer _ => sub (.continuation bound longer) hy⟩
  refine ensures_continuation (fun _ => hx) (fun _ _ => ?_) fun _ _ => ?_
  · exact (sub (.infixExpression left) (x := x.advance) hx).imp_result goesOn
  · exact (sub (.callExpression left) (x := x.advance) hx).imp_result goesOn

/-- Each part of a conditional is missed at a token of another kind. -/
theorem ifExpression :
    Ensures (ifExpression (run fuel)) x (fun _ y => y.Warranted) fun _ y => y.Warranted := by
  refine ensures_ifExpression (fun hk => hx.report hk) fun _ => ?_
  refine (sub (.expression 1) (x := x.advance.advance) hx).imp_result fun _ y hy => ?_
  have hclose : y.advance.Warranted := hy
  refine ⟨fun hk => View.Warranted.report hy hk, fun _ hk => hclose.report hk, fun _ _ => ?_⟩
  refine (sub .blockStatement (x := y.advance.advance) hy).imp_result fun _ z hz => ?_
  refine ⟨fun _ => hz, fun _ _ => ?_⟩
  -- behind the first block, with or without a second one
  have helse : z.advance.Warranted := hz
  exact ensures_alternative (fun _ => hz) (fun _ hk => helse.report hk)
    fun _ _ => sub .blockStatement (x := z.advance.advance) hz

/-- The name and the sign of a `let` are missed at a token of another kind. -/
theorem letStatement :
    Ensures (letStatement (run fuel)) x (fun _ y => y.Warranted) fun _ y => y.Warranted := by
  have hname : x.advance.Warranted := hx
  refine ensures_letStatement (fun hk => hx.report hk) (fun _ hk => hname.report hk) fun _ _ => ?_
  exact (sub (.expression 1) (x := x.advance.advance.advance) hx).imp_result
    fun _ _ hy => View.Warranted.skip hy _

/-- At the end of the input a block lacks its brace. -/
theorem blockStatement :
    Ensures (blockStatement (run fuel)) x (fun _ y => y.Warranted) fun _ y => y.Warranted := by
  refine ensures_blockStatement
    ((sub (.statements .rightBrace) (x := x.advance) hx).imp_result fun _ y hy => ?_)
  refine ⟨fun heof => ?_, fun _ => hy⟩
  exact View.Warranted.report hy (by show _ ≠ _; rw [heof]; decide)

/-- What a statement has reported is left alone by the skip behind it. -/
theorem statements (closer : Kind) :
    Ensures (statements (run fuel) closer) x (fun _ y => y.Warranted) fun _ y => y.Warranted := by
  refine ensures_statements (fun _ => hx) fun _ => ?_
  refine (sub .statement hx).imp_result fun _ y hy => ⟨fun _ _ => ?_, fun _ => ?_⟩
  · exact sub (.statements closer) (x := y.advance) hy
  · refine (sub (.recovery 0) hy).imp_result fun _ z hz => ?_
    exact sub (.statements closer) (x := z.advance) hz

/-- The parenthesis that closes a group is missed at a token of another kind. -/
theorem groupedExpression :
    Ensures (groupedExpression (run fuel)) x (fun _ y => y.Warranted) fun _ y => y.Warranted := by
  refine ensures_groupedExpression
    ((sub (.expression 1) (x := x.advance) hx).imp_result fun _ y hy => ?_)
  exact ⟨fun _ => hy, fun hk => View.Warranted.report hy hk⟩

/-- The parenthesis and the brace of a function are missed at a token of another kind. -/
theorem functionLiteral :
    Ensures (functionLiteral (run fuel)) x (fun _ y => y.Warranted) fun _ y => y.Warranted := by
  refine ensures_functionLiteral (fun hk => hx.report hk) fun _ => ?_
  refine (sub .functionParameters (x := x.advance) hx).imp_result fun _ y hy => ?_
  exact ⟨fun _ => hy, fun _ _ hk => View.Warranted.report hy hk,
    fun _ _ _ => sub .blockStatement (x := y.advance) hy⟩

/-- A name and what closes a list of names are missed at a token of another kind. -/
theorem parameters :
    Ensures (parameters (run fuel)) x (fun _ y => y.Warranted) fun _ y => y.Warranted := by
  have hname : x.advance.Warranted := hx
  exact ensures_parameters (fun hk => hx.report hk)
    (fun _ _ => sub .parameters (x := x.advance.advance) hx) (fun _ _ => hx)
    fun _ _ hk => hname.report hk

/-- What closes a list is missed at a token of another kind. -/
theorem expressionList (closing : Kind) :
    Ensures (expressionList (run fuel) closing) x (fun _ y => y.Warranted)
      fun _ y => y.Warranted := by
  refine ensures_expressionList (fun _ => hx) fun _ => ?_
  refine (sub .expressions (x := x.advance) hx).imp_result fun _ y hy => ?_
  exact ⟨fun _ => hy, fun hk => View.Warranted.report hy hk⟩

/-- A comma that is not there is not missed. -/
theorem expressions :
    Ensures (expressions (run fuel)) x (fun _ y => y.Warranted) fun _ y => y.Warranted := by
  refine ensures_expressions ((sub (.expression 1) hx).imp_result fun _ y hy => ?_)
  exact ⟨fun _ => sub .expressions (x := y.advance.advance) hy, fun _ => hy⟩

/-- No rule reports anything without a reason, if the goals that it leads to do not. -/
theorem step (g : Goal) :
    Ensures (step (run fuel) g) x (fun _ y => y.Warranted) fun _ y => y.Warranted := by
  have hnext : x.advance.Warranted := hx
  cases g with
  | program => exact ensures_program (sub (.statements .eof) hx)
  | statement =>
    exact ensures_statement (fun _ => sub .letStatement hx) (fun _ => sub .returnStatement hx)
      fun _ _ => sub .expressionStatement hx
  | letStatement => exact sub.letStatement hx
  | returnStatement =>
    exact ensures_returnStatement
      ((sub (.expression 1) hnext).imp_result fun _ _ hy => View.Warranted.skip hy _)
  | expressionStatement =>
    exact ensures_expressionStatement
      ((sub (.expression 1) hx).imp_result fun _ _ hy => View.Warranted.skip hy _)
  | blockStatement => exact sub.blockStatement hx
  | statements closer => exact sub.statements hx closer
  | recovery depth => exact ensures_recovery (fun _ => hx) fun _ _ _ => sub (.recovery _) hnext
  | expression bound => exact sub.expression hx bound
  | continuation bound left => exact sub.continuation hx bound left
  | identifier => exact ensures_identifier hx
  | integerLiteral =>
    -- the report is warranted by the reading that failed
    exact ensures_integerLiteral (fun _ _ => hx) (fun _ _ => hx) fun hread => hx.report hread
  | boolean => exact ensures_boolean hx
  | prefixExpression => exact ensures_prefixExpression (sub (.expression 6) hnext)
  | infixExpression left => exact ensures_infixExpression (sub (.expression _) hnext)
  | groupedExpression => exact sub.groupedExpression hx
  | ifExpression => exact sub.ifExpression hx
  | functionLiteral => exact sub.functionLiteral hx
  | functionParameters =>
    exact ensures_functionParameters (fun _ => hx) fun _ => sub .parameters hx
  | parameters => exact sub.parameters hx
  | callExpression function =>
    exact ensures_callExpression (sub (.expressionList .rightParen) hx)
  | expressionList closing => exact sub.expressionList hx closing
  | expressions => exact sub.expressions hx

end KeepsWarranted

/-- No run reports anything without a reason. -/
theorem keepsWarranted (fuel : Nat) : KeepsWarranted σ fuel := by
  induction fuel with
  | zero => exact fun _ _ hx => Ensures.throw hx
  | succ fuel sub => exact fun g _ hx => ensures_run_succ (sub.step hx g)

end Parse

end Pratt
