import Pratt.Proofs.Fuel

/-!
# Pratt — which faults there are

With the tables of the language there is one kind of fault only: the current
token is an integer whose text has more digits than can be converted
(`Parse.overflowsOnly_run`). So a list of tokens without such an integer is always
parsed to a tree (`exists_tree_of_parseProgram`).
-/

namespace Pratt

variable {σ : Type} [TokenSource σ]

/-- The current token is an integer with too many digits, which is what the fault says. -/
def Overflow (e : Fault) (y : View σ) : Prop :=
  e ≠ .endlessRules → ∃ digits, e = .oversizedInteger digits ∧ y.current.kind = .int ∧
    Numeral.read y.current.literal.toList = .oversized digits

namespace Parse

/-- These goals end in no other fault but that of having run out of fuel. -/
def OverflowsOnly (p : Recur σ) : Prop :=
  ∀ (g : Goal) (x : View σ), (g = .integerLiteral → x.current.kind = .int) →
    Ensures (p g) x (fun _ _ => True) Overflow

namespace OverflowsOnly

variable {p : Recur σ} (sub : OverflowsOnly p) {x : View σ}
include sub

omit [TokenSource σ] in
/-- No rule but that of an operand leads to an integer. -/
theorem other {y : View σ} (g : Goal) (hne : g ≠ .integerLiteral := by nofun) :
    Ensures (p g) y (fun _ _ => True) Overflow :=
  sub g y fun h => absurd h hne

/-- A list of statements faults in one of them, since a skip reads no integer. -/
theorem statements (closer : Kind) :
    Ensures (Parse.statements p closer) x (fun _ _ => True) Overflow := by
  refine ensures_statements (fun _ => trivial) fun _ => ?_
  refine (sub.other .statement).imp_result fun _ _ _ => ⟨fun _ _ => sub.other _, fun _ => ?_⟩
  exact (sub.other (.recovery 0)).imp_result fun _ _ _ => sub.other _

omit [TokenSource σ] in
/-- The rule of integers is used on an integer. -/
theorem operand : Ensures (Parse.operand p) x (fun _ _ => True) Overflow :=
  ensures_operand (fun _ => trivial) (fun _ => sub.other _)
    (fun hk => sub .integerLiteral x fun _ => hk) (fun _ => sub.other _) (fun _ => sub.other _)
    (fun _ => sub.other _) (fun _ => sub.other _) fun _ => sub.other _

omit [TokenSource σ] in
theorem expression (bound : Int) :
    Ensures (Parse.expression p bound) x (fun _ _ => True) Overflow :=
  ensures_expression (sub.operand.imp_result fun _ _ _ => ⟨fun _ => trivial, fun _ _ => sub.other _⟩)

/-- An expression goes on with right operands and arguments, which are read from their own
starts. -/
theorem continuation (bound : Int) (left : Node) :
    Ensures (Parse.continuation p bound left) x (fun _ _ => True) Overflow := by
  refine ensures_continuation (fun _ => trivial) (fun _ _ => ?_) fun _ _ => ?_
  · exact (sub.other (.infixExpression left)).imp_result
      fun _ _ _ => ⟨fun _ => trivial, fun _ _ => sub.other _⟩
  · exact (sub.other (.callExpression left)).imp_result
      fun _ _ _ => ⟨fun _ => trivial, fun _ _ => sub.other _⟩

theorem ifExpression : Ensures (Parse.ifExpression p) x (fun _ _ => True) Overflow := by
  refine ensures_ifExpression (fun _ => trivial) fun _ => ?_
  refine (sub.other (.expression 1)).imp_result fun _ _ _ => ?_
  refine ⟨fun _ => trivial, fun _ _ => trivial, fun _ _ => ?_⟩
  refine (sub.other .blockStatement).imp_result fun _ _ _ => ⟨fun _ => trivial, fun _ _ => ?_⟩
  exact ensures_alternative (fun _ => trivial) (fun _ _ => trivial) fun _ _ => sub.other _

theorem functionLiteral : Ensures (Parse.functionLiteral p) x (fun _ _ => True) Overflow := by
  refine ensures_functionLiteral (fun _ => trivial) fun _ => ?_
  refine (sub.other .functionParameters).imp_result fun _ _ _ => ?_
  exact ⟨fun _ => trivial, fun _ _ _ => trivial, fun _ _ _ => sub.other _⟩

/-- The rule of integers is the one that may end in a fault. -/
theorem step (g : Goal) (hg : g = .integerLiteral → x.current.kind = .int) :
    Ensures (Parse.step p g) x (fun _ _ => True) Overflow := by
  cases g with
  | program => exact ensures_program (sub.other _)
  | statement =>
    exact ensures_statement (fun _ => sub.other _) (fun _ => sub.other _) fun _ _ => sub.other _
  | letStatement =>
    exact ensures_letStatement (fun _ => trivial) (fun _ _ => trivial) fun _ _ => sub.other _
  | returnStatement => exact ensures_returnStatement (sub.other _)
  | expressionStatement => exact ensures_expressionStatement (sub.other _)
  | blockStatement =>
    exact ensures_blockStatement
      ((sub.other _).imp_result fun _ _ _ => ⟨fun _ => trivial, fun _ => trivial⟩)
  | statements closer => exact sub.statements closer
  | recovery depth => exact ensures_recovery (fun _ => trivial) fun _ _ _ => sub.other _
  | expression bound => exact sub.expression bound
  | continuation bound left => exact sub.continuation bound left
  | identifier => exact ensures_identifier trivial
  | integerLiteral =>
    -- the one rule that raises the fault itself
    exact ensures_integerLiteral (fun _ _ => trivial)
      (fun digits hdigits _ => ⟨digits, rfl, hg rfl, hdigits⟩) fun _ => trivial
  | boolean => exact ensures_boolean trivial
  | prefixExpression => exact ensures_prefixExpression (sub.other _)
  | infixExpression left => exact ensures_infixExpression (sub.other _)
  | groupedExpression =>
    exact ensures_groupedExpression
      ((sub.other _).imp_result fun _ _ _ => ⟨fun _ => trivial, fun _ => trivial⟩)
  | ifExpression => exact sub.ifExpression
  | functionLiteral => exact sub.functionLiteral
  | functionParameters =>
    exact ensures_functionParameters (fun _ => trivial) fun _ => sub.other _
  | parameters =>
    exact ensures_parameters (fun _ => trivial) (fun _ _ => sub.other _) (fun _ _ => trivial)
      fun _ _ _ => trivial
  | callExpression function => exact ensures_callExpression (sub.other _)
  | expressionList closing =>
    refine ensures_expressionList (fun _ => trivial) fun _ => ?_
    exact (sub.other .expressions).imp_result fun _ _ _ => ⟨fun _ => trivial, fun _ => trivial⟩
  | expressions =>
    refine ensures_expressions ((sub.other _).imp_result fun _ _ _ => ?_)
    exact ⟨fun _ => sub.other _, fun _ => trivial⟩

end OverflowsOnly

/-- A run that does not run out of fuel ends in no other fault. -/
theorem overflowsOnly_run (fuel : Nat) : OverflowsOnly (run fuel : Recur σ) := by
  induction fuel with
  | zero => exact fun _ _ _ => Ensures.throw fun hne => absurd rfl hne
  | succ fuel sub => exact fun g x hg => ensures_run_succ (sub.step g hg)

end Parse

/-- A text that is short enough if it is a numeral at all can be converted. -/
theorem Numeral.read_ne_oversized {text : List Char}
    (hshort : isNumeral text = true → text.length ≤ mostDigits) (digits : Nat) :
    read text ≠ .oversized digits := by
  intro hdigits
  obtain ⟨numeral, long, -⟩ := read_eq_oversized_iff.1 hdigits
  exact absurd (hshort numeral) (Nat.not_le.2 long)

/-- A source is parsed to a tree, or a token of it is an integer with too many digits. -/
theorem exists_tree_or_oversized [LawfulTokenSource σ] (source : σ) (tracing : Bool) :
    (∃ tree s, parseProgram source tracing = (.ok tree, s)) ∨
      ∃ ts w digits, (View.start source).window.Reads ts w ∧ w.current.kind = .int ∧
        Numeral.read w.current.literal.toList = .oversized digits := by
  have achieves : Parse.Achieves .program (View.start source) (fun _ _ => True)
      fun _ y => (View.start source).Follows y ∧ y.current.kind = .int ∧
        ∃ digits, Numeral.read y.current.literal.toList = .oversized digits := by
    intro fuel
    refine ((Parse.ensures_run_follows fuel .program _).and
      (Parse.overflowsOnly_run fuel .program _ nofun)).imp (fun _ _ _ => trivial)
      fun _ _ h hne => ?_
    -- whatever stopped the run was an integer, where the window is now
    obtain ⟨digits, -, hk, hdigits⟩ := h.2 hne
    exact ⟨h.1, hk, digits, hdigits⟩
  rcases achieves.parseProgram tracing with
    ⟨tree, s, hrun, -⟩ | ⟨e, s, -, ⟨⟨ts, hts⟩, -⟩, hk, digits, hdigits⟩
  · exact .inl ⟨tree, s, hrun⟩
  · exact .inr ⟨ts, _, digits, hts, hk, hdigits⟩

/-- A list of tokens is parsed to a tree, unless one of its tokens is an integer with too many
digits. -/
theorem exists_tree_of_parseProgram {ts : List Token}
    (hshort : ∀ t ∈ ts, t.kind = .int → ∀ digits,
      Numeral.read t.literal.toList ≠ .oversized digits) (tracing : Bool) :
    ∃ tree s, parseProgram ts tracing = (.ok tree, s) := by
  rcases exists_tree_or_oversized ts tracing with htree | ⟨us, w, digits, hus, hk, hdigits⟩
  · exact htree
  -- what the window is on is in the list, or is no integer
  · rw [View.start_ofList] at hus
    rcases Window.current_mem_of_reads_ofList hus with hmem | heof
    · exact absurd hdigits (hshort _ hmem hk digits)
    · exact absurd (hk.symm.trans (congrArg Token.kind heof)) (by decide)

end Pratt
