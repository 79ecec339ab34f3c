import Pratt.Parser.Program
import Pratt.Proofs.Progress

/-!
# Pratt — enough fuel

With the tables of the language, goals do not lead to each other without end:
`Goal.cost` bounds how deep they do, by the number of tokens that may still
come, and a run with that much fuel never runs out of it (`ensures_run_cost`).
`Parse.enough` is at least that, so `perform` never does.

The bound rests on one count, `Window.size`: each move onto a token that is not
the end of the input lowers it. A goal that leads to another one either has read
such a token before or is of a higher rank, and the ranks are below sixteen.

So fuel need not be counted anywhere else. `Parse.Achieves g x Q E` says of the
runs with any amount of fuel at once that those which do not run out of it end
as `Q` and `E` say. It is proved rule by rule (`Achieves.of_step`), and then
`perform` ends that way (`Achieves.perform`).
-/

namespace Pratt

/-- A source in which `remaining` bounds the number of tokens to come, those that are not the end
of the input. -/
class LawfulTokenSource (σ : Type) [TokenSource σ] : Prop where
  remaining_next_le (source : σ) :
    TokenSource.remaining (TokenSource.next source).2 ≤ TokenSource.remaining source
  remaining_next_lt (source : σ) : (TokenSource.next source).1.kind ≠ .eof →
    TokenSource.remaining (TokenSource.next source).2 < TokenSource.remaining source

instance : LawfulTokenSource (List Token) where
  remaining_next_le ts := by
    cases ts with
    | nil => exact Nat.le_refl _
    | cons t ts => exact Nat.le_succ _
  remaining_next_lt ts h := by
    cases ts with
    | nil => exact absurd rfl h
    | cons t ts => exact Nat.lt_succ_self _

instance : LawfulTokenSource Cursor where
  remaining_next_le c := c.length_rest_scan_le
  remaining_next_lt _ h := Cursor.length_rest_scan h

variable {σ : Type} [TokenSource σ]

namespace Window

/-- A bound on the number of tokens after the current one. -/
def ahead (w : Window σ) : Nat :=
  TokenSource.remaining w.source + if w.peek.kind = .eof then 0 else 1

/-- A bound on the number of tokens from the current one on. -/
def size (w : Window σ) : Nat :=
  w.ahead + if w.current.kind = .eof then 0 else 1

/-- A current token that is not the end of the input is one more to be read. -/
theorem size_of_ne {w : Window σ} (h : w.current.kind ≠ .eof) : w.size = w.ahead + 1 := by
  rw [size, if_neg h]

theorem ahead_le_size (w : Window σ) : w.ahead ≤ w.size :=
  Nat.le_add_right ..

theorem size_le_ahead (w : Window σ) : w.size ≤ w.ahead + 1 := by
  unfold size
  split <;> omega

/-- No more is ahead than what the source still has and the token already pulled. -/
theorem ahead_le_remaining (w : Window σ) :
    w.ahead ≤ TokenSource.remaining w.source + 1 := by
  unfold ahead
  split <;> omega

variable [LawfulTokenSource σ]

/-- Moving on leaves what was ahead, and nothing else. -/
theorem size_advance_le (w : Window σ) : w.advance.size ≤ w.ahead := by
  have hle := LawfulTokenSource.remaining_next_le w.source
  have hlt := LawfulTokenSource.remaining_next_lt w.source
  rw [size, ahead, ahead, current_advance, peek_advance, source_advance]
  -- either the source has nothing to give, or it has less to give then
  by_cases hnext : (TokenSource.next w.source).1.kind = .eof
  · rw [if_pos hnext]
    omega
  · have := hlt hnext
    rw [if_neg hnext]
    omega

/-- Moving on leaves no more ahead than before. -/
theorem ahead_advance_le (w : Window σ) : w.advance.ahead ≤ w.ahead :=
  Nat.le_trans w.advance.ahead_le_size w.size_advance_le

/-- It leaves less ahead where the next token is not the end of the input. -/
theorem ahead_advance_lt {w : Window σ} (h : w.peek.kind ≠ .eof) : w.advance.ahead < w.ahead := by
  have hsize := w.size_advance_le
  rwa [size_of_ne h] at hsize

/-- What reading leaves ahead was ahead before. -/
theorem ahead_le_of_reads {w w' : Window σ} {ts : List Token} (h : w.Reads ts w') :
    w'.ahead ≤ w.ahead := by
  induction ts generalizing w with
  | nil => exact Nat.le_of_eq (congrArg ahead h.symm)
  | cons t ts ih => exact Nat.le_trans (ih h.2) w.ahead_advance_le

/-- What reading leaves was there before, also with the current token counted. -/
theorem size_le_of_reads {w w' : Window σ} {ts : List Token} (h : w.Reads ts w') :
    w'.size ≤ w.size := by
  induction ts generalizing w with
  | nil => exact Nat.le_of_eq (congrArg size h.symm)
  | cons t ts ih =>
    -- one token is read, and then the others
    exact Nat.le_trans (ih h.2) (Nat.le_trans w.size_advance_le w.ahead_le_size)

end Window

/-- A bound on how deep goals lead to each other from one pursued on a window. -/
def Goal.cost (w : Window σ) : Goal → Nat
  | .identifier | .integerLiteral | .boolean => 1
  -- Goals that begin by moving on from the current token.
  | .letStatement | .returnStatement | .blockStatement | .prefixExpression | .infixExpression _
  | .groupedExpression | .ifExpression | .functionLiteral | .expressionList _ =>
    16 * (w.ahead + 1) + 1
  | .callExpression _ => 16 * (w.ahead + 1) + 2
  -- Goals that begin by looking at the token after the current one.
  | .parameters => 16 * w.ahead + 1
  | .functionParameters => 16 * w.ahead + 2
  | .continuation _ _ => 16 * w.ahead + 3
  -- Goals that begin by looking at the current token.
  | .recovery _ => 16 * w.size + 1
  | .expression _ => 16 * w.size + 4
  | .expressionStatement | .expressions => 16 * w.size + 5
  | .statement => 16 * w.size + 6
  | .statements _ => 16 * w.size + 7
  | .program => 16 * w.size + 8

/-- No goal is for free. -/
theorem Goal.one_le_cost (g : Goal) (w : Window σ) : 1 ≤ g.cost w := by
  cases g <;> simp only [cost] <;> omega

namespace View.Follows

variable [LawfulTokenSource σ] {x y : View σ}

theorem ahead_le (h : x.Follows y) : y.window.ahead ≤ x.window.ahead :=
  have ⟨_, hts⟩ := h.1
  Window.ahead_le_of_reads hts

theorem size_le (h : x.Follows y) : y.window.size ≤ x.window.size :=
  have ⟨_, hts⟩ := h.1
  Window.size_le_of_reads hts

end View.Follows

namespace Parse

variable [LawfulTokenSource σ]

/-- Any fault but that of running out of fuel. -/
abbrev Fueled : Fault → View σ → Prop := fun e _ => e ≠ .endlessRules

/-- This much fuel suffices for every goal that costs no more. Where a goal ends is part of what its
run ensures, since what comes behind it has to be paid for as well. -/
def Suffices (σ : Type) [TokenSource σ] (fuel : Nat) : Prop :=
  ∀ (g : Goal) (x : View σ), g.cost x.window ≤ fuel →
    Ensures (run fuel g) x (fun _ y => (g.entry x).Follows y) Fueled

namespace Suffices

variable {fuel : Nat} {x y : View σ}

omit [LawfulTokenSource σ] in
/-- A goal with nothing behind it. -/
theorem last (sub : Suffices σ fuel) {g : Goal} (h : g.cost y.window ≤ fuel) :
    Ensures (run fuel g) y (fun _ _ => True) Fueled :=
  (sub g y h).imp_result fun _ _ _ => trivial

/-- A block is pursued on its brace, which has then been read. -/
theorem cost_blockStatement (hbrace : y.peek.kind = .leftBrace)
    (hfuel : 16 * y.window.ahead + 1 ≤ fuel) :
    Goal.blockStatement.cost y.advance.window ≤ fuel := by
  have brace := Window.ahead_advance_lt (w := y.window) (by rw [hbrace]; decide)
  simp only [Goal.cost, View.window_advance]
  omega

/-- The value is three tokens behind the word. -/
theorem letStatement (sub : Suffices σ fuel)
    (hcost : Goal.letStatement.cost x.window ≤ fuel + 1) :
    Ensures (letStatement (run fuel)) x (fun _ _ => True) Fueled := by
  simp only [Goal.cost] at hcost
  refine ensures_letStatement (fun _ => trivial) (fun _ _ => trivial) fun _ _ => ?_
  have first := x.window.ahead_advance_le
  have second := x.window.advance.ahead_advance_le
  have value := x.window.advance.advance.size_advance_le
  exact sub.last (by simp only [Goal.cost, View.window_advance]; omega)

/-- Between one statement and the next at least one token is read. -/
theorem statements (sub : Suffices σ fuel) {closer : Kind}
    (hcost : (Goal.statements closer).cost x.window ≤ fuel + 1) :
    Ensures (statements (run fuel) closer) x (fun _ _ => True) Fueled := by
  simp only [Goal.cost] at hcost
  refine ensures_statements (fun _ => trivial) fun hmore => ?_
  have hsize := Window.size_of_ne (w := x.window) (not_or.1 hmore).2
  -- The rest starts behind the first token of the statement.
  have rest : ∀ {y : View σ}, x.Follows y →
      Ensures (run fuel (.statements closer)) y.advance (fun _ _ => True) Fueled := by
    intro y hy
    have hadvance := y.window.size_advance_le
    have hahead := hy.ahead_le
    exact sub.last (by simp only [Goal.cost, View.window_advance]; omega)
  refine (sub .statement x ?_).imp_result fun _ y hy => ?_
  · simp only [Goal.cost]
    omega
  · refine ⟨fun _ _ => rest hy, fun _ => ?_⟩
    -- without a statement there is the recovery in between
    have hle := hy.size_le
    refine (sub (.recovery 0) y ?_).imp_result fun _ z hz => rest (hy.trans hz)
    simp only [Goal.entry, Goal.cost] at hle ⊢
    omega

/-- An operand costs less than the expression that starts with it, though it starts at the same
token: its rule moves on from there. -/
theorem expression (sub : Suffices σ fuel) {bound : Int}
    (hcost : (Goal.expression bound).cost x.window ≤ fuel + 1) :
    Ensures (expression (run fuel) bound) x (fun _ _ => True) Fueled := by
  simp only [Goal.cost] at hcost
  have hwhole := x.window.ahead_le_size
  have goesOn : ∀ v y, x.Follows y → (v = none → True) ∧ ∀ left, v = some left →
      Ensures (run fuel (.continuation bound left)) y (fun _ _ => True) Fueled := by
    intro v y hy
    have hahead := hy.ahead_le
    exact ⟨fun _ => trivial, fun _ _ => sub.last (by simp only [Goal.cost]; omega)⟩
  refine ensures_expression (Ensures.imp_result ?_ goesOn)
  -- Where there is a rule for the operand, it is on a token to move on from.
  have started : x.current.kind ∈ Kind.opening → 16 * (x.window.ahead + 1) + 1 ≤ fuel := by
    intro hopening
    have hsize := Window.size_of_ne (w := x.window)
      (ne_of_mem_of_not_mem hopening (by decide : Kind.eof ∉ Kind.opening))
    omega
  have prefixed : ∀ k ∈ Kind.prefixOperators, k ∈ Kind.opening := by decide
  have single : 1 ≤ fuel := by omega
  exact ensures_operand (fun _ => (View.Follows.refl x).report _ _)
    (fun _ => sub .identifier x single) (fun _ => sub .integerLiteral x single)
    (fun _ => sub .boolean x single)
    (fun hk => sub .prefixExpression x (started (prefixed _ hk)))
    (fun hk => sub .groupedExpression x (started (by rw [hk]; decide)))
    (fun hk => sub .ifExpression x (started (by rw [hk]; decide)))
    fun hk => sub .functionLiteral x (started (by rw [hk]; decide))

/-- Each operator or call that an expression goes on with is a token further on. -/
theorem continuation (sub : Suffices σ fuel) {bound : Int} {left : Node}
    (hcost : (Goal.continuation bound left).cost x.window ≤ fuel + 1) :
    Ensures (continuation (run fuel) bound left) x (fun _ _ => True) Fueled := by
  simp only [Goal.cost] at hcost
  -- Going on again is behind an operator or a parenthesis, which is no end of the input.
  have goesOn : x.peek.kind ≠ .eof → ∀ v y, x.advance.advance.Follows y →
      (v = none → True) ∧ ∀ longer, v = some longer →
        Ensures (run fuel (.continuation bound longer)) y (fun _ _ => True) Fueled := by
    intro hpeek v y hy
    have hahead := hy.ahead_le
    have hlt := Window.ahead_advance_lt hpeek
    have hle := x.window.advance.ahead_advance_le
    simp only [View.window_advance] at hahead
    exact ⟨fun _ => trivial, fun _ _ => sub.last (by simp only [Goal.cost]; omega)⟩
  refine ensures_continuation (fun _ => trivial) (fun hoperator _ => ?_) fun hcall _ => ?_
  · have hpeek : x.peek.kind ≠ .eof := fun heof => absurd (heof ▸ hoperator) (by decide)
    have hlt := Window.ahead_advance_lt hpeek
    refine (sub _ _ ?_).imp_result (goesOn hpeek)
    simp only [Goal.cost, View.window_advance]
    omega
  · have hpeek : x.peek.kind ≠ .eof := fun heof => absurd (heof ▸ hcall) (by decide)
    have hlt := Window.ahead_advance_lt hpeek
    refine (sub _ _ ?_).imp_result (goesOn hpeek)
    simp only [Goal.cost, View.window_advance]
    omega

/-- Each part of a conditional is behind a token of its own. -/
theorem ifExpression (sub : Suffices σ fuel)
    (hcost : Goal.ifExpression.cost x.window ≤ fuel + 1) :
    Ensures (ifExpression (run fuel)) x (fun _ _ => True) Fueled := by
  simp only [Goal.cost] at hcost
  -- behind the parenthesis less is to be read than was ahead of the word
  have first := x.window.ahead_advance_le
  have second := x.window.advance.ahead_advance_le
  have test := x.window.advance.size_advance_le
  refine ensures_ifExpression (fun _ => trivial) fun _ => ?_
  refine (sub (.expression 1) _ ?_).imp_result fun _ y hy => ?_
  · simp only [Goal.cost, View.window_advance]
    omega
  refine ⟨fun _ => trivial, fun _ _ => trivial, fun _ hbrace => ?_⟩
  -- behind the condition and its parenthesis
  have hahead := hy.ahead_le
  have hadvance := y.window.ahead_advance_le
  simp only [Goal.entry, View.window_advance] at hahead
  refine (sub .blockStatement _ (cost_blockStatement hbrace ?_)).imp_result fun _ z hz => ?_
  · simp only [View.window_advance]
    omega
  refine ⟨fun _ => trivial, fun _ _ => ?_⟩
  -- behind the block and the `else`
  have hahead' := hz.ahead_le
  have hadvance' := z.window.ahead_advance_le
  have twice := y.window.advance.ahead_advance_le
  simp only [Goal.entry, View.window_advance] at hahead'
  refine ensures_alternative (fun _ => trivial) (fun _ _ => trivial) fun _ hbrace' => ?_
  refine sub.last (cost_blockStatement hbrace' ?_)
  simp only [View.window_advance]
  omega

/-- The body is behind the parameters, wherever these end. -/
theorem functionLiteral (sub : Suffices σ fuel)
    (hcost : Goal.functionLiteral.cost x.window ≤ fuel + 1) :
    Ensures (functionLiteral (run fuel)) x (fun _ _ => True) Fueled := by
  simp only [Goal.cost] at hcost
  have first := x.window.ahead_advance_le
  refine ensures_functionLiteral (fun _ => trivial) fun _ => ?_
  refine (sub .functionParameters _ ?_).imp_result fun _ y hy => ?_
  · simp only [Goal.cost, View.window_advance]
    omega
  refine ⟨fun _ => trivial, fun _ _ _ => trivial, fun _ _ hbrace => ?_⟩
  have hahead := hy.ahead_le
  simp only [Goal.entry, View.window_advance] at hahead
  exact sub.last (cost_blockStatement hbrace (by omega))

/-- The next item is behind a comma. -/
theorem expressions (sub : Suffices σ fuel)
    (hcost : Goal.expressions.cost x.window ≤ fuel + 1) :
    Ensures (expressions (run fuel)) x (fun _ _ => True) Fueled := by
  simp only [Goal.cost] at hcost
  have hwhole := x.window.ahead_le_size
  refine ensures_expressions ((sub (.expression 1) x ?_).imp_result fun _ y hy => ?_)
  · simp only [Goal.cost]
    omega
  refine ⟨fun hcomma => ?_, fun _ => trivial⟩
  -- the next item is behind a comma
  have hahead := hy.ahead_le
  have hlt := Window.ahead_advance_lt (w := y.window) (by rw [hcomma]; decide)
  have hsize := y.window.advance.size_advance_le
  simp only [Goal.entry] at hahead
  exact sub.last (by simp only [Goal.cost, View.window_advance]; omega)

omit [LawfulTokenSource σ] in
/-- The two words that a statement may start with are tokens to move on from, which pays for the
higher rank of their rules. -/
theorem statement (sub : Suffices σ fuel) (hcost : Goal.statement.cost x.window ≤ fuel + 1) :
    Ensures (statement (run fuel)) x (fun _ _ => True) Fueled := by
  simp only [Goal.cost] at hcost
  refine ensures_statement (fun hlet => ?_) (fun hreturn => ?_) fun _ _ => ?_
  · have hsize := Window.size_of_ne (w := x.window) (by rw [hlet]; decide)
    exact sub.last (by simp only [Goal.cost]; omega)
  · have hsize := Window.size_of_ne (w := x.window) (by rw [hreturn]; decide)
    exact sub.last (by simp only [Goal.cost]; omega)
  · exact sub.last (by simp only [Goal.cost]; omega)

theorem returnStatement (sub : Suffices σ fuel)
    (hcost : Goal.returnStatement.cost x.window ≤ fuel + 1) :
    Ensures (returnStatement (run fuel)) x (fun _ _ => True) Fueled := by
  simp only [Goal.cost] at hcost
  have moved := x.window.size_advance_le
  exact ensures_returnStatement (sub.last (by simp only [Goal.cost, View.window_advance]; omega))

theorem blockStatement (sub : Suffices σ fuel)
    (hcost : Goal.blockStatement.cost x.window ≤ fuel + 1) :
    Ensures (blockStatement (run fuel)) x (fun _ _ => True) Fueled := by
  simp only [Goal.cost] at hcost
  have moved := x.window.size_advance_le
  refine ensures_blockStatement (Ensures.imp_result (sub.last ?_) fun _ _ _ => ?_)
  · simp only [Goal.cost, View.window_advance]
    omega
  · exact ⟨fun _ => trivial, fun _ => trivial⟩

/-- A skip goes on behind a token that is not the end of the input. -/
theorem recovery (sub : Suffices σ fuel) {depth : Nat}
    (hcost : (Goal.recovery depth).cost x.window ≤ fuel + 1) :
    Ensures (recovery (run fuel) depth) x (fun _ _ => True) Fueled := by
  simp only [Goal.cost] at hcost
  have moved := x.window.size_advance_le
  refine ensures_recovery (fun _ => trivial) fun hcurrent _ _ => ?_
  have hsize := Window.size_of_ne hcurrent
  exact sub.last (by simp only [Goal.cost, View.window_advance]; omega)

theorem groupedExpression (sub : Suffices σ fuel)
    (hcost : Goal.groupedExpression.cost x.window ≤ fuel + 1) :
    Ensures (groupedExpression (run fuel)) x (fun _ _ => True) Fueled := by
  simp only [Goal.cost] at hcost
  have moved := x.window.size_advance_le
  refine ensures_groupedExpression (Ensures.imp_result (sub.last ?_) fun _ _ _ => ?_)
  · simp only [Goal.cost, View.window_advance]
    omega
  · exact ⟨fun _ => trivial, fun _ => trivial⟩

/-- The parameters behind a comma are at least a name further on. -/
theorem parameters (sub : Suffices σ fuel) (hcost : Goal.parameters.cost x.window ≤ fuel + 1) :
    Ensures (parameters (run fuel)) x (fun _ _ => True) Fueled := by
  simp only [Goal.cost] at hcost
  refine ensures_parameters (fun _ => trivial) (fun hname _ => ?_) (fun _ _ => trivial)
    fun _ _ _ => trivial
  have hlt := Window.ahead_advance_lt (w := x.window) (by rw [hname]; decide)
  have hle := x.window.advance.ahead_advance_le
  exact sub.last (by simp only [Goal.cost, View.window_advance]; omega)

theorem expressionList (sub : Suffices σ fuel) {closing : Kind}
    (hcost : (Goal.expressionList closing).cost x.window ≤ fuel + 1) :
    Ensures (expressionList (run fuel) closing) x (fun _ _ => True) Fueled := by
  simp only [Goal.cost] at hcost
  have moved := x.window.size_advance_le
  refine ensures_expressionList (fun _ => trivial) fun _ => ?_
  refine (sub.last (g := .expressions) ?_).imp_result fun _ _ _ => ?_
  · simp only [Goal.cost, View.window_advance]
    omega
  · exact ⟨fun _ => trivial, fun _ => trivial⟩

/-- Each rule can pay for the goals that it leads to, with one unit left for itself. -/
theorem step (sub : Suffices σ fuel) {g : Goal} (hcost : g.cost x.window ≤ fuel + 1) :
    Ensures (step (run fuel) g) x (fun _ _ => True) Fueled := by
  have moved := x.window.size_advance_le
  cases g with
  | program =>
    simp only [Goal.cost] at hcost
    exact ensures_program (sub.last (by simp only [Goal.cost]; omega))
  | statement => exact sub.statement hcost
  | letStatement => exact sub.letStatement hcost
  | returnStatement => exact sub.returnStatement hcost
  | expressionStatement =>
    simp only [Goal.cost] at hcost
    exact ensures_expressionStatement (sub.last (by simp only [Goal.cost]; omega))
  | blockStatement => exact sub.blockStatement hcost
  | statements closer => exact sub.statements hcost
  | recovery depth => exact sub.recovery hcost
  | expression bound => exact sub.expression hcost
  | continuation bound left => exact sub.continuation hcost
  | identifier => exact ensures_identifier trivial
  | integerLiteral =>
    -- an overflow is a fault of its own
    exact ensures_integerLiteral (fun _ _ => trivial) (fun _ _ => by simp) fun _ => trivial
  | boolean => exact ensures_boolean trivial
  | prefixExpression =>
    simp only [Goal.cost] at hcost
    exact ensures_prefixExpression
      (sub.last (by simp only [Goal.cost, View.window_advance]; omega))
  | infixExpression left =>
    simp only [Goal.cost] at hcost
    exact ensures_infixExpression
      (sub.last (by simp only [Goal.cost, View.window_advance]; omega))
  | groupedExpression => exact sub.groupedExpression hcost
  | ifExpression => exact sub.ifExpression hcost
  | functionLiteral => exact sub.functionLiteral hcost
  | functionParameters =>
    simp only [Goal.cost] at hcost
    exact ensures_functionParameters (fun _ => trivial)
      fun _ => sub.last (by simp only [Goal.cost]; omega)
  | parameters => exact sub.parameters hcost
  | callExpression function =>
    simp only [Goal.cost] at hcost
    exact ensures_callExpression (sub.last (by simp only [Goal.cost]; omega))
  | expressionList closing => exact sub.expressionList hcost
  | expressions => exact sub.expressions hcost

end Suffices

/-- With the fuel that a goal costs, a run does not run out of it. -/
theorem ensures_run_cost {fuel : Nat} {g : Goal} {x : View σ} (hcost : g.cost x.window ≤ fuel) :
    Ensures (run fuel g) x (fun _ _ => True) Fueled := by
  induction fuel generalizing g x with
  | zero => exact absurd hcost (Nat.not_le.2 (g.one_le_cost x.window))
  | succ fuel ih =>
    -- a run is also known to go forward, which is what the rules count on
    have sub : Suffices σ fuel := fun g y h =>
      ((ensures_run_follows fuel g y).and (ih h)).imp (fun _ _ hz => hz.1) fun _ _ he => he.2
    exact ensures_run_succ (sub.step hcost)

/-! ## Any amount of fuel -/

/-- However much fuel a run of the goal gets from a state with the view `x`, it runs out of it, or
ends with a result and a view of which `Q` holds or in a fault and a view of which `E` holds. -/
def Achieves (g : Goal) (x : View σ) (Q : g.Result → View σ → Prop) (E : Fault → View σ → Prop) :
    Prop :=
  ∀ fuel, Ensures (run fuel g) x Q fun e y => e ≠ .endlessRules → E e y

variable {g : Goal} {x : View σ} {Q Q' : g.Result → View σ → Prop} {E E' : Fault → View σ → Prop}

omit [LawfulTokenSource σ] in
/-- Without fuel a run runs out of it, and otherwise it is a step, so what the steps achieve the
runs do. -/
theorem Achieves.of_step
    (h : ∀ fuel, Ensures (step (run fuel) g) x Q fun e y => e ≠ .endlessRules → E e y) :
    Achieves g x Q E := by
  intro fuel
  cases fuel with
  | zero => exact Ensures.throw fun hne => absurd rfl hne
  | succ fuel => exact ensures_run_succ (h fuel)

omit [LawfulTokenSource σ] in
/-- What is known of the end of a run may be weakened. -/
theorem Achieves.imp (h : Achieves g x Q E) (result : ∀ v y, Q v y → Q' v y)
    (fault : ∀ e y, E e y → E' e y) : Achieves g x Q' E' :=
  fun fuel => (h fuel).imp result fun e y hE hne => fault e y (hE hne)

omit [LawfulTokenSource σ] in
theorem Achieves.imp_result (h : Achieves g x Q E) (result : ∀ v y, Q v y → Q' v y) :
    Achieves g x Q' E :=
  h.imp result fun _ _ he => he

omit [LawfulTokenSource σ] in
/-- The fuel that a call takes pays for every goal. -/
theorem cost_le_enough (g : Goal) (s : State σ) : g.cost s.view.window ≤ enough s := by
  have hsize := s.view.window.size_le_ahead
  have hahead := s.view.window.ahead_le_remaining
  have hremaining : TokenSource.remaining s.view.window.source =
      TokenSource.remaining s.source := rfl
  unfold enough
  cases g <;> simp only [Goal.cost] <;> omega

omit [LawfulTokenSource σ] in
/-- There is fuel for more than one goal at each of the tokens to come. -/
theorem ahead_add_one_lt_enough (s : State σ) : s.view.window.ahead + 1 < enough s := by
  have hahead : s.view.window.ahead ≤ TokenSource.remaining s.source + 1 :=
    s.view.window.ahead_le_remaining
  unfold enough
  omega

/-- What a goal achieves, `perform` ensures. -/
theorem Achieves.perform (h : Achieves g x Q E) : Ensures (perform g) x Q E := by
  intro s hs hx
  subst hx
  -- The fuel that `perform` gives is one that the run does not run out of.
  have hrun := (h (enough s)).and (ensures_run_cost (cost_le_enough g s))
  exact (hrun.imp (fun _ _ hQ => hQ.1) fun _ _ hE => hE.1 hE.2) s hs rfl

/-- What is achieved without a fault comes out of a run. -/
theorem Achieves.exists_perform {s : State σ} (h : Achieves g s.view Q fun _ _ => False)
    (hs : s.Standard) : ∃ v t, Parse.perform g s = .ok v t ∧ t.Standard ∧ Q v t.view := by
  have ends := h.perform s hs rfl
  cases hrun : Parse.perform g s with
  | ok v t =>
    rw [hrun] at ends
    exact ⟨v, t, rfl, ends⟩
  | error e t =>
    rw [hrun] at ends
    exact ends.2.elim

end Parse

/-! ## Whole programs -/

/-- The view of a new parser: the window on the first two tokens, nothing reported. -/
def View.start (source : σ) : View σ :=
  ⟨.filled source, []⟩

/-- A new parser sees all of the tokens it is given, and has found nothing wrong. -/
theorem View.start_ofList (ts : List Token) : View.start ts = ⟨.ofList ts, []⟩ := by
  match ts with
  | [] => rfl
  | [t] => rfl
  | t :: u :: ts => rfl

/-- A list of tokens is read from its start to its end. -/
theorem View.reads_start (ts : List Token) : (View.start ts).window.Reads ts (.ofList []) := by
  rw [View.start_ofList]
  simpa using Window.reads_ofList ts []

/-- What is so of every run of the goal of a program is so of a parsed one. -/
theorem Parse.of_parseProgram {source : σ} {tracing : Bool} {tree : Node} {s : State σ}
    {Q : Node → View σ → Prop} {E : Fault → View σ → Prop}
    (h : ∀ fuel, Ensures (run fuel .program) (View.start source) Q E)
    (hrun : parseProgram source tracing = (.ok tree, s)) : Q tree s.view := by
  have ends := h (enough (State.start source tracing)) (.start source tracing) ⟨rfl, rfl⟩ rfl
  have hperform : perform .program (State.start source tracing) = .ok tree s :=
    eq_ok_of_outcome hrun
  unfold perform at hperform
  rw [hperform] at ends
  exact ends.2

/-- What the goal of a whole program achieves is what comes of parsing a source, traced or not. -/
theorem Parse.Achieves.parseProgram [LawfulTokenSource σ] {source : σ}
    {Q : Node → View σ → Prop} {E : Fault → View σ → Prop}
    (h : Achieves .program (View.start source) Q E) (tracing : Bool) :
    (∃ tree s, parseProgram source tracing = (.ok tree, s) ∧ Q tree s.view) ∨
      ∃ e s, parseProgram source tracing = (.error e, s) ∧ E e s.view := by
  -- a new parser has the tables of the language and has reported nothing
  have ends := h.perform (.start source tracing) ⟨rfl, rfl⟩ rfl
  unfold Pratt.parseProgram outcome
  cases hrun : Parse.perform .program (State.start source tracing) with
  | ok tree s =>
    rw [hrun] at ends
    exact .inl ⟨tree, s, rfl, ends.2⟩
  | error e s =>
    rw [hrun] at ends
    exact .inr ⟨e, s, rfl, ends.2⟩

end Pratt
