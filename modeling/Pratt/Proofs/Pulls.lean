import Pratt.Proofs.Faults
import Pratt.Proofs.Lockstep

/-!
# Pratt — how many tokens are pulled

A parser pulls each token of a list once. Behind the list it gets the end of the input as often as it
asks for it, and it may ask again: whatever a list of statements ends in, the window is moved on once
more. This happens once for the program and once for each block, and a block has a brace.

So the window is never moved on from the end of the input but by a list of statements. The proof keeps
an account, `Window.outlay`: the tokens pulled and those left in the list, at least what it takes for
both tokens of the window to be the end of the input, and the braces still to come. No move raises
it but one from the end of the input, which raises it by one, and a move onto a brace lowers it by
one, which the block behind it may spend (`Parse.Spends`). There is one lemma for each rule, and
`Parse.spends` puts them together.
-/

namespace Pratt

/-- A source, and how many tokens were pulled from it so far. -/
structure Metered (σ : Type) where
  source : σ
  pulls : Nat

instance {σ : Type} [TokenSource σ] : TokenSource (Metered σ) where
  next m := ((TokenSource.next m.source).1, ⟨(TokenSource.next m.source).2, m.pulls + 1⟩)
  remaining m := TokenSource.remaining m.source

/-- A metered source gives the tokens of the source. -/
theorem Metered.sourceMap {σ : Type} [TokenSource σ] :
    SourceMap (Metered.source : Metered σ → σ) :=
  ⟨fun _ => rfl, fun _ => rfl⟩

namespace Window

/-- What was spent on a list of so many tokens, or may yet be: the pulls made and the tokens left, or
what it takes to reach the end of the input, and one pull for each brace to come. -/
def outlay (n : Nat) (w : Window (Metered (List Token))) : Nat :=
  max (w.source.pulls + w.source.source.length) (n + 2) +
    (w.peek :: w.source.source).countP (·.kind = .leftBrace)

/-- The window is on a list of so many tokens, of which none is the end of the input, or behind
it. -/
structure OnTrack (n : Nat) (w : Window (Metered (List Token))) : Prop where
  later : ∀ t ∈ w.source.source, t.kind ≠ .eof
  last : w.peek.kind = .eof → w.source.source = []
  behind : w.current.kind = .eof → w.peek.kind = .eof
  inside : w.peek.kind ≠ .eof → w.source.pulls + w.source.source.length ≤ n
  atLast : w.current.kind ≠ .eof → w.source.pulls + w.source.source.length ≤ n + 1

variable {n : Nat} {w : Window (Metered (List Token))}

/-- Staying on track is a matter of what is left in the list: each move takes one token from it, or
finds none. -/
theorem OnTrack.advance (h : w.OnTrack n) : w.advance.OnTrack n := by
  obtain ⟨⟨rest, pulls⟩, current, peek⟩ := w
  obtain ⟨later, last, behind, inside, atLast⟩ := h
  simp only at later last behind inside atLast
  cases rest with
  | nil =>
    -- nothing is left, so what is pulled is the end of the input
    refine ⟨nofun, fun _ => rfl, fun _ => rfl, fun h => absurd rfl h, fun hpeek => ?_⟩
    exact Nat.succ_le_succ (inside hpeek)
  | cons t rest =>
    -- as something is left, the token ahead is one of the list
    obtain ⟨ht, hrest⟩ := List.forall_mem_cons.1 later
    have hpeek : peek.kind ≠ .eof := fun heof => absurd (last heof) (by simp)
    have hinside := inside hpeek
    have hpulled : pulls + 1 + rest.length ≤ n := by
      rw [List.length_cons] at hinside
      omega
    exact ⟨hrest, fun heof => absurd heof ht, fun heof => absurd heof hpeek, fun _ => hpulled,
      fun _ => Nat.le_succ_of_le hpulled⟩

/-- A move that is not from the end of the input costs nothing, and gains something where it is onto
a brace. -/
theorem OnTrack.outlay_advance (h : w.OnTrack n) (hcurrent : w.current.kind ≠ .eof) :
    w.advance.outlay n + (if w.peek.kind = .leftBrace then 1 else 0) ≤ w.outlay n := by
  obtain ⟨⟨rest, pulls⟩, current, peek⟩ := w
  have hatLast := h.atLast hcurrent
  simp only at hatLast
  cases rest with
  | nil =>
    -- the pull was set aside as one of those that reach the end of the input
    show max (pulls + 1 + 0) (n + 2) + 0 + _ ≤ max (pulls + 0) (n + 2) + List.countP _ [peek]
    rw [List.countP_singleton]
    simp only [List.length_nil, decide_eq_true_eq] at hatLast ⊢
    omega
  | cons t rest =>
    -- the pull takes a token from the list, and the token ahead is not counted as a brace any more
    show max (pulls + 1 + rest.length) (n + 2) + List.countP _ (t :: rest) + _ ≤
      max (pulls + (rest.length + 1)) (n + 2) + List.countP _ (peek :: t :: rest)
    rw [List.countP_cons (a := peek)]
    simp only [decide_eq_true_eq]
    omega

/-- No more was pulled than what was spent or set aside. -/
theorem pulls_le_outlay (n : Nat) (w : Window (Metered (List Token))) :
    w.source.pulls ≤ w.outlay n := by
  unfold outlay
  omega

/-- Any move costs one at most. -/
theorem outlay_advance_le (n : Nat) (w : Window (Metered (List Token))) :
    w.advance.outlay n ≤ w.outlay n + 1 := by
  obtain ⟨⟨rest, pulls⟩, current, peek⟩ := w
  cases rest with
  | nil =>
    show max (pulls + 1 + 0) (n + 2) + 0 ≤ max (pulls + 0) (n + 2) + List.countP _ [peek] + 1
    omega
  | cons t rest =>
    show max (pulls + 1 + rest.length) (n + 2) + List.countP _ (t :: rest) ≤
      max (pulls + (rest.length + 1)) (n + 2) + List.countP _ (peek :: t :: rest) + 1
    rw [List.countP_cons (a := peek)]
    omega

end Window

/-! ## Accounts -/

/-- From the one view to the other not more than `k` was spent. -/
structure Within (n k : Nat) (x y : View (Metered (List Token))) : Prop where
  onTrack : y.window.OnTrack n
  outlay : y.window.outlay n ≤ x.window.outlay n + k

namespace Within

variable {n k l : Nat} {x y z : View (Metered (List Token))}

/-- Where nothing happens nothing is spent. -/
theorem refl (h : x.window.OnTrack n) : Within n 0 x x :=
  ⟨h, Nat.le_refl _⟩

/-- What is spent one after the other is added up. -/
theorem trans (h : Within n k x y) (h' : Within n l y z) : Within n (k + l) x z :=
  ⟨h'.onTrack, by have := h.outlay; have := h'.outlay; omega⟩

/-- Not to spend something is to stay within more. -/
theorem mono (h : Within n k x y) (hle : k ≤ l) : Within n l x y :=
  ⟨h.onTrack, by have := h.outlay; omega⟩

/-- A diagnostic costs nothing. -/
theorem report (h : Within n k x y) (token : Token) (cause : Cause) :
    Within n k x (y.report token cause) :=
  ⟨h.onTrack, h.outlay⟩

/-- A move from a token that is not the end of the input costs nothing, as it was set aside. -/
theorem advance (h : Within n k x y) (hcurrent : y.current.kind ≠ .eof) : Within n k x y.advance :=
  ⟨h.onTrack.advance, by
    have := h.onTrack.outlay_advance hcurrent
    have := h.outlay
    rw [View.window_advance]
    omega⟩

/-- In front of a token that is not the end of the input there is no end of the input. -/
theorem current_ne (h : Within n k x y) {wanted : Kind} (hpeek : y.peek.kind = wanted)
    (hwanted : wanted ≠ .eof) : y.current.kind ≠ .eof := by
  intro heof
  exact hwanted (hpeek.symm.trans (h.onTrack.behind heof))

/-- The next token is there, so the move onto it costs nothing. -/
theorem advance_onto (h : Within n k x y) {wanted : Kind} (hpeek : y.peek.kind = wanted)
    (hwanted : wanted ≠ .eof) : Within n k x y.advance :=
  h.advance (h.current_ne hpeek hwanted)

/-- A token that is skipped was there, so skipping it is free. -/
theorem skip (h : Within n k x y) {optional : Kind} (hoptional : optional ≠ .eof) :
    Within n k x (y.skip optional) := by
  unfold View.skip
  split
  · exact h.advance_onto ‹_› hoptional
  · exact h

/-- A block may spend what the move onto its brace gained. -/
theorem block (h : Within n k x y) (hbrace : y.peek.kind = .leftBrace)
    (hz : Within n 1 y.advance z) : Within n k x z :=
  ⟨hz.onTrack, by
    have hgain := h.onTrack.outlay_advance (h.current_ne hbrace (by decide))
    have := h.outlay
    have := hz.outlay
    rw [if_pos hbrace] at hgain
    rw [View.window_advance] at this
    omega⟩

end Within

namespace Goal

variable {σ : Type}

/-- The goal is pursued on a token of the list, if it begins by moving on from it. -/
def Inside (x : View σ) : Goal → Prop
  | .returnStatement | .blockStatement | .prefixExpression | .infixExpression _
  | .groupedExpression | .ifExpression | .callExpression _ => x.current.kind ≠ .eof
  | .expressionList closing => x.current.kind ≠ .eof ∧ closing ≠ .eof
  | _ => True

/-- What a goal may spend. -/
def allowance (x : View σ) : Goal → Nat
  | .program | .statements _ => if x.current.kind = .eof then 0 else 1
  | .blockStatement => 1
  | _ => 0

/-- A goal may spend one pull at most. -/
theorem allowance_le_one (g : Goal) (x : View σ) : g.allowance x ≤ 1 := by
  unfold allowance
  split
  · split <;> omega
  · split <;> omega
  · exact Nat.le_refl 1
  · exact Nat.zero_le 1

/-- Where a list of statements ends. -/
def Closed (y : View σ) : Goal → Prop
  | .program => y.current.kind = .eof
  | .statements closer => y.current.kind = closer ∨ y.current.kind = .eof
  | _ => True

end Goal

namespace Parse

variable {n fuel : Nat} {x y : View (Metered (List Token))}

/-- Runs with this much fuel spend no more than their goals may. -/
def Spends (n fuel : Nat) : Prop :=
  ∀ (g : Goal) {x : View (Metered (List Token))}, x.window.OnTrack n → g.Inside x →
    Ensures (run fuel g) x (fun _ y => Within n (g.allowance x) x y ∧ g.Closed y) fun _ _ => True

namespace Spends

variable (sub : Spends n fuel)
include sub

/-! ### Goals that a rule leads to -/

/-- A goal that may spend nothing leaves the account as it was. -/
theorem free {k : Nat} (g : Goal) (hy : Within n k x y) (hg : g.Inside y)
    (hfree : g.allowance y = 0) :
    Ensures (run fuel g) y (fun _ z => Within n k x z) fun _ _ => True := by
  refine (sub g hy.onTrack hg).imp_result fun _ z hz => ?_
  have whole := hy.trans hz.1
  rwa [hfree] at whole

/-- A block spends what the move onto its brace gained. -/
theorem block {k : Nat} (hy : Within n k x y) (hbrace : y.peek.kind = .leftBrace) :
    Ensures (run fuel .blockStatement) y.advance (fun _ z => Within n k x z) fun _ _ => True := by
  have hinside : Goal.blockStatement.Inside y.advance := by
    show y.peek.kind ≠ .eof
    rw [hbrace]
    decide
  exact (sub .blockStatement hy.onTrack.advance hinside).imp_result fun _ z hz =>
    hy.block hbrace hz.1

/-- An operand goes on, if there is one. -/
theorem goesOn (bound : Int) (v : Option Node) (hy : Within n 0 x y) :
    (v = none → Within n 0 x y) ∧ ∀ left, v = some left →
      Ensures (run fuel (.continuation bound left)) y (fun _ z => Within n 0 x z)
        fun _ _ => True :=
  ⟨fun _ => hy, fun left _ => sub.free (.continuation bound left) hy trivial rfl⟩

/-- The statements behind one that is done, or that is skipped. Behind the end of the input there is
nothing left to spend on. -/
theorem moreStatements (closer : Kind) (hy : Within n 0 x y) :
    Ensures (run fuel (.statements closer)) y.advance
      (fun _ z => Within n 1 x z ∧ (Goal.statements closer).Closed z) fun _ _ => True := by
  refine (sub (.statements closer) hy.onTrack.advance trivial).imp_result fun _ z hz =>
    ⟨?_, hz.2⟩
  -- a move from the end of the input is paid for here, and the list behind it is over
  by_cases heof : y.current.kind = .eof
  · have hfree : (Goal.statements closer).allowance y.advance = 0 :=
      if_pos (hy.onTrack.behind heof)
    rw [hfree] at hz
    have moved : Within n 1 y y.advance := ⟨hy.onTrack.advance, y.window.outlay_advance_le n⟩
    exact (hy.trans moved).trans hz.1
  · exact ((hy.advance heof).trans hz.1).mono (Nat.zero_add _ ▸ Goal.allowance_le_one _ _)

variable (hx : x.window.OnTrack n)
include hx

/-! ### Statements -/

/-- A statement spends nothing of its own, whichever it is. -/
theorem statement :
    Ensures (Parse.statement (run fuel)) x (fun _ y => Within n 0 x y) fun _ _ => True := by
  have start := Within.refl hx
  refine ensures_statement (fun _ => sub.free .letStatement start trivial rfl) (fun hk => ?_)
    fun _ _ => sub.free .expressionStatement start trivial rfl
  have hinside : x.current.kind ≠ .eof := by
    rw [hk]
    decide
  exact sub.free .returnStatement start hinside rfl

/-- Each token that is moved onto was seen to be there before. -/
theorem letStatement :
    Ensures (Parse.letStatement (run fuel)) x (fun _ y => Within n 0 x y) fun _ _ => True := by
  have start := Within.refl hx
  refine ensures_letStatement (fun _ => start.report _ _)
    (fun hname _ => (start.advance_onto hname (by decide)).report _ _) fun hname hsign => ?_
  have onSign := (start.advance_onto hname (by decide)).advance_onto hsign (by decide)
  have hcurrent : x.advance.peek.kind ≠ .eof := by
    rw [hsign]
    decide
  exact (sub.free (.expression 1) (onSign.advance hcurrent) trivial rfl).imp_result
    fun _ _ h => h.skip (by decide)

/-- The word is a token to move on from. -/
theorem returnStatement (hcurrent : x.current.kind ≠ .eof) :
    Ensures (Parse.returnStatement (run fuel)) x (fun _ y => Within n 0 x y) fun _ _ => True := by
  have behind := (Within.refl hx).advance hcurrent
  exact ensures_returnStatement ((sub.free (.expression 1) behind trivial rfl).imp_result
    fun _ _ h => h.skip (by decide))

/-- The expression starts at the current token, with no move. -/
theorem expressionStatement :
    Ensures (Parse.expressionStatement (run fuel)) x (fun _ y => Within n 0 x y)
      fun _ _ => True :=
  ensures_expressionStatement ((sub.free (.expression 1) (Within.refl hx) trivial rfl).imp_result
    fun _ _ h => h.skip (by decide))

/-- The one that a block may spend is what its statements spend. -/
theorem blockStatement (hcurrent : x.current.kind ≠ .eof) :
    Ensures (Parse.blockStatement (run fuel)) x (fun _ y => Within n 1 x y) fun _ _ => True := by
  have inside := (Within.refl hx).advance hcurrent
  refine ensures_blockStatement
    ((sub (.statements .rightBrace) inside.onTrack trivial).imp_result fun ns y h => ?_)
  have whole : Within n 1 x y :=
    (inside.trans h.1).mono (Nat.zero_add _ ▸ Goal.allowance_le_one _ _)
  exact ⟨fun _ => whole.report _ _, fun _ => whole⟩

/-- A list that is not over yet spends one at most, at its end. -/
theorem statements (closer : Kind) :
    Ensures (Parse.statements (run fuel) closer) x
      (fun _ y => Within n ((Goal.statements closer).allowance x) x y ∧
        (Goal.statements closer).Closed y) fun _ _ => True := by
  have start := Within.refl hx
  refine ensures_statements (fun hclosed => ⟨start.mono (Nat.zero_le _), hclosed⟩) fun hopen => ?_
  -- the list is not over, so it is not at the end of the input
  have hallowance : (Goal.statements closer).allowance x = 1 := if_neg fun heof => hopen (.inr heof)
  rw [hallowance]
  refine (sub.free .statement start trivial rfl).imp_result fun v y hy => ?_
  refine ⟨fun _ _ => sub.moreStatements closer hy, fun _ => ?_⟩
  exact (sub.free (.recovery 0) hy trivial rfl).imp_result fun _ z hz =>
    sub.moreStatements closer hz

/-- A skip does not move on from the end of the input. -/
theorem recovery (depth : Nat) :
    Ensures (Parse.recovery (run fuel) depth) x (fun _ y => Within n 0 x y) fun _ _ => True := by
  have start := Within.refl hx
  exact ensures_recovery (fun _ => start) fun hcurrent _ _ =>
    sub.free (.recovery _) (start.advance hcurrent) trivial rfl

/-! ### Expressions -/

/-- What an expression starts with is no end of the input. -/
theorem operand :
    Ensures (Parse.operand (run fuel)) x (fun _ y => Within n 0 x y) fun _ _ => True := by
  have start := Within.refl hx
  have onKind : ∀ k, x.current.kind = k → k ≠ .eof → x.current.kind ≠ .eof :=
    fun k hk hne => hk ▸ hne
  have onOperator : x.current.kind ∈ Kind.prefixOperators → x.current.kind ≠ .eof := by
    intro hk heof
    rw [heof] at hk
    exact absurd hk (by decide)
  exact ensures_operand (fun _ => start.report _ _) (fun _ => sub.free .identifier start trivial rfl)
    (fun _ => sub.free .integerLiteral start trivial rfl)
    (fun _ => sub.free .boolean start trivial rfl)
    (fun hk => sub.free .prefixExpression start (onOperator hk) rfl)
    (fun hk => sub.free .groupedExpression start (onKind _ hk (by decide)) rfl)
    (fun hk => sub.free .ifExpression start (onKind _ hk (by decide)) rfl)
    fun _ => sub.free .functionLiteral start trivial rfl

/-- Neither the operand nor what it goes on with spends anything. -/
theorem expression (bound : Int) :
    Ensures (Parse.expression (run fuel) bound) x (fun _ y => Within n 0 x y) fun _ _ => True :=
  ensures_expression ((sub.operand hx).imp_result fun v _ hy => sub.goesOn bound v hy)

/-- What an expression goes on with is no end of the input. -/
theorem continuation (bound : Int) (left : Node) :
    Ensures (Parse.continuation (run fuel) bound left) x (fun _ y => Within n 0 x y)
      fun _ _ => True := by
  have start := Within.refl hx
  refine ensures_continuation (fun _ => start) (fun hk _ => ?_) fun hk _ => ?_
  · have hpeek : x.peek.kind ≠ .eof := by
      intro heof
      rw [heof] at hk
      exact absurd hk (by decide)
    exact (sub.free (.infixExpression left) (start.advance_onto rfl hpeek) hpeek rfl).imp_result
      fun v _ hy => sub.goesOn bound v hy
  · have hpeek : x.peek.kind ≠ .eof := by
      rw [hk]
      decide
    exact (sub.free (.callExpression left) (start.advance_onto rfl hpeek) hpeek rfl).imp_result
      fun v _ hy => sub.goesOn bound v hy

omit sub in
theorem identifier :
    Ensures Parse.identifier x (fun _ y => Within n 0 x y) fun _ _ => True :=
  ensures_identifier (.refl hx)

omit sub in
theorem integerLiteral :
    Ensures Parse.integerLiteral x (fun _ y => Within n 0 x y) fun _ _ => True :=
  ensures_integerLiteral (fun _ _ => .refl hx) (fun _ _ => trivial) fun _ =>
    (Within.refl hx).report _ _

omit sub in
theorem boolean : Ensures Parse.boolean x (fun _ y => Within n 0 x y) fun _ _ => True :=
  ensures_boolean (.refl hx)

/-- The operator is a token to move on from. -/
theorem prefixExpression (hcurrent : x.current.kind ≠ .eof) :
    Ensures (Parse.prefixExpression (run fuel)) x (fun _ y => Within n 0 x y) fun _ _ => True :=
  ensures_prefixExpression
    (sub.free (.expression 6) ((Within.refl hx).advance hcurrent) trivial rfl)

/-- An operator between two operands is a token to move on from. -/
theorem infixExpression (left : Option Node) (hcurrent : x.current.kind ≠ .eof) :
    Ensures (Parse.infixExpression (run fuel) left) x (fun _ y => Within n 0 x y)
      fun _ _ => True :=
  ensures_infixExpression
    (sub.free (.expression _) ((Within.refl hx).advance hcurrent) trivial rfl)

/-- The parenthesis of a group is a token to move on from, and the closing one is seen before it is
moved onto. -/
theorem groupedExpression (hcurrent : x.current.kind ≠ .eof) :
    Ensures (Parse.groupedExpression (run fuel)) x (fun _ y => Within n 0 x y)
      fun _ _ => True := by
  have inside := (Within.refl hx).advance hcurrent
  refine ensures_groupedExpression
    ((sub.free (.expression 1) inside trivial rfl).imp_result fun _ _ h => ?_)
  exact ⟨fun hclose => h.advance_onto hclose (by decide), fun _ => h.report _ _⟩

/-- The one pull that the block may spend is paid for by its brace. -/
theorem alternative :
    Ensures (Parse.alternative (run fuel)) x (fun _ y => Within n 0 x y) fun _ _ => True := by
  have start := Within.refl hx
  exact ensures_alternative (fun _ => start)
    (fun helse _ => (start.advance_onto helse (by decide)).report _ _)
    fun helse hbrace => sub.block (start.advance_onto helse (by decide)) hbrace

/-- The pulls that the blocks of a conditional may spend are paid for by their braces. -/
theorem ifExpression :
    Ensures (Parse.ifExpression (run fuel)) x (fun _ y => Within n 0 x y) fun _ _ => True := by
  have start := Within.refl hx
  refine ensures_ifExpression (fun _ => start.report _ _) fun hopen => ?_
  have onOpening := start.advance_onto hopen (by decide)
  have hopening : x.advance.current.kind ≠ .eof := fun heof =>
    absurd (hopen.symm.trans heof) (by decide)
  refine (sub.free (.expression 1) (onOpening.advance hopening) trivial rfl).imp_result
    fun c y hy => ?_
  refine ⟨fun _ => hy.report _ _,
    fun hclose _ => (hy.advance_onto hclose (by decide)).report _ _, fun hclose hbrace => ?_⟩
  refine (sub.block (hy.advance_onto hclose (by decide)) hbrace).imp_result fun b z hz => ?_
  exact ⟨fun _ => hz, fun _ _ => (sub.alternative hz.onTrack).imp_result fun _ _ h => hz.trans h⟩

/-- The pull that the body of a function may spend is paid for by its brace. -/
theorem functionLiteral :
    Ensures (Parse.functionLiteral (run fuel)) x (fun _ y => Within n 0 x y) fun _ _ => True := by
  have start := Within.refl hx
  refine ensures_functionLiteral (fun _ => start.report _ _) fun hopen => ?_
  have onOpening := start.advance_onto hopen (by decide)
  refine (sub.free .functionParameters onOpening trivial rfl).imp_result fun ps y hy => ?_
  exact ⟨fun _ => hy, fun _ _ _ => hy.report _ _, fun _ _ hbrace => sub.block hy hbrace⟩

/-- The parenthesis that closes an empty list is seen before it is moved onto. -/
theorem functionParameters :
    Ensures (Parse.functionParameters (run fuel)) x (fun _ y => Within n 0 x y)
      fun _ _ => True := by
  have start := Within.refl hx
  exact ensures_functionParameters (fun hclose => start.advance_onto hclose (by decide))
    fun _ => sub.free .parameters start trivial rfl

/-- The names and the commas, and what closes the list, are seen before they are moved onto. -/
theorem parameters :
    Ensures (Parse.parameters (run fuel)) x (fun _ y => Within n 0 x y) fun _ _ => True := by
  have start := Within.refl hx
  have onName := fun hname : x.peek.kind = .ident => start.advance_onto hname (by decide)
  refine ensures_parameters (fun _ => start.report _ _) (fun hname hcomma => ?_)
    (fun hname hclose => (onName hname).advance_onto hclose (by decide))
    fun hname _ _ => (onName hname).report _ _
  exact sub.free .parameters ((onName hname).advance_onto hcomma (by decide)) trivial rfl

/-- The arguments start at a parenthesis, which is a token to move on from. -/
theorem callExpression (function : Option Node) (hcurrent : x.current.kind ≠ .eof) :
    Ensures (Parse.callExpression (run fuel) function) x (fun _ y => Within n 0 x y)
      fun _ _ => True :=
  ensures_callExpression
    (sub.free (.expressionList .rightParen) (.refl hx) ⟨hcurrent, by decide⟩ rfl)

/-- What closes a list is seen before it is moved onto. -/
theorem expressionList {closing : Kind} (hcurrent : x.current.kind ≠ .eof)
    (hclosing : closing ≠ .eof) :
    Ensures (Parse.expressionList (run fuel) closing) x (fun _ y => Within n 0 x y)
      fun _ _ => True := by
  have inside := (Within.refl hx).advance hcurrent
  refine ensures_expressionList (fun _ => inside) fun _ => ?_
  refine (sub.free .expressions inside trivial rfl).imp_result fun vs y hy => ?_
  exact ⟨fun hclose => hy.advance_onto hclose hclosing, fun _ => hy.report _ _⟩

/-- Each comma is seen before it is moved onto. The item behind it may be missing, but the comma is
no end of the input. -/
theorem expressions :
    Ensures (Parse.expressions (run fuel)) x (fun _ y => Within n 0 x y) fun _ _ => True := by
  refine ensures_expressions
    ((sub.free (.expression 1) (.refl hx) trivial rfl).imp_result fun v y hy => ?_)
  -- the two moves behind an item are onto the comma and from it
  refine ⟨fun hcomma => ?_, fun _ => hy⟩
  have onComma := hy.advance_onto hcomma (by decide)
  refine sub.free .expressions (onComma.advance fun heof => ?_) trivial rfl
  exact absurd (hcomma.symm.trans heof) (by decide)

/-- Every rule spends no more than it may, if the goals that it leads to do not. Only a list of
statements ends where something has to be known of the end. -/
theorem step (g : Goal) (hg : g.Inside x) :
    Ensures (Parse.step (run fuel) g) x (fun _ y => Within n (g.allowance x) x y ∧ g.Closed y)
      fun _ _ => True := by
  cases g with
  | program =>
    refine ensures_program ((sub (.statements .eof) hx trivial).imp_result fun ns y h => ?_)
    exact ⟨h.1, or_self_iff.1 h.2⟩
  | statements closer => exact sub.statements hx closer
  | statement => exact (sub.statement hx).imp_result fun _ _ h => ⟨h, trivial⟩
  | letStatement => exact (sub.letStatement hx).imp_result fun _ _ h => ⟨h, trivial⟩
  | returnStatement => exact (sub.returnStatement hx hg).imp_result fun _ _ h => ⟨h, trivial⟩
  | expressionStatement => exact (sub.expressionStatement hx).imp_result fun _ _ h => ⟨h, trivial⟩
  | blockStatement => exact (sub.blockStatement hx hg).imp_result fun _ _ h => ⟨h, trivial⟩
  | recovery depth => exact (sub.recovery hx depth).imp_result fun _ _ h => ⟨h, trivial⟩
  | expression bound => exact (sub.expression hx bound).imp_result fun _ _ h => ⟨h, trivial⟩
  | continuation bound left =>
    exact (sub.continuation hx bound left).imp_result fun _ _ h => ⟨h, trivial⟩
  | identifier => exact (identifier hx).imp_result fun _ _ h => ⟨h, trivial⟩
  | integerLiteral => exact (integerLiteral hx).imp_result fun _ _ h => ⟨h, trivial⟩
  | boolean => exact (boolean hx).imp_result fun _ _ h => ⟨h, trivial⟩
  | prefixExpression => exact (sub.prefixExpression hx hg).imp_result fun _ _ h => ⟨h, trivial⟩
  | infixExpression left =>
    exact (sub.infixExpression hx left hg).imp_result fun _ _ h => ⟨h, trivial⟩
  | groupedExpression => exact (sub.groupedExpression hx hg).imp_result fun _ _ h => ⟨h, trivial⟩
  | ifExpression => exact (sub.ifExpression hx).imp_result fun _ _ h => ⟨h, trivial⟩
  | functionLiteral => exact (sub.functionLiteral hx).imp_result fun _ _ h => ⟨h, trivial⟩
  | functionParameters => exact (sub.functionParameters hx).imp_result fun _ _ h => ⟨h, trivial⟩
  | parameters => exact (sub.parameters hx).imp_result fun _ _ h => ⟨h, trivial⟩
  | callExpression function =>
    exact (sub.callExpression hx function hg).imp_result fun _ _ h => ⟨h, trivial⟩
  | expressionList closing =>
    exact (sub.expressionList hx hg.1 hg.2).imp_result fun _ _ h => ⟨h, trivial⟩
  | expressions => exact (sub.expressions hx).imp_result fun _ _ h => ⟨h, trivial⟩

end Spends

/-- No run spends more than its goal may. -/
theorem spends (n fuel : Nat) : Spends n fuel := by
  induction fuel with
  | zero => exact fun _ _ _ _ => Ensures.throw trivial
  | succ fuel sub => exact fun g _ hx hg => ensures_run_succ (sub.step hx g hg)

end Parse

/-! ## Whole programs -/

/-- A new parser has pulled two tokens, and may have passed the end of the list with them. -/
theorem View.onTrack_start {ts : List Token} (hts : ∀ t ∈ ts, t.kind ≠ .eof) :
    (View.start (⟨ts, 0⟩ : Metered (List Token))).window.OnTrack ts.length := by
  -- the window takes two tokens, as far as there are so many
  match ts with
  | [] => exact ⟨nofun, fun _ => rfl, fun _ => rfl, fun h => absurd rfl h, fun h => absurd rfl h⟩
  | [t] =>
    exact ⟨nofun, fun _ => rfl, fun _ => rfl, fun h => absurd rfl h, fun _ => Nat.le_refl 2⟩
  | t :: u :: ts =>
    simp only [List.forall_mem_cons] at hts
    obtain ⟨ht, hu, hlater⟩ := hts
    have hpulled : 2 + ts.length = (t :: u :: ts).length := Nat.add_comm ..
    exact ⟨hlater, fun h => absurd h hu, fun h => absurd h ht, fun _ => Nat.le_of_eq hpulled,
      fun _ => Nat.le_succ_of_le (Nat.le_of_eq hpulled)⟩

/-- What is set aside for a list at its start: its tokens, the two tokens in the window, and one
pull for each brace. -/
theorem View.outlay_start (ts : List Token) :
    (View.start (⟨ts, 0⟩ : Metered (List Token))).window.outlay ts.length ≤
      ts.length + 2 + ts.countP (·.kind = .leftBrace) := by
  match ts with
  | [] => exact Nat.le_refl 2
  | [t] => exact Nat.le_add_right 3 _
  | t :: u :: ts =>
    show max (2 + ts.length) (ts.length + 2 + 2) + List.countP _ (u :: ts) ≤
      ts.length + 2 + 2 + List.countP _ (t :: u :: ts)
    rw [List.countP_cons (a := t)]
    omega

/-- A list of tokens without an integer of too many digits is parsed to an end, at which the window
is behind the list. It takes at most as many pulls as there are tokens and braces in it, and three
more. -/
theorem pulls_of_parseProgram {ts : List Token} (hts : ∀ t ∈ ts, t.kind ≠ .eof)
    (hshort : ∀ t ∈ ts, t.kind = .int → Numeral.isNumeral t.literal.toList = true →
      t.literal.toList.length ≤ Numeral.mostDigits) (tracing : Bool) :
    ∃ tree s, parseProgram (⟨ts, 0⟩ : Metered (List Token)) tracing = (.ok tree, s) ∧
      parseProgram ts tracing = (.ok tree, s.mapSource Metered.source) ∧
      s.current.kind = .eof ∧ s.peek.kind = .eof ∧
      s.source.pulls ≤ ts.length + 3 + ts.countP (·.kind = .leftBrace) := by
  let source : Metered (List Token) := ⟨ts, 0⟩
  -- the parse of the list itself ends, and the metered one is the same
  obtain ⟨tree, t, hrun⟩ := exists_tree_of_parseProgram
    (fun t ht hk => Numeral.read_ne_oversized (hshort t ht hk)) tracing
  have hsame := parseProgram_mapSource Metered.sourceMap source tracing
  cases hmetered : parseProgram source tracing with
  | mk result s =>
    rw [hmetered, hrun] at hsame
    cases hsame
    obtain ⟨within, hcurrent⟩ := Parse.of_parseProgram
      (fun fuel => Parse.spends _ fuel .program (View.onTrack_start hts) trivial) hmetered
    refine ⟨tree, s, rfl, hrun, hcurrent, within.onTrack.behind hcurrent, ?_⟩
    -- the program may spend one more than there was at the start
    have hallowance := Goal.program.allowance_le_one (View.start (⟨ts, 0⟩ : Metered (List Token)))
    have hspent := within.outlay
    have hpulls := Window.pulls_le_outlay ts.length s.view.window
    have hstart := View.outlay_start ts
    show s.view.window.source.pulls ≤ _
    omega

/-- A `return` without a value in two blocks that are not closed: one pull for each brace and three
more are needed. -/
theorem pulls_of_openBlocks :
    let word := Token.unplaced .functionWord "fn"
    let opening := Token.unplaced .leftParen "("
    let closing := Token.unplaced .rightParen ")"
    let brace := Token.unplaced .leftBrace "\x7b"
    let tokens := [word, opening, closing, brace, word, opening, closing, brace,
      .unplaced .returnWord "return"]
    ∃ tree s, parseProgram (⟨tokens, 0⟩ : Metered (List Token)) false = (.ok tree, s) ∧
      s.source.pulls = tokens.length + 3 + 2 ∧
      s.source.pulls ≤ tokens.length + 3 + tokens.countP (·.kind = .leftBrace) := by
  intro word opening closing brace tokens
  have hts : ∀ t ∈ tokens, t.kind ≠ .eof := by decide
  obtain ⟨tree, s, hrun, -, -, -, hle⟩ := pulls_of_parseProgram hts (by decide) false
  have hpulls : (parseProgram (⟨tokens, 0⟩ : Metered (List Token)) false).2.source.pulls = 14 := rfl
  rw [hrun] at hpulls
  exact ⟨tree, s, hrun, hpulls, hle⟩

end Pratt
