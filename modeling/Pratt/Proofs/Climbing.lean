import Pratt.Proofs.Levels
import Pratt.Proofs.Lockstep
import Pratt.Proofs.Progress

/-!
# Pratt — expressions under a lower bound

What is read with a bound is the beginning of what is read with a lower one: the parser may stop
where the higher bound stops it and go on from the tree that it has by then
(`expression_in_stages`). This is what precedence and associativity rest on, and it holds of any
input, at any bounds, and also where an operand fails or a run ends in a fault.

The loop that goes on with an expression looks at the token ahead and at nothing else, and its tree
only grows. So it is enough to compare what two ways of going on do with one token: if the second
way either does what the first one does, or does the first step of that and is itself again, then
both come to the same (`Unrolls.alongside`). The induction is on the fuel, as the loop has no
other measure that is common to both ways.

The stages are traced as two expressions. The states that they end in are therefore compared
without the trace, unless there is none.
-/

namespace Pratt

variable {σ : Type} [TokenSource σ]

namespace Parse

/-- Reads an expression with the bound `q` and then goes on with it as the bound `p` allows. -/
def inStages (p q : Int) : Parse σ (Option Node) := do
  let some left ← perform (.expression q) | return none
  perform (.continuation p left)

/-! ## One turn of the loop -/

/-- What comes of a tree by `later`; from nothing comes nothing. -/
def onward (later : Node → Parse σ (Option Node)) : Option Node → Parse σ (Option Node)
  | none => return none
  | some left => later left

/-- Goes on with what was read so far as the bound allows. -/
def goOn (bound : Int) : Option Node → Parse σ (Option Node) :=
  onward fun left => perform (.continuation bound left)

/-- Moves onto the token ahead and uses the rule, with what was read so far. -/
def extend (left : Node) (r : Rule) : Parse σ (Option Node) := do
  advance
  applyContinuing perform left r

/-- The token ahead goes on with an expression under the bound, by the rule. -/
def GoesOn (bound : Int) (s : State σ) (r : Rule) : Prop :=
  (s.peek.kind ≠ .semicolon ∧ bound < s.peek.kind.level) ∧
    s.continuing.find? s.peek.kind = some r

/-- An expression in stages is one with the tighter bound, and then what that goes on with under the
looser one. -/
theorem inStages_eq (p q : Int) :
    (inStages p q : Parse σ (Option Node)) = perform (.expression q) >>= goOn p := by
  refine congrArg (perform (.expression q) >>= ·) (funext fun v => ?_)
  cases v <;> rfl

/-- An expression is its operand and what that goes on with. -/
theorem expression_eq (bound : Int) :
    (expression perform bound : Parse σ (Option Node)) = operand perform >>= goOn bound := by
  refine congrArg (operand perform >>= ·) (funext fun v => ?_)
  cases v <;> rfl

/-- To go on, and then to go on from the result. -/
theorem onward_bind_goOn (first : Node → Parse σ (Option Node)) (p : Int) (v : Option Node) :
    onward (fun left => first left >>= goOn p) v = onward first v >>= goOn p := by
  cases v <;> rfl

section Turn

variable {bound : Int} {r : Rule} {s : State σ}

omit [TokenSource σ] in
/-- What goes on under a bound goes on under every looser one. -/
theorem GoesOn.mono {p q : Int} (hpq : p ≤ q) (h : GoesOn q s r) : GoesOn p s r :=
  ⟨⟨h.1.1, Int.lt_of_le_of_lt hpq h.1.2⟩, h.2⟩

omit [TokenSource σ] in
/-- What goes on with an expression at all has a level above the lowest. -/
theorem GoesOn.one_lt_level (h : GoesOn bound s r) (hs : s.Standard) :
    1 < s.peek.kind.level := by
  have hfind := h.2
  rw [hs.2] at hfind
  -- the table has rules for the infix operators and for calls, and for nothing else
  rcases RuleTable.find?_continuing_eq_some hfind with ⟨hkind, -⟩ | ⟨hkind, -⟩
  · exact (by decide : ∀ k ∈ Kind.infixOperators, 1 < k.level) _ hkind
  · rw [hkind]
    decide

/-- What the loop does when the token ahead goes on, whatever pursues the goals. -/
theorem continuation_of_goesOn (h : GoesOn bound s r) (parse : Recur σ) (left : Node) :
    continuation parse bound left s = (advance >>= fun _ => applyContinuing parse left r >>=
      onward fun longer => parse (.continuation bound longer)) s := by
  show (if s.peek.kind ≠ .semicolon ∧ bound < s.peek.kind.level then _ else _ :
    Parse σ (Option Node)) s = _
  rw [if_pos h.1, h.2]
  refine congrFun (congrArg (advance >>= ·) (funext fun _ => ?_)) s
  refine congrArg (applyContinuing parse left r >>= ·) (funext fun v => ?_)
  cases v <;> rfl

/-- Where nothing goes on, the left part is the expression and nothing is read. -/
theorem continuation_of_not_goesOn (h : ∀ r, ¬GoesOn bound s r) (parse : Recur σ) (left : Node) :
    continuation parse bound left s = .ok (some left) s := by
  show (if s.peek.kind ≠ .semicolon ∧ bound < s.peek.kind.level then _ else _ :
    Parse σ (Option Node)) s = _
  by_cases hahead : s.peek.kind ≠ .semicolon ∧ bound < s.peek.kind.level
  · -- The token may go on as to its level, so it is a rule that is missing.
    have hnone : s.continuing.find? s.peek.kind = none :=
      Option.eq_none_iff_forall_ne_some.2 fun r hr => h r ⟨hahead, hr⟩
    rw [if_pos hahead, hnone]
    rfl
  · rw [if_neg hahead]
    rfl

end Turn

variable [LawfulTokenSource σ] {s : State σ}

/-- Where a rule goes on, the loop takes a turn with it and starts again. -/
theorem perform_continuation_of_goesOn {bound : Int} {r : Rule} (hs : s.Standard)
    (h : GoesOn bound s r) (left : Node) :
    perform (.continuation bound left) s = (extend left r >>= goOn bound) s := by
  rw [perform_eq_step hs, extend, bind_assoc]
  exact continuation_of_goesOn h perform left

/-- Where none does, the loop is over. -/
theorem perform_continuation_of_not_goesOn {bound : Int} (hs : s.Standard)
    (h : ∀ r, ¬GoesOn bound s r) (left : Node) :
    perform (.continuation bound left) s = .ok (some left) s := by
  rw [perform_eq_step hs]
  exact continuation_of_not_goesOn h perform left

/-- A call of the rule for expressions is the operand and the loop behind it, in one trace. -/
theorem perform_expression (hs : s.Standard) (bound : Int) :
    perform (.expression bound) s = traced .expression (operand perform >>= goOn bound) s := by
  rw [perform_eq_step hs, ← expression_eq]
  rfl

/-! ## What goes on alike -/

/-- A call in the same state is the same. -/
theorem alongside_self (g : Goal) :
    Alongside Together (perform g : Parse σ g.Result) (perform g) := by
  intro s t hst
  obtain ⟨rfl, ht⟩ := hst
  exact alongside_perform (enough t) g t t ⟨rfl, ht⟩

/-- An operand is put together from calls, so in the same state it is the same. -/
theorem alongside_operand : Alongside Together (operand perform : Parse σ (Option Node))
    (operand perform) :=
  lockstep_together.parallel_same (fun _ => alongside_self) Parallel.operand ()

/-- With more fuel a rule that goes on does the same. -/
theorem alongside_applyContinuing (fuel : Nat) (left : Node) (r : Rule) :
    Alongside Together (applyContinuing (run fuel) left r : Parse σ (Option Node))
      (applyContinuing perform left r) := by
  have h : Parallel .identity (run fuel) perform Respelling.identity.child
      (applyContinuing (run fuel : Recur σ) left r)
      (applyContinuing (perform : Recur σ) (Respelling.identity.node left) r) :=
    .applyContinuing left r fun _ n => congrArg Node.render (Respelling.node_identity n)
  rw [Respelling.node_identity] at h
  exact lockstep_together.parallel_same (fun _ => alongside_perform fuel) h ()

/-- In any state `later` does what going on under the bound does, or it does the first turn of that
and then itself again. -/
def Unrolls (bound : Int) (later : Node → Parse σ (Option Node)) : Prop :=
  ∀ (s : State σ) (left : Node), s.Standard →
    later left s = perform (.continuation bound left) s ∨
      ∃ r, GoesOn bound s r ∧ later left s = (extend left r >>= onward later) s

namespace Unrolls

variable {bound : Int} {later : Node → Parse σ (Option Node)}

/-- What unrolls to going on is alongside it, with any fuel for that. -/
theorem alongside (h : Unrolls bound later) (fuel : Nat) (left : Node) :
    Alongside Together (run fuel (.continuation bound left)) (later left) := by
  induction fuel generalizing left with
  | zero => exact fun _ _ _ => .exhausted
  | succ fuel ih =>
    intro s t hst
    obtain ⟨rfl, hs⟩ := hst
    rcases h t left hs with hsame | ⟨r, hr, hagain⟩
    · rw [hsame]
      exact alongside_perform (fuel + 1) _ t t ⟨rfl, hs⟩
    · -- the run has turned once, with less fuel for what is left to do
      have hrun : run (fuel + 1) (.continuation bound left) t = _ :=
        continuation_of_goesOn hr (run fuel) left
      have hmove : Alongside Together (advance : Parse σ Unit) advance :=
        fun _ _ h => .ok (lockstep_together.advance (i := ()) h)
      rw [hrun, hagain, extend, bind_assoc]
      -- one turn on each side, and the rest by the induction
      refine hmove.bind (fun _ => (alongside_applyContinuing fuel left r).bind fun v => ?_) t t
        ⟨rfl, hs⟩
      cases v with
      | none => exact .pure none
      | some longer => exact ih longer

/-- An expression with what comes of its operand by another way of going on. -/
theorem perform_expression (h : Unrolls bound later) (hs : s.Standard) :
    perform (.expression bound) s = traced .expression (operand perform >>= onward later) s := by
  -- both read the same operand and part ways behind it
  have hlater : ∀ v, Alongside Together (goOn bound v) (onward later v) := by
    intro v
    cases v with
    | none => exact .pure none
    | some left =>
      intro s t hst
      obtain ⟨rfl, ht⟩ := hst
      exact h.alongside (enough t) left t t ⟨rfl, ht⟩
  have fueled := perform_ne_exhausted hs (.expression bound)
  rw [Parse.perform_expression hs] at fueled ⊢
  have ends := lockstep_together.traced .expression
    (fun _ => (alongside_operand (σ := σ)).bind hlater) () s s ⟨rfl, hs⟩
  exact ends.eq fueled

/-- Under bounds that stop the loop at the same tokens it does the same. -/
theorem of_goesOn_iff {p q : Int}
    (h : ∀ (s : State σ) r, s.Standard → (GoesOn p s r ↔ GoesOn q s r)) :
    Unrolls (σ := σ) p fun left => perform (.continuation q left) := by
  intro s left hs
  by_cases hgoes : ∃ r, GoesOn p s r
  · obtain ⟨r, hr⟩ := hgoes
    exact .inr ⟨r, hr, perform_continuation_of_goesOn hs ((h s r hs).1 hr) left⟩
  · have hp : ∀ r, ¬GoesOn p s r := fun r hr => hgoes ⟨r, hr⟩
    have hq : ∀ r, ¬GoesOn q s r := fun r hr => hp r ((h s r hs).2 hr)
    exact .inl ((perform_continuation_of_not_goesOn hs hq left).trans
      (perform_continuation_of_not_goesOn hs hp left).symm)

/-- Where a bound stops the loop, it goes on under a lower one. -/
theorem of_le {p q : Int} (hpq : p ≤ q) :
    Unrolls (σ := σ) p fun left => perform (.continuation q left) >>= goOn p := by
  intro s left hs
  -- what goes on under the higher bound goes on under the lower one, but not the other way round
  by_cases hgoes : ∃ r, GoesOn q s r
  · obtain ⟨r, hr⟩ := hgoes
    have hturn := bind_eq_bind (f := goOn p) (perform_continuation_of_goesOn hs hr left)
    rw [bind_assoc] at hturn
    refine .inr ⟨r, hr.mono hpq, hturn.trans ?_⟩
    exact congrFun (congrArg (extend left r >>= ·)
      (funext fun v => (onward_bind_goOn _ p v).symm)) s
  · have hstops : ∀ r, ¬GoesOn q s r := fun r hr => hgoes ⟨r, hr⟩
    exact .inl (bind_eq_of_ok (perform_continuation_of_not_goesOn hs hstops left))

end Unrolls

/-! ## Bounds that stop at the same tokens -/

/-- Bounds under which the same rules go on read the same expressions. -/
theorem perform_expression_eq {p q : Int}
    (h : ∀ (s : State σ) r, s.Standard → (GoesOn p s r ↔ GoesOn q s r)) (hs : s.Standard) :
    perform (.expression p) s = perform (.expression q) s := by
  rw [(Unrolls.of_goesOn_iff h).perform_expression hs, perform_expression hs]
  rfl

/-- Nothing goes on with an expression at the lowest level. -/
theorem perform_expression_of_le_one {p : Int} (hp : p ≤ 1) (hs : s.Standard) :
    perform (.expression p) s = perform (.expression Precedence.lowest.level) s := by
  refine perform_expression_eq (fun s r hs => ⟨fun h => ?_, fun h => h.mono hp⟩) hs
  exact ⟨⟨h.1.1, h.one_lt_level hs⟩, h.2⟩

/-- Nothing binds tighter than a call. -/
theorem perform_expression_of_seven_le {p : Int} (hp : 7 ≤ p) (hs : s.Standard) :
    perform (.expression p) s = perform (.expression Precedence.call.level) s := by
  refine perform_expression_eq (fun s r hs => ⟨fun h => h.mono hp, fun h => ?_⟩) hs
  -- nothing goes on under the level of a call, as no level is above it
  have hlevel : s.peek.kind.level ≤ 7 := s.peek.kind.precedence.level_le_seven
  exact absurd (Int.lt_of_lt_of_le h.1.2 hlevel) (Int.lt_irrefl 7)

/-! ## Stages -/

/-- Without a trace, the stages are all there is to it. -/
theorem perform_expression_eq_inStages {p q : Int} (hpq : p ≤ q) (hs : s.Standard)
    (htracing : s.tracing = false) : perform (.expression p) s = inStages p q s := by
  rw [(Unrolls.of_le hpq).perform_expression hs, traced_of_not_tracing htracing, inStages_eq,
    bind_eq_bind ((perform_expression hs q).trans (traced_of_not_tracing htracing)), bind_assoc]
  exact congrFun (congrArg (operand perform >>= ·) (funext fun v => onward_bind_goOn _ p v)) s

/-- So the outcome is the same, be it a fault. -/
theorem outcome_expression_eq_inStages {p q : Int} (hpq : p ≤ q) (hs : s.Standard)
    (htracing : s.tracing = false) :
    (perform (.expression p)).outcome s = (inStages p q).outcome s := by
  unfold outcome
  rw [perform_expression_eq_inStages hpq hs htracing]

omit [LawfulTokenSource σ] in
/-- What is traced of a goal makes no difference to what else comes of it. -/
theorem alongside_later (g : Goal) :
    Alongside (State.Later []) (perform g : Parse σ g.Result) (perform g) := by
  intro s t hst
  -- the fuel is reckoned from what the source still has, which is seen in the view
  have henough : enough s = enough t :=
    congrArg (fun x => 16 * (TokenSource.remaining x.window.source + 4)) hst.2.2
  exact (lockstep_later []).run_same (Nat.le_of_eq henough) () g s t hst

omit [LawfulTokenSource σ] in
/-- What was reported before makes no difference to an expression in stages. -/
theorem alongside_inStages (p q : Int) :
    Alongside (State.Later []) (inStages p q : Parse σ (Option Node)) (inStages p q) := by
  rw [inStages_eq]
  refine (alongside_later (.expression q)).bind fun v => ?_
  cases v with
  | none => exact .pure none
  | some left => exact alongside_later (.continuation p left)

/-- In any state the stages end as the expression does, and in the same state but for the trace. -/
theorem exists_outcome_inStages {p q : Int} (hpq : p ≤ q) (hs : s.Standard) :
    ∃ r t u, (perform (.expression p)).outcome s = (r, t) ∧ (inStages p q).outcome s = (r, u) ∧
      u.view = t.view := by
  -- both are compared with what they come to where nothing is traced
  let s₀ : State σ := { s with tracing := false }
  have hsame : State.Later [] s₀ s := ⟨hs, hs, rfl⟩
  have fueled := perform_ne_exhausted (s := s₀) hs (.expression p)
  obtain ⟨r, t₀, t, ht₀, ht, -, -, hviewt⟩ :=
    (alongside_later _ s₀ s hsame).exists_outcome fueled
  rw [perform_expression_eq_inStages hpq (s := s₀) hs rfl] at fueled
  obtain ⟨r', u₀, u, hu₀, hu, -, -, hviewu⟩ :=
    (alongside_inStages p q s₀ s hsame).exists_outcome fueled
  -- and there they come to the same
  rw [outcome_expression_eq_inStages hpq (s := s₀) hs rfl] at ht₀
  obtain ⟨rfl, rfl⟩ := Prod.mk.inj (ht₀.symm.trans hu₀)
  exact ⟨r, t, u, ht, hu, hviewu.symm.trans hviewt⟩

omit [LawfulTokenSource σ] in
/-- The second stage goes on from where the first one ends. -/
theorem follows_inStages (hs : s.Standard) (p q : Int) :
    ((perform (.expression q)).outcome s).2.view.Follows ((inStages p q).outcome s).2.view := by
  have first := follows_outcome hs (.expression q)
  rw [inStages_eq]
  unfold outcome at first ⊢
  cases hrun : perform (.expression q) s with
  | error e u =>
    rw [bind_eq_of_error hrun]
    exact .refl u.view
  | ok v u =>
    rw [bind_eq_of_ok hrun]
    rw [hrun] at first
    -- without a tree there is no second stage
    cases v with
    | none => exact .refl u.view
    | some left => exact (follows_outcome first.1 (.continuation p left)).2

end Parse

open Parse

variable [LawfulTokenSource σ]

/-- Reading an expression with a bound `p` comes to the same as reading one with any higher bound
`q` and going on with it under `p`: the result or the fault, the window and the diagnostics are the
same, and so is the whole state where nothing is traced. What the first stage reads is thus the
beginning of what is read with `p`. All bounds up to the lowest level come to the same, and so do
all bounds from the highest level on. -/
theorem expression_in_stages (s : State σ) (hs : s.Standard) :
    (∀ p q : Int, p ≤ q → ∃ r t u, (perform (.expression p)).outcome s = (r, t) ∧
      (inStages p q).outcome s = (r, u) ∧ u.view = t.view ∧ (s.tracing = false → u = t) ∧
      r ≠ .error .endlessRules ∧
      ∃ ts us, s.view.window.Reads ts ((perform (.expression q)).outcome s).2.view.window ∧
        s.view.window.Reads (ts ++ us) t.view.window) ∧
    (∀ p ≤ 1, perform (.expression p) s = perform (.expression Precedence.lowest.level) s) ∧
    ∀ p ≥ 7, perform (.expression p) s = perform (.expression Precedence.call.level) s := by
  refine ⟨fun p q hpq => ?_, fun p hp => perform_expression_of_le_one hp hs,
    fun p hp => perform_expression_of_seven_le hp hs⟩
  obtain ⟨r, t, u, ht, hu, hview⟩ := exists_outcome_inStages hpq hs
  refine ⟨r, t, u, ht, hu, hview, fun htracing => ?_, ?_, ?_⟩
  · rw [outcome_expression_eq_inStages hpq hs htracing, hu] at ht
    exact (Prod.mk.inj ht).2
  · have hne := outcome_ne_exhausted hs (.expression p)
    rw [ht] at hne
    exact hne
  · -- the tighter bound stops first, and the second stage reads on from there
    obtain ⟨⟨ts, hts⟩, -⟩ := (follows_outcome hs (.expression q)).2
    obtain ⟨⟨us, hus⟩, -⟩ := follows_inStages hs p q
    rw [hu, hview] at hus
    exact ⟨ts, us, hts, hts.append hus⟩

/-- A sum with a product in it. With the level of the sum as its bound, the first stage stops before
the sign, and the second one goes on with it. -/
theorem expression_in_stages_of_sum :
    let a := Token.unplaced .ident "a"
    let plus := Token.unplaced .plus "+"
    let b := Token.unplaced .ident "b"
    let times := Token.unplaced .asterisk "*"
    let c := Token.unplaced .ident "c"
    let s : State (List Token) := .start [a, plus, b, times, c] true
    let product := Node.infixExpression times (some (.identifier b "b")) "*"
      (some (.identifier c "c"))
    let sum := Node.infixExpression plus (some (.identifier a "a")) "+" (some product)
    (∃ u, (perform (.expression Precedence.sum.level)).outcome s =
        (.ok (some (.identifier a "a")), u) ∧ s.view.window = u.view.window) ∧
      (∃ t u, (perform (.expression (-3))).outcome s = (.ok (some sum), t) ∧
        (inStages (-3) Precedence.sum.level).outcome s = (.ok (some sum), u) ∧
        u.view = t.view) ∧
      perform (.expression (-3)) s = perform (.expression Precedence.lowest.level) s := by
  intro a plus b times c s product sum
  obtain ⟨hstages, hlow, -⟩ := expression_in_stages s ⟨rfl, rfl⟩
  obtain ⟨r, t, u, ht, hu, hview, -⟩ := hstages (-3) Precedence.sum.level (by decide)
  have hsum : ((perform (.expression (-3))).outcome s).1 = .ok (some sum) := rfl
  rw [ht] at hsum
  obtain rfl : r = .ok (some sum) := hsum
  exact ⟨⟨_, Prod.ext rfl rfl, rfl⟩, ⟨t, u, ht, hu, hview⟩, hlow (-3) (by decide)⟩

end Pratt
