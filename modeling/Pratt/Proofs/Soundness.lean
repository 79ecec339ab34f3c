import Pratt.Proofs.Outcome

/-!
# Pratt — nothing outside the grammar passes silently

Every rule of the parser is taken with the outcomes of the rules that it calls,
and shown to have its own (`Goal.Outcome`). That covers all texts, those that are
no programs included: for each early end of a rule there is a constructor of
`Breaks` that says what the token there should have been.

Of an operator that goes on with an expression it is not yet known how much of
what stands to its left belongs to its left operand. The outcome of going on is
therefore stated for a left part that was read from any window on, of any stratum
that binds tightly enough.

Main results:

* `Parse.hasOutcomes`: by induction on the fuel, with one lemma `step_...` for each
  goal, that every goal has its outcome.
* `outcome_of_parseProgram`: a parse that gives a tree has read a program, or has
  its first diagnostic where the text breaks.
* `derives_of_parseProgram`: a list of tokens that is parsed without a diagnostic
  is a program of the grammar, with the tree that was given.
-/

namespace Pratt

variable {σ : Type} [TokenSource σ]

namespace Parse

variable {fuel : Nat} {x : View σ}

/-- Every goal has its outcome when it is pursued with this fuel. -/
def HasOutcomes (σ : Type) [TokenSource σ] (fuel : Nat) : Prop :=
  ∀ (g : Goal) (x : View σ), g.Fits x → Ensures (run fuel g) x (g.Outcome x) fun _ _ => True

/-! ## Expressions -/

/-- A break at a stratum is one at every looser stratum. -/
theorem loosen_breaks {c d : Stratum} (hrank : c.rank ≤ d.rank) {ts : List Token} {t : Token}
    (h : Breaks (.expression d) ts t) : Breaks (.expression c) ts t :=
  Stratum.loosen (P := fun c => Breaks (.expression c) ts t) .loosened hrank h

/-- An atom that has been read. -/
theorem operandOutcome_of_derives {n : Node} {e : Ending} {ts : List Token} {w : Window σ}
    {y : View σ} (hreads : x.window.Reads ts w) (hy : y.Before w x.diagnostics)
    (h : Derives (.expression .atom e) ts n)
    (helse : e = .conditional → w.current.kind ≠ .elseWord) : OperandOutcome x (some n) y :=
  .inl ⟨.atom, by decide, n, e, ts, w, rfl, hreads, hy, h, w.current.kind.level_le_seven, helse⟩

/-- A break of an atom. -/
theorem operandOutcome_of_rejected {v : Option Node} {y : View σ}
    (h : Rejected (Breaks (.expression .atom)) x.window x.diagnostics y) : OperandOutcome x v y :=
  .inr (h.imp fun _ _ _ hB => loosen_breaks (by decide) hB)

/-- An operand is derived, or is rejected where its rule is or where there is no rule for it. -/
theorem ensures_operand_outcome (sub : HasOutcomes σ fuel) :
    Ensures (operand (run fuel)) x (OperandOutcome x) fun _ _ => True := by
  -- a rule that reads one token leaves the view as it is
  have hx : ∀ {y : View σ}, y = x → y.Before x.window.advance x.diagnostics :=
    fun h => h ▸ ⟨rfl, rfl⟩
  refine ensures_operand (fun hk => ?_) (fun hk => ?_) (fun hk => ?_) (fun hk => ?_) (fun hk => ?_)
    (fun hk => ?_) (fun hk => ?_) fun hk => ?_
  -- no rule starts here, which is the first thing that can go wrong
  · exact operandOutcome_of_rejected (.report [] rfl rfl rfl (.noStart hk))
  · refine (sub .identifier x trivial).imp_result fun v y h => ?_
    obtain ⟨rfl, hy⟩ := h
    exact operandOutcome_of_derives x.window.reads_current (hx hy) (.identifier hk) (by simp)
  · exact sub .integerLiteral x hk
  · refine (sub .boolean x trivial).imp_result fun v y h => ?_
    obtain ⟨rfl, hy⟩ := h
    have word : Derives (.expression .atom .other) [x.current]
        (.boolean x.current (x.current.kind = .trueWord)) := by
      rcases hk with hk | hk
      · simpa [hk] using Derives.trueWord hk
      · simpa [hk] using Derives.falseWord hk
    exact operandOutcome_of_derives x.window.reads_current (hx hy) word nofun
  · exact sub .prefixExpression x hk
  · exact sub .groupedExpression x hk
  · exact sub .ifExpression x hk
  · exact sub .functionLiteral x hk

/-- An operand that was read is what the expression goes on from, with the stratum of the
operand. -/
theorem step_expression (sub : HasOutcomes σ fuel) {bound : Int} (hone : 1 ≤ bound) :
    Ensures (expression (run fuel) bound) x ((Goal.expression bound).Outcome x)
      fun _ _ => True := by
  refine ensures_expression ((ensures_operand_outcome sub).imp_result fun v y h => ?_)
  have hranks := Stratum.rank_ofBound_le_unary bound
  -- either there is an operand to go on from, or it was rejected
  rcases h with ⟨c, hc, n, e, ts, w, rfl, hts, hy, hn, hlevel, helse⟩ | hreject
  · refine ⟨fun hnone => absurd hnone (Option.some_ne_none n), fun left hleft => ?_⟩
    cases hleft
    refine (sub (.continuation bound n) y hone).imp_result fun v z hz => ?_
    rw [← hy.window] at hts
    rw [← hy.peek] at hlevel helse
    -- so far the operand is all of the left part
    have outcome := hz c e ts x.window hts hn (by omega) hlevel helse
    rwa [hy.diagnostics] at outcome
  · have hreject' : Rejected (Breaks (.expression (.ofBound bound))) x.window x.diagnostics y :=
      hreject.imp fun _ _ _ hB => loosen_breaks hranks hB
    exact ⟨fun _ => .inr hreject',
      fun _ _ => (hreject'.run fuel _).imp_result fun _ _ hz => .inr hz⟩

/-- What comes of a left part that goes on: where the longer part is missing the outcome is that of
the whole, and else it goes on once more. -/
abbrev GoesOnTo (fuel : Nat) (x : View σ) (bound : Int) (left : Node) (v : Option Node)
    (y : View σ) : Prop :=
  (v = none → (Goal.continuation bound left).Outcome x none y) ∧ ∀ longer, v = some longer →
    Ensures (run fuel (.continuation bound longer)) y ((Goal.continuation bound left).Outcome x)
      fun _ _ => True

/-- An operator goes on: with its right operand the left part becomes longer. -/
theorem goesOnTo_operator (sub : HasOutcomes σ fuel) {bound : Int} (hone : 1 ≤ bound) (left : Node)
    (hk : x.peek.kind ∈ Kind.infixOperators) (hbound : bound < x.peek.kind.level) :
    Ensures (run fuel (.infixExpression (some left))) x.advance (GoesOnTo fuel x bound left)
      fun _ _ => True := by
  obtain ⟨c', d', hc', hd'⟩ := Kind.exists_mem_operators hk
  obtain ⟨-, hlevel, hceiling', -, hofBound⟩ := Stratum.of_mem_operators hc' hd'
  have hranks : (Stratum.ofBound bound).rank ≤ c'.rank := Stratum.rank_ofBound_le (by omega)
  refine (sub (.infixExpression left) x.advance trivial).imp_result fun v y h => ?_
  rcases h with ⟨u, rfl, ⟨r, e', us, w, rfl, hus, hy, hr, hw, helse'⟩ | hreject⟩
  · refine ⟨nofun, fun longer hlonger => ?_⟩
    cases hlonger
    refine (sub (.continuation bound _) y hone).imp_result ?_
    intro v z hz c e ts w₀ hts hleft _ hceiling _
    have hleft' := hleft.loosen (Stratum.rank_le_of_mem_operators hc' (by omega))
    -- with the level of the operator as its bound, the right operand is of the next stratum
    have hright : Derives (.expression (.ofBound x.peek.kind.level) e') us r := hr
    rw [hofBound] at hright
    have hreads : x.window.advance.Reads (x.peek :: us) y.window.advance :=
      ⟨rfl, hy.window ▸ hus⟩
    have outcome := hz c' e' _ w₀ (hts.append hreads)
      (.infixExpression hd' hleft' hc' hright) hranks
      (by rw [hy.peek, hceiling', ← hlevel]; exact hw) (by rw [hy.peek]; exact helse')
    rwa [hy.diagnostics] at outcome
  · -- The right operand breaks, and with it the whole.
    have whole : ∀ v z, Rejected (Breaks (.expression (.ofBound x.peek.kind.level)))
        x.window.advance.advance x.diagnostics z →
        (Goal.continuation bound left).Outcome x v z := by
      intro v z hz c e ts w₀ hts hleft _ hceiling _
      have hleft' := hleft.loosen (Stratum.rank_le_of_mem_operators hc' (by omega))
      refine .inr (hz.behind hts.concat fun us t hB => loosen_breaks hranks ?_)
      rw [hofBound] at hB
      simpa using Breaks.rightOperand hd' hleft' hc' hB
    exact ⟨fun _ => whole _ _ hreject,
      fun _ _ => (hreject.run fuel _).imp_result fun _ _ hz => whole _ _ hz⟩

/-- A call goes on, as an operator does. -/
theorem goesOnTo_call (sub : HasOutcomes σ fuel) {bound : Int} (hone : 1 ≤ bound) (left : Node)
    (hk : x.peek.kind = .leftParen) (hbound : bound < x.peek.kind.level) :
    Ensures (run fuel (.callExpression (some left))) x.advance (GoesOnTo fuel x bound left)
      fun _ _ => True := by
  have hranks : (Stratum.ofBound bound).rank ≤ Stratum.call.rank :=
    Stratum.rank_ofBound_le (by rw [hk] at hbound; exact hbound)
  refine (sub (.callExpression left) x.advance trivial).imp_result fun v y h => ?_
  rcases h with ⟨u, rfl, ⟨ns, us, w, rfl, hus, rfl, hns, hw⟩ | hreject⟩
  · refine ⟨nofun, fun longer hlonger => ?_⟩
    cases hlonger
    refine (sub (.continuation bound _) _ hone).imp_result ?_
    intro v z hz c e ts w₀ hts hleft _ hceiling _
    rw [hk] at hceiling
    have hreads : x.window.advance.Reads (x.peek :: (us ++ [w.current])) w.advance :=
      ⟨rfl, hus.concat⟩
    exact hz .call .other _ w₀ (hts.append hreads)
      (.callExpression (hleft.loosen (Stratum.call_rank_le hceiling)) hk hns hw) hranks
      (Kind.level_le_seven _) nofun
  · -- The arguments break, and with them the whole.
    have whole : ∀ v z, Rejected (BreaksList .items) x.window.advance.advance x.diagnostics z →
        (Goal.continuation bound left).Outcome x v z := by
      intro v z hz c e ts w₀ hts hleft _ hceiling _
      rw [hk] at hceiling
      have hleft' := hleft.loosen (Stratum.call_rank_le hceiling)
      refine .inr (hz.behind hts.concat fun us t hB => loosen_breaks hranks ?_)
      simpa using Breaks.arguments hleft' hk hB.1 hB.2
    exact ⟨fun _ => whole _ _ hreject,
      fun _ _ => (hreject.run fuel _).imp_result fun _ _ hz => whole _ _ hz⟩

/-- An expression goes on as long as something binds tighter than the bound, and each time the left
part is derived from more tokens. -/
theorem step_continuation (sub : HasOutcomes σ fuel) {bound : Int} (hone : 1 ≤ bound)
    (left : Node) :
    Ensures (continuation (run fuel) bound left) x ((Goal.continuation bound left).Outcome x)
      fun _ _ => True := by
  refine ensures_continuation (fun hdone c e ts w₀ hts hleft hrank _ helse => ?_)
    (fun hk hbound => goesOnTo_operator sub hone left hk hbound)
    fun hk hbound => goesOnTo_call sub hone left hk hbound
  -- nothing goes on: the left part is the expression
  have hlevel : x.peek.kind.level ≤ bound := by
    rcases hdone with hk | hle
    · have := Kind.level_of_notMem_binding hk
      omega
    · exact hle
  exact .inl ⟨left, e, ts, _, rfl, hts, ⟨rfl, rfl⟩, hleft.loosen hrank, hlevel, helse⟩

/-- The right operand has the outcome of an expression with the level of the operator as its
bound. -/
theorem step_infixExpression (sub : HasOutcomes σ fuel) (left : Option Node) :
    Ensures (infixExpression (run fuel) left) x ((Goal.infixExpression left).Outcome x)
      fun _ _ => True := by
  have operand := sub (.expression x.current.kind.level) x.advance
    x.current.kind.precedence.one_le_level
  exact ensures_infixExpression (operand.imp_result fun v _ h => ⟨v, rfl, h⟩)

/-- A call has the outcome of its arguments. -/
theorem step_callExpression (sub : HasOutcomes σ fuel) (function : Option Node) :
    Ensures (callExpression (run fuel) function) x ((Goal.callExpression function).Outcome x)
      fun _ _ => True :=
  ensures_callExpression
    ((sub (.expressionList .rightParen) x rfl).imp_result fun v _ h => ⟨v, rfl, h⟩)

/-! ## Operands -/

/-- A literal is an integer of the grammar, or what the text breaks at. One that is too long to be
read has no outcome but a fault. -/
theorem step_integerLiteral (hk : x.current.kind = .int) :
    Ensures integerLiteral x (Goal.integerLiteral.Outcome x) fun _ _ => True := by
  refine ensures_integerLiteral (fun n hn => ?_) (fun _ _ => trivial) fun hn => ?_
  · obtain ⟨digits, short, small, rfl⟩ := Numeral.read_eq_integer_iff.1 hn
    exact operandOutcome_of_derives x.window.reads_current ⟨rfl, rfl⟩
      (.integerLiteral hk digits short small) nofun
  · exact operandOutcome_of_rejected (.report [] rfl rfl rfl (.notInteger hk hn))

/-- What breaks the operand breaks the prefix expression. -/
theorem step_prefixExpression (sub : HasOutcomes σ fuel)
    (hk : x.current.kind ∈ Kind.prefixOperators) :
    Ensures (prefixExpression (run fuel)) x (Goal.prefixExpression.Outcome x)
      fun _ _ => True := by
  have operand := sub (.expression 6) x.advance (by decide : (1 : Int) ≤ 6)
  refine ensures_prefixExpression (operand.imp_result fun v y h => ?_)
  rcases h with ⟨n, e, ts, w, rfl, hts, hy, hn, hlevel, helse⟩ | hreject
  -- a unary expression is no atom, so that nothing calls it
  · exact .inl ⟨.unary, Nat.le_refl _, _, e, x.current :: ts, w, rfl, ⟨rfl, hts⟩, hy,
      .prefixExpression hk hn, hlevel, helse⟩
  · exact .inr (hreject.behind x.window.reads_current fun _ _ hB => .operand hk hB)

/-- An expression that is read with the least bound: the whole of what stands there. -/
theorem ensures_whole (sub : HasOutcomes σ fuel) :
    Ensures (run fuel (.expression 1)) x (ExpressionOutcome 1 x.window x.diagnostics)
      fun _ _ => True :=
  sub (.expression 1) x (by decide : (1 : Int) ≤ 1)

/-- A group breaks inside or at what should close it. -/
theorem step_groupedExpression (sub : HasOutcomes σ fuel) (hk : x.current.kind = .leftParen) :
    Ensures (groupedExpression (run fuel)) x (Goal.groupedExpression.Outcome x)
      fun _ _ => True := by
  refine ensures_groupedExpression ((ensures_whole sub).imp_result fun v y h => ?_)
  rcases h with ⟨n, e, ts, w, rfl, hts, hy, hn, hlevel, helse⟩ | hreject
  -- the inside is complete, so it is a group or breaks at what should close it
  · refine ⟨fun hclose => ?_, fun hclose => operandOutcome_of_rejected ?_⟩
    · rw [hy.peek] at hclose
      rw [hy.advance]
      have hreads : x.window.Reads (x.current :: (ts ++ [w.current])) w.advance :=
        ⟨rfl, hts.concat⟩
      exact operandOutcome_of_derives hreads ⟨rfl, rfl⟩ (.group hk hn hclose) nofun
    · exact .report (x.current :: ts) hy.diagnostics ⟨rfl, hts⟩ hy.peek.symm
        (.groupClosing hk hn (fun _ => by rw [hy.peek]; exact ⟨hlevel, helse⟩) hclose)
  -- the inside is rejected, and so is the group, closed or not
  · have whole : Rejected (Breaks (.expression .atom)) x.window x.diagnostics y :=
      hreject.behind x.window.reads_current fun _ _ hB => .group hk hB
    exact ⟨fun _ => operandOutcome_of_rejected whole.advance,
      fun _ => operandOutcome_of_rejected (whole.again _ _)⟩

/-- The outcome of a conditional of which the alternative is left. -/
theorem ensures_alternative_outcome (sub : HasOutcomes σ fuel) {e : Ending} {ts us : List Token}
    {l m : Node} {u w : Window σ} {z : View σ} (hk : x.current.kind = .ifWord)
    (hopen : x.peek.kind = .leftParen) (hts : x.window.advance.advance.Reads ts w)
    (hl : Derives (.expression .equality e) ts l) (hclose : w.current.kind = .rightParen)
    (hus : w.advance.Reads us u) (hm : Derives .block us m) (hz : z.Before u x.diagnostics) :
    Ensures (alternative (run fuel)) z (fun a y => OperandOutcome x
      (a.map fun other => .ifExpression x.current (some l) (some m) other) y) fun _ _ => True := by
  -- all that was read up to here
  have hreads : x.window.Reads (x.current :: x.peek :: (ts ++ w.current :: us)) u :=
    ⟨rfl, rfl, hts.append ⟨rfl, hus⟩⟩
  refine ensures_alternative (fun hnone => ?_) (fun helse hbrace => ?_) fun helse hbrace => ?_
  -- no `else` stands behind, which is what the conditional needs for its ending
  · rw [hz.peek] at hnone
    exact operandOutcome_of_derives hreads hz (.conditional hk hopen hl hclose hm) fun _ => hnone
  · rw [hz.peek] at helse
    rw [hz.advance] at hbrace ⊢
    refine operandOutcome_of_rejected (.report _ rfl hreads.concat rfl ?_)
    simpa using Breaks.alternativeOpening hk hopen hl hclose hm helse hbrace
  · rw [hz.peek] at helse
    rw [hz.advance] at hbrace ⊢
    refine (sub .blockStatement ⟨u.advance, x.diagnostics⟩ hbrace).imp_result fun b y h => ?_
    rcases h with ⟨n, vs, v, rfl, hvs, hy, hn⟩ | hreject
    · have hreads' : x.window.Reads
          (x.current :: x.peek :: (ts ++ w.current :: (us ++ u.current :: vs))) v :=
        ⟨rfl, rfl, hts.append ⟨rfl, hus.append ⟨rfl, hvs⟩⟩⟩
      exact operandOutcome_of_derives hreads' hy
        (.alternative hk hopen hl hclose hm helse hn) nofun
    · refine operandOutcome_of_rejected (hreject.behind hreads.concat fun _ _ hB => ?_)
      simpa using Breaks.alternative hk hopen hl hclose hm helse hB

/-- A conditional breaks at the first of its parts that does. -/
theorem step_ifExpression (sub : HasOutcomes σ fuel) (hk : x.current.kind = .ifWord) :
    Ensures (ifExpression (run fuel)) x (Goal.ifExpression.Outcome x) fun _ _ => True := by
  refine ensures_ifExpression (fun hopen => operandOutcome_of_rejected ?_) fun hopen => ?_
  · exact .report [x.current] rfl ⟨rfl, rfl⟩ rfl (.conditionOpening hk hopen)
  refine (ensures_whole sub).imp_result fun c y h => ?_
  rcases h with ⟨l, e, ts, w, rfl, hts, hy, hl, hlevel, helse⟩ | hreject
  -- the condition is complete
  · have hreads : x.window.Reads (x.current :: x.peek :: ts) w := ⟨rfl, rfl, hts⟩
    refine ⟨fun hclose => operandOutcome_of_rejected ?_,
      fun hclose hbrace => operandOutcome_of_rejected ?_, fun hclose hbrace => ?_⟩
    · exact .report _ hy.diagnostics hreads hy.peek.symm
        (.conditionClosing hk hopen hl (fun _ => by rw [hy.peek]; exact ⟨hlevel, helse⟩) hclose)
    · rw [hy.peek] at hclose
      rw [hy.advance] at hbrace ⊢
      exact .report _ rfl hreads.concat rfl (.consequenceOpening hk hopen hl hclose hbrace)
    · rw [hy.peek] at hclose
      rw [hy.advance] at hbrace ⊢
      refine (sub .blockStatement ⟨w.advance, x.diagnostics⟩ hbrace).imp_result fun b z h => ?_
      rcases h with ⟨m, us, u, rfl, hus, hz, hm⟩ | hreject
      -- so is the block, and only the alternative is left
      · refine ⟨nofun, fun consequence hc => ?_⟩
        cases hc
        have other := ensures_alternative_outcome sub hk hopen hts hl hclose hus hm hz
        refine other.imp_result fun a v h => ?_
        cases a with
        | none => exact h
        | some other => exact h
      -- the block is rejected: an alternative changes nothing
      · have whole : Rejected (Breaks (.expression .atom)) x.window x.diagnostics z := by
          refine hreject.behind hreads.concat fun _ _ hB => ?_
          simpa using Breaks.consequence hk hopen hl hclose hB
        exact ⟨fun _ => operandOutcome_of_rejected whole,
          fun _ _ => (whole.alternative fuel).imp_result
            fun _ _ h => operandOutcome_of_rejected h⟩
  -- the condition is rejected: what is read after it changes nothing
  · have hreads : x.window.Reads [x.current, x.peek] x.window.advance.advance := ⟨rfl, rfl, rfl⟩
    have whole : Rejected (Breaks (.expression .atom)) x.window x.diagnostics y :=
      hreject.behind hreads fun _ _ hB => .condition hk hopen hB
    refine ⟨fun _ => operandOutcome_of_rejected (whole.again _ _),
      fun _ _ => operandOutcome_of_rejected (whole.advance.again _ _), fun _ _ => ?_⟩
    refine (whole.advance.advance.run fuel _).imp_result fun b z h => ?_
    exact ⟨fun _ => operandOutcome_of_rejected h,
      fun _ _ => (h.alternative fuel).imp_result
        fun _ _ h => operandOutcome_of_rejected h⟩

/-- A function breaks in its parameters, at its brace, or in its body. -/
theorem step_functionLiteral (sub : HasOutcomes σ fuel) (hk : x.current.kind = .functionWord) :
    Ensures (functionLiteral (run fuel)) x (Goal.functionLiteral.Outcome x) fun _ _ => True := by
  refine ensures_functionLiteral (fun hopen => operandOutcome_of_rejected ?_) fun hopen => ?_
  · exact .report [x.current] rfl ⟨rfl, rfl⟩ rfl (.parametersOpening hk hopen)
  refine (sub .functionParameters x.advance trivial).imp_result fun ps y h => ?_
  rcases h with ⟨ns, ts, w, rfl, hts, rfl, hns, hclose⟩ | hreject
  -- the parameters are complete, so that the body is what matters
  · have hreads : x.window.Reads (x.current :: x.peek :: ts) w := ⟨rfl, rfl, hts⟩
    refine ⟨nofun, fun names _ hbrace => operandOutcome_of_rejected ?_,
      fun names hnames hbrace => ?_⟩
    · exact .report _ rfl hreads.concat rfl (.bodyOpening hk hopen hns hclose hbrace)
    · cases hnames
      refine (sub .blockStatement ⟨w.advance, x.diagnostics⟩ hbrace).imp_result fun b z h => ?_
      rcases h with ⟨m, us, u, rfl, hus, hz, hm⟩ | hreject
      · have hreads' : x.window.Reads (x.current :: x.peek :: (ts ++ w.current :: us)) u :=
          ⟨rfl, rfl, hts.append ⟨rfl, hus⟩⟩
        exact operandOutcome_of_derives hreads' hz (.functionLiteral hk hopen hns hclose hm) nofun
      · refine operandOutcome_of_rejected (hreject.behind hreads.concat fun _ _ hB => ?_)
        simpa using Breaks.body hk hopen hns hclose hB
  · have hreads : x.window.Reads [x.current, x.peek] x.window.advance.advance := ⟨rfl, rfl, rfl⟩
    have whole : Rejected (Breaks (.expression .atom)) x.window x.diagnostics y :=
      hreject.behind hreads fun _ _ hB => .parameters hk hopen hB.1 hB.2
    exact ⟨fun _ => operandOutcome_of_rejected whole,
      fun _ _ _ => operandOutcome_of_rejected (whole.again _ _),
      fun _ _ _ => (whole.advance.run fuel _).imp_result fun _ _ h => operandOutcome_of_rejected h⟩

/-! ## Lists -/

/-- A list that does not start with the closing parenthesis breaks as one that is not empty. -/
theorem rejected_breaksList {p : Part} {w₀ : Window σ} {ds : List Diagnostic} {y : View σ}
    (h : Rejected (Breaks p) w₀ ds y) (hne : w₀.current.kind ≠ .rightParen) :
    Rejected (BreaksList p) w₀ ds y := by
  refine h.imp fun us w hus hB => ⟨fun hempty => ?_, hB⟩
  subst hempty
  obtain rfl := hus
  exact hne

/-- A list that is not closed at once has to be one of names. -/
theorem step_functionParameters (sub : HasOutcomes σ fuel) :
    Ensures (functionParameters (run fuel)) x (Goal.functionParameters.Outcome x)
      fun _ _ => True := by
  refine ensures_functionParameters
    (fun hclose => .inl ⟨[], [], _, rfl, rfl, rfl, .noParameters, hclose⟩) fun hne => ?_
  refine (sub .parameters x trivial).imp_result fun v y h => ?_
  rcases h with ⟨ns, ts, w, hv, hts, hy, hns, hclose⟩ | hreject
  · exact .inl ⟨ns, ts, w, hv, hts, hy, .someParameters hns, hclose⟩
  · exact .inr (rejected_breaksList hreject hne)

/-- A list of names breaks where a name is missing, or where it neither goes on nor is closed. -/
theorem step_parameters (sub : HasOutcomes σ fuel) :
    Ensures (parameters (run fuel)) x (Goal.parameters.Outcome x) fun _ _ => True := by
  refine ensures_parameters (fun hname => ?_) (fun hname hcomma => ?_) (fun hname hclose => ?_)
    fun hname hcomma hclose => ?_
  -- a name was asked for
  · exact .inr (.report [] rfl rfl rfl (.noName hname))
  -- a comma, and behind it another name
  · refine (sub .parameters x.advance.advance trivial).imp_result fun v y h => ?_
    rcases h with ⟨ns, ts, w, rfl, hts, hy, hns, hclose⟩ | hreject
    -- the last name
    · exact .inl ⟨_, x.peek :: x.advance.peek :: ts, w, rfl, ⟨rfl, rfl, hts⟩, hy,
        .moreNames hname hcomma hns, hclose⟩
    · have hreads : x.window.advance.Reads [x.peek, x.advance.peek]
          x.window.advance.advance.advance := ⟨rfl, rfl, rfl⟩
      exact .inr (hreject.behind hreads fun _ _ hB => .laterName hname hcomma hB)
  · exact .inl ⟨_, [x.peek], _, rfl, ⟨rfl, rfl⟩, rfl, .oneName hname, hclose⟩
  · exact .inr (.report [x.peek] rfl ⟨rfl, rfl⟩ rfl (.nameEnd hname hcomma hclose))

/-- A list that is not closed at once has to be one of items, with what closes it behind them. -/
theorem step_expressionList (sub : HasOutcomes σ fuel) :
    Ensures (expressionList (run fuel) .rightParen) x
      ((Goal.expressionList .rightParen).Outcome x) fun _ _ => True := by
  refine ensures_expressionList
    (fun hclose => .inl ⟨[], [], _, rfl, rfl, rfl, .noArguments, hclose⟩) fun hne => ?_
  refine (sub .expressions x.advance trivial).imp_result fun vs y h => ?_
  rcases h with ⟨ns, ts, w, rfl, hts, hy, hns, hbreaks⟩ | hreject
  -- the items end where they may, so only a token that does not close them is wrong
  · refine ⟨fun hclose => ?_, fun hclose => ?_⟩
    · rw [hy.peek] at hclose
      exact .inl ⟨ns, ts, w, mapM_id_map_some ns, hts, hy.advance, .someArguments hns, hclose⟩
    · rw [hy.peek] at hclose ⊢
      exact .inr (.report ts hy.diagnostics hts rfl ⟨fun _ => hclose, hbreaks hclose⟩)
  · have whole := rejected_breaksList hreject hne
    exact ⟨fun _ => .inr whole.advance, fun _ => .inr (whole.again _ _)⟩

/-- The items end at the first of them without a comma behind it, or break in one of them. -/
theorem step_expressions (sub : HasOutcomes σ fuel) :
    Ensures (expressions (run fuel)) x (Goal.expressions.Outcome x) fun _ _ => True := by
  refine ensures_expressions ((ensures_whole sub).imp_result fun v y h => ?_)
  rcases h with ⟨n, e, ts, w, rfl, hts, hy, hn, hlevel, helse⟩ | hreject
  · refine ⟨fun hcomma => ?_, fun hcomma => ?_⟩
    · rw [hy.peek] at hcomma
      rw [hy.advance]
      refine (sub .expressions ⟨w.advance, x.diagnostics⟩ trivial).imp_result fun vs z h => ?_
      rcases h with ⟨ns, us, u, rfl, hus, hz, hns, hbreaks⟩ | hreject
      · have hreads : w.Reads (w.current :: us) u := ⟨rfl, hus⟩
        exact .inl ⟨n :: ns, _, u, rfl, hts.append hreads, hz, .moreItems hn hcomma hns,
          fun hne => .laterItem hn hcomma (hbreaks hne)⟩
      · refine .inr (hreject.behind hts.concat fun _ _ hB => ?_)
        simpa using Breaks.laterItem hn hcomma hB
    · rw [hy.peek] at hcomma
      exact .inl ⟨[n], ts, w, rfl, hts, hy, .oneItem hn,
        fun hne => .itemEnd hn (fun _ => ⟨hlevel, helse⟩) hcomma hne⟩
  -- an item is rejected, and with it the list, even if the rest of it is read
  · have whole : Rejected (Breaks .items) x.window x.diagnostics y :=
      hreject.imp fun _ _ _ hB => .firstItem hB
    exact ⟨fun _ => (whole.advance.advance.run fuel _).imp_result fun _ _ h => .inr h,
      fun _ => .inr whole⟩

/-! ## Statements and programs -/

/-- The end of a statement: with its semicolon, if there is one. -/
theorem statementOutcome_of_derives {n : Node} {e : Ending} {ts : List Token} {w : Window σ}
    {y : View σ} (hreads : x.window.Reads ts w) (hy : y.Before w x.diagnostics)
    (h : Derives (.statement e) ts n) (he : e ≠ .semicolon) (hlevel : w.current.kind.level ≤ 1)
    (helse : e = .conditional → w.current.kind ≠ .elseWord) :
    StatementOutcome x (some n) (y.skip .semicolon) := by
  have hskip := hy.skip .semicolon
  -- a semicolon belongs to the statement, which ends differently then
  by_cases hk : w.current.kind = .semicolon
  · rw [Window.skip, if_pos hk] at hskip
    exact .inl ⟨n, .semicolon, _, _, rfl, hreads.concat, hskip, .closedStatement h he hk,
      fun hne => absurd rfl hne, fun hne => absurd rfl hne⟩
  · rw [Window.skip, if_neg hk] at hskip
    exact .inl ⟨n, e, ts, w, rfl, hreads, hskip, h, fun _ => ⟨hlevel, helse⟩, fun _ => hk⟩

/-- A `let` breaks at its name, at its sign, or in its value. -/
theorem step_letStatement (sub : HasOutcomes σ fuel) (hk : x.current.kind = .letWord) :
    Ensures (letStatement (run fuel)) x (Goal.letStatement.Outcome x) fun _ _ => True := by
  refine ensures_letStatement (fun hname => .inr ?_) (fun hname hsign => .inr ?_)
    fun hname hsign => ?_
  · exact .report [x.current] rfl ⟨rfl, rfl⟩ rfl (.noLetName hk hname)
  · exact .report [x.current, x.peek] rfl ⟨rfl, rfl, rfl⟩ rfl (.noLetSign hk hname hsign)
  -- from here on there is a name and a sign
  refine (ensures_whole sub).imp_result fun v y h => ?_
  rcases h with ⟨n, e, ts, w, rfl, hts, hy, hn, hlevel, helse⟩ | hreject
  · have hreads : x.window.Reads (x.current :: x.peek :: x.advance.peek :: ts) w :=
      ⟨rfl, rfl, rfl, hts⟩
    exact statementOutcome_of_derives hreads hy (.letStatement hk hname hsign hn)
      (hn.ending_ne_semicolon rfl) hlevel helse
  · have hreads : x.window.Reads [x.current, x.peek, x.advance.peek]
        x.window.advance.advance.advance := ⟨rfl, rfl, rfl, rfl⟩
    have whole : Rejected (Breaks .statement) x.window x.diagnostics y :=
      hreject.behind hreads fun _ _ hB => .letValue hk hname hsign hB
    exact .inr (whole.skip _)

/-- A `return` breaks in its value. -/
theorem step_returnStatement (sub : HasOutcomes σ fuel) (hk : x.current.kind = .returnWord) :
    Ensures (returnStatement (run fuel)) x (Goal.returnStatement.Outcome x) fun _ _ => True := by
  refine ensures_returnStatement ((ensures_whole sub).imp_result fun v y h => ?_)
  rcases h with ⟨n, e, ts, w, rfl, hts, hy, hn, hlevel, helse⟩ | hreject
  · have hreads : x.window.Reads (x.current :: ts) w := ⟨rfl, hts⟩
    exact statementOutcome_of_derives hreads hy (.returnStatement hk hn)
      (hn.ending_ne_semicolon rfl) hlevel helse
  · have whole : Rejected (Breaks .statement) x.window x.diagnostics y :=
      hreject.behind x.window.reads_current fun _ _ hB => .returnValue hk hB
    exact .inr (whole.skip _)

/-- A statement without a word of its own breaks in its expression. -/
theorem step_expressionStatement (sub : HasOutcomes σ fuel)
    (hk : x.current.kind ≠ .letWord ∧ x.current.kind ≠ .returnWord) :
    Ensures (expressionStatement (run fuel)) x (Goal.expressionStatement.Outcome x)
      fun _ _ => True := by
  refine ensures_expressionStatement ((ensures_whole sub).imp_result fun v y h => ?_)
  rcases h with ⟨n, e, ts, w, rfl, hts, hy, hn, hlevel, helse⟩ | hreject
  -- the statement has the token that its expression starts with
  · obtain ⟨t, us, rfl, -⟩ := hn.starts
    obtain rfl : x.current = t := hts.1
    exact statementOutcome_of_derives hts hy (.expressionStatement hn)
      (hn.ending_ne_semicolon rfl) hlevel helse
  · have whole : Rejected (Breaks .statement) x.window x.diagnostics y := by
      refine hreject.imp fun us w hus hB => .expressionStatement (fun hempty => ?_) hB
      subst hempty
      obtain rfl := hus
      exact hk
    exact .inr (whole.skip _)

/-- The word that a statement starts with says which of the three outcomes it has. -/
theorem step_statement (sub : HasOutcomes σ fuel) :
    Ensures (statement (run fuel)) x (Goal.statement.Outcome x) fun _ _ => True :=
  ensures_statement (fun hk => sub .letStatement x hk) (fun hk => sub .returnStatement x hk)
    fun hlet hreturn => sub .expressionStatement x ⟨hlet, hreturn⟩

/-- A block breaks in its statements, or at the end of the input. -/
theorem step_blockStatement (sub : HasOutcomes σ fuel) (hk : x.current.kind = .leftBrace) :
    Ensures (blockStatement (run fuel)) x (Goal.blockStatement.Outcome x) fun _ _ => True := by
  have body := sub (.statements .rightBrace) x.advance trivial
  refine ensures_blockStatement (body.imp_result fun ns y h => ?_)
  rcases h with ⟨ts, w, hts, rfl, hns, hclosed⟩ | hreject
  -- the body ends at a brace or at the end of the input, and the latter is reported
  · have hreads : x.window.Reads (x.current :: ts) w := ⟨rfl, hts⟩
    refine ⟨fun heof => .inr (.report _ rfl hreads rfl (.blockEnd hk hns heof)), fun heof => ?_⟩
    rcases hclosed with hclose | heof'
    · exact .inl ⟨_, _, _, rfl, hreads.concat, ⟨rfl, rfl⟩, .block hk hns hclose⟩
    · exact absurd heof' heof
  · have whole : Rejected (Breaks .block) x.window x.diagnostics y :=
      hreject.behind x.window.reads_current fun _ _ hB => .block hk hB
    exact ⟨fun _ => .inr (whole.again _ _), fun _ => .inr whole⟩

/-- Behind a statement that is complete the list goes on. Behind one that broke it goes on too, but
what broke stays reported as the first thing. -/
theorem step_statements (sub : HasOutcomes σ fuel) (closer : Kind) :
    Ensures (statements (run fuel) closer) x ((Goal.statements closer).Outcome x)
      fun _ _ => True := by
  refine ensures_statements
    (fun hclosed => .inl ⟨[], x.window, rfl, rfl, .noStatements, hclosed⟩) fun hmore => ?_
  refine (sub .statement x trivial).imp_result fun v y h => ?_
  rcases h with ⟨n, e, ts, w, rfl, hts, hy, hn, hstops, hsemicolon⟩ | hreject
  -- the statement is complete, and the rest has its outcome behind it
  · refine ⟨fun n' hn' => ?_, nofun⟩
    cases hn'
    rw [hy.advance]
    refine (sub (.statements closer) ⟨w, x.diagnostics⟩ trivial).imp_result fun ns z h => ?_
    rcases h with ⟨us, u, hus, rfl, hns, hclosed⟩ | hreject
    · refine .inl ⟨ts ++ us, u, hts.append hus, rfl, .moreStatements hn hns ?_, hclosed⟩
      -- an open statement stands before a token of a low level, which neither of the two is
      intro he t ht
      obtain ⟨us, rfl⟩ : ∃ us', us = t :: us' := List.head?_eq_some_iff.1 ht
      obtain rfl : w.current = t := hus.1
      have hlevel := (hstops he).1
      exact ⟨fun h => absurd (h ▸ hlevel) (by decide), fun h => absurd (h ▸ hlevel) (by decide)⟩
    -- the rest is rejected: its break needs to know what stands behind the first statement
    · refine .inr (Rejected.behind (B := fun us t => (us ++ [t]).head? = some w.current ∧
        Breaks (.statements closer) us t) ?_ hts fun us t hB => ?_)
      · refine hreject.imp fun us u hus hB => ⟨?_, hB⟩
        cases us with
        | nil =>
          obtain rfl : w = u := hus
          rfl
        | cons t us => exact congrArg some hus.1.symm
      · refine .laterStatement hn (fun u hu => ?_) hB.2
        rw [hB.1] at hu
        cases hu
        exact ⟨hstops, hsemicolon⟩
  -- the statement is rejected, and recovery does not undo that
  · have whole : Rejected (Breaks (.statements closer)) x.window x.diagnostics y := by
      refine hreject.imp fun us w hus hB => .firstStatement (fun hempty => ?_) hB
      subst hempty
      obtain rfl := hus
      exact not_or.1 hmore
    refine ⟨fun _ _ => (whole.advance.run fuel _).imp_result fun _ _ h => .inr h,
      fun _ => (whole.run fuel _).imp_result fun _ z h => ?_⟩
    exact (h.advance.run fuel _).imp_result fun _ _ h => .inr h

/-- A program has the outcome of its statements, with the end of the input behind them. -/
theorem step_program (sub : HasOutcomes σ fuel) :
    Ensures (program (run fuel)) x (Goal.program.Outcome x) fun _ _ => True := by
  refine ensures_program ((sub (.statements .eof) x trivial).imp_result fun ns y h => ?_)
  rcases h with ⟨ts, w, hts, hy, hns, hclosed⟩ | hreject
  · exact .inl ⟨ts, w, hts, hy, .program hns, or_self_iff.1 hclosed⟩
  · exact .inr hreject

/-- Every goal has its outcome, with any amount of fuel. -/
theorem hasOutcomes (fuel : Nat) : HasOutcomes σ fuel := by
  -- on the fuel: what a rule calls runs with one unit less
  induction fuel with
  | zero => exact fun _ _ _ => Ensures.throw trivial
  | succ fuel sub =>
    intro g x hfits
    refine ensures_run_succ ?_
    cases g with
    | program => exact step_program sub
    | statement => exact step_statement sub
    | letStatement => exact step_letStatement sub hfits
    | returnStatement => exact step_returnStatement sub hfits
    | expressionStatement => exact step_expressionStatement sub hfits
    | blockStatement => exact step_blockStatement sub hfits
    | expression => exact step_expression sub hfits
    | identifier => exact ensures_identifier ⟨rfl, rfl⟩
    | integerLiteral => exact step_integerLiteral hfits
    | boolean => exact ensures_boolean ⟨rfl, rfl⟩
    | prefixExpression => exact step_prefixExpression sub hfits
    | infixExpression => exact step_infixExpression sub _
    | groupedExpression => exact step_groupedExpression sub hfits
    | ifExpression => exact step_ifExpression sub hfits
    | functionLiteral => exact step_functionLiteral sub hfits
    | functionParameters => exact step_functionParameters sub
    | callExpression => exact step_callExpression sub _
    | expressionList =>
      obtain rfl := hfits
      exact step_expressionList sub
    | statements => exact step_statements sub _
    | continuation => exact step_continuation sub hfits _
    | parameters => exact step_parameters sub
    | expressions => exact step_expressions sub
    | recovery => exact ensures_recovery (fun _ => trivial) fun _ _ _ => sub (.recovery _) _ trivial

end Parse

/-! ## What comes of parsing a source -/

/-- A parse that ends with a tree has the outcome of a program. -/
theorem outcome_of_parseProgram [LawfulTokenSource σ] {source : σ} {tracing : Bool} {tree : Node}
    {s : State σ} (hrun : parseProgram source tracing = (.ok tree, s)) :
    Goal.program.Outcome (View.start source) tree s.view :=
  Parse.of_parseProgram (fun fuel => Parse.hasOutcomes fuel .program _ trivial) hrun

/-- A source that is parsed without a diagnostic reads a program of the grammar and then the end of
the input. -/
theorem exists_derives_of_diagnostics_eq_nil [LawfulTokenSource σ] {source : σ} {tracing : Bool}
    {tree : Node} {s : State σ} (hrun : parseProgram source tracing = (.ok tree, s))
    (hs : s.diagnostics = []) :
    ∃ ts w, (View.start source).window.Reads ts w ∧ Derives .program ts tree ∧
      w.current.kind = .eof := by
  rcases outcome_of_parseProgram hrun with ⟨ts, w, hts, -, htree, hw⟩ | ⟨d, later, -, -, hds, -⟩
  · exact ⟨ts, w, hts, htree, hw⟩
  · have hcons : s.diagnostics = d :: later := hds
    rw [hs] at hcons
    cases hcons

/-- A list of tokens that is parsed without a diagnostic is a program of the grammar, all of it, and
the tree is that of a derivation. -/
theorem derives_of_parseProgram {ts : List Token} {tracing : Bool} {tree : Node}
    {s : State (List Token)} (hts : ∀ t ∈ ts, t.kind ≠ .eof)
    (hrun : parseProgram ts tracing = (.ok tree, s)) (hs : s.diagnostics = []) :
    Derives .program ts tree := by
  obtain ⟨us, w, hus, htree, hw⟩ := exists_derives_of_diagnostics_eq_nil hrun hs
  rw [View.start_ofList] at hus
  obtain ⟨rest, rfl, rfl⟩ := Window.exists_append_of_reads_ofList hus htree.ne_eof
  -- What is behind the program starts with an end of the input, so there is nothing.
  cases rest with
  | nil => rwa [List.append_nil]
  | cons t rest =>
    rw [Window.current_ofList] at hw
    exact absurd hw (hts t (by simp))

/-- Two sums with nothing between them are two statements, and a call behind the second one is of
its last name only. -/
theorem derives_twoSums :
    let name (text : String) := Token.unplaced .ident text
    let plus := Token.unplaced .plus "+"
    let opening := Token.unplaced .leftParen "("
    let first := Node.infixExpression plus (some (.identifier (name "a") "a")) "+"
      (some (.identifier (name "b") "b"))
    let call := Node.callExpression opening (some (.identifier (name "g") "g")) []
    let second := Node.infixExpression plus (some (.identifier (name "f") "f")) "+" (some call)
    Derives .program
      [name "a", plus, name "b", name "f", plus, name "g", opening, .unplaced .rightParen ")"]
      (.program [.expressionStatement (name "a") (some first),
        .expressionStatement (name "f") (some second)]) := by
  intro name plus opening first call second
  have hrun : parseProgram
      [name "a", plus, name "b", name "f", plus, name "g", opening, .unplaced .rightParen ")"]
      false = (.ok (.program [.expressionStatement (name "a") (some first),
        .expressionStatement (name "f") (some second)]), _) := Prod.ext rfl rfl
  exact derives_of_parseProgram (by decide) hrun rfl

end Pratt
