import Pratt.Proofs.Faults
import Pratt.Proofs.Soundness

/-!
# Pratt — errors are reported as early as they can be

The first diagnostic of a parse is at the first token that no program goes on
with. What stands before it is viable: some program of the language starts so.
With the token itself it is not.

That what stands before can be completed is known from what breaks there
(`Breaks.exists_completion`). The other half is here: wherever a text breaks, a
parser that comes there reports something, whatever stands behind
(`Parse.balks_of_breaks`). Its proof follows the constructors of `Breaks`. For
what is complete before the break it relies on `Parse.serves_of_derives`, and
for what comes after a report on runs going forward only.
-/

namespace Pratt

variable {σ : Type} [TokenSource σ]

/-- Something has been reported since the diagnostics were these. -/
def Reported (ds : List Diagnostic) (y : View σ) : Prop :=
  ds.length < y.diagnostics.length

namespace Reported

variable {ds : List Diagnostic} {y : View σ}

omit [TokenSource σ] in
/-- A diagnostic is one more than there were. -/
theorem report {token : Token} {cause : Cause} (hds : y.diagnostics = ds) :
    Reported ds (y.report token cause) := by
  rw [Reported, View.diagnostics_report, hds, List.length_append]
  exact Nat.lt_succ_self _

/-- What has been reported stays reported. -/
theorem lasting : View.Lasting (Reported (σ := σ) ds) :=
  fun _ _ h hz => Nat.lt_of_lt_of_le h hz.2.length_le

/-- Moving on takes no diagnostic back. -/
theorem advance (h : Reported ds y) : Reported ds y.advance :=
  lasting.advance h

/-- Another diagnostic takes none back. -/
theorem again (h : Reported ds y) (token : Token) (cause : Cause) :
    Reported ds (y.report token cause) :=
  lasting.report h token cause

/-- Skipping a token takes no diagnostic back. -/
theorem skip (h : Reported ds y) (optional : Kind) : Reported ds (y.skip optional) :=
  lasting.skip h optional

/-- A run takes no diagnostic back, however it ends. -/
theorem achieves (h : Reported ds y) (g : Goal) :
    Parse.Achieves g y (fun _ z => Reported ds z) fun _ _ => True :=
  fun fuel => lasting.run h (fun _ _ _ => trivial) fuel g

/-- An expression that something was reported in may go on as it likes. -/
theorem goesOn (h : Reported ds y) (bound : Int) (v : Option Node) :
    (v = none → Reported ds y) ∧ ∀ longer, v = some longer →
      Parse.Achieves (.continuation bound longer) y (fun _ z => Reported ds z) fun _ _ => True :=
  ⟨fun _ => h, fun _ _ => h.achieves _⟩

theorem alternative (h : Reported ds y) (fuel : Nat) :
    Parse.Ensures (Parse.alternative (Parse.run fuel)) y (fun _ z => Reported ds z)
      fun e _ => e ≠ .endlessRules → True :=
  lasting.alternative h (fun _ _ _ => trivial) fuel

end Reported

namespace Parse

/-! ## Where a part breaks, the parser reports something -/

/-- Pursued from the view, the goal reports something, unless it ends in a fault. -/
abbrev Reports (g : Goal) (x : View σ) : Prop :=
  Achieves g x (fun _ y => Reported x.diagnostics y) fun _ _ => True

/-- Wherever the tokens stand and the last one comes behind, the goal of the part reports something,
unless it ends in a fault. The expressions of a list may leave the report to the list, which then
is not closed. -/
def Balks (σ : Type) [TokenSource σ] : Part → List Token → Token → Prop
  | .expression c, ts, t => ∀ (bound : Int) (x : View σ) (w : Window σ), bound < c.floor →
      x.window.Reads ts w → w.current = t → Reports (.expression bound) x
  | .items, ts, t => ∀ (x : View σ) (w : Window σ), x.window.Reads ts w → w.current = t →
      Achieves .expressions x (fun _ y => Reported x.diagnostics y ∨
        y.diagnostics = x.diagnostics ∧ y.peek.kind ≠ .rightParen) fun _ _ => True
  | .names, ts, t => ∀ (x : View σ) (w : Window σ), x.window.advance.Reads ts w →
      w.current = t → Reports .parameters x
  | .statement, ts, t => ∀ (x : View σ) (w : Window σ), x.window.Reads ts w → w.current = t →
      Reports .statement x
  | .statements closer, ts, t => ∀ (x : View σ) (w : Window σ), x.window.Reads ts w →
      w.current = t → closer = .eof ∨ closer = .rightBrace → Reports (.statements closer) x
  | .block, ts, t => ∀ (x : View σ) (w : Window σ), x.window.Reads ts w → w.current = t →
      Reports .blockStatement x

variable {x y : View σ} {w : Window σ} {t : Token} {ts us : List Token}

/-- The expression of a statement, a group or a list. -/
theorem Balks.whole (h : Balks σ (.expression .equality) ts t) (hreads : x.window.Reads ts w)
    (hw : w.current = t) : Reports (.expression 1) x :=
  h 1 x w (by decide) hreads hw

/-- What the rule for the first token of an expression reports is reported. -/
theorem Reports.start {bound : Int} {r : Rule}
    (hr : RuleTable.starting.find? x.current.kind = some r)
    (h : ∀ fuel, Ensures (applyStarting (run fuel) r) x (fun _ z => Reported x.diagnostics z)
      fun e _ => e ≠ .endlessRules → True) : Reports (.expression bound) x :=
  Achieves.start hr fun fuel => (h fuel).imp_result fun v _ hz => hz.goesOn bound v

/-- What is current where the tokens stand is the first of them, or what comes behind. -/
theorem head?_of_reads {v : Window σ} (hreads : v.Reads ts w) (hw : w.current = t) :
    v.current ∈ (ts ++ [t]).head? := by
  cases ts with
  | nil =>
    obtain rfl : v = w := hreads
    exact congrArg some hw.symm
  | cons u us => exact congrArg some hreads.1.symm

/-! ### Expressions -/

/-- A right operand breaks behind an operator that the left operand is complete before. -/
theorem Balks.rightOperand {s : Token} {c d : Stratum} {e : Ending} {l : Node}
    (hd : c.next? = some d) (left : Serves σ (.expression c e) ts l) (hs : s.kind ∈ c.operators)
    (inside : Balks σ (.expression d) us t) : Balks σ (.expression c) (ts ++ s :: us) t := by
  obtain ⟨hoperator, hlevel, hceiling, hfloor, -⟩ := Stratum.of_mem_operators hs hd
  intro bound x w hbound hreads hw
  obtain ⟨v, hts, rfl, hus⟩ := Window.reads_append.1 hreads
  have hne : v.current.kind ≠ .elseWord := fun h => absurd (h ▸ hoperator) (by decide)
  -- the left operand is complete, so the parser comes to the operator
  refine left bound x v _ _ hbound hts (by omega) (fun _ => hne) fun y hy => ?_
  have operand := inside v.current.kind.level ⟨v.advance, x.diagnostics⟩ w (by omega) hus hw
  have whole : Reports (.infixExpression l) ⟨v, x.diagnostics⟩ :=
    .of_step fun fuel => ensures_infixExpression (operand fuel)
  -- what is reported in the right operand stays reported, wherever the parser goes on
  exact .operator hy hoperator (by omega)
    (whole.imp_result fun u _ hz => hz.goesOn bound u)

/-- What breaks the operand of a prefix operator is reported for the whole. -/
theorem Balks.operand {s : Token} (hs : s.kind ∈ Kind.prefixOperators)
    (inside : Balks σ (.expression .unary) ts t) : Balks σ (.expression .unary) (s :: ts) t := by
  intro bound x w _ hreads hw
  obtain ⟨rfl, hts⟩ := hreads
  have operand := inside 6 x.advance w (by decide) hts hw
  have hr : ∀ k ∈ Kind.prefixOperators, RuleTable.starting.find? k = some .prefixExpression := by
    decide
  -- the operator gives what its operand gives
  have whole : Reports .prefixExpression x :=
    .of_step fun fuel => ensures_prefixExpression (operand fuel)
  exact .start (hr _ hs) whole

/-- A list that is not empty. -/
theorem Balks.expressionList (inside : Balks σ .items us t) (hreads : x.window.advance.Reads us w)
    (hw : w.current = t) (hne : x.peek.kind ≠ .rightParen) :
    Reports (.expressionList .rightParen) x := by
  have list := inside x.advance w hreads hw
  refine .of_step fun fuel => ensures_expressionList (fun h => absurd h hne) fun _ => ?_
  refine (list fuel).imp_result fun _ y hy => ?_
  -- either an item was reported, or the list now reports that it is not closed
  rcases hy with hy | ⟨hds, hopen⟩
  · exact ⟨fun _ => hy.advance, fun _ => hy.again _ _⟩
  · exact ⟨fun h => absurd h hopen, fun _ => .report hds⟩

/-- Arguments break behind a callee that is complete. -/
theorem Balks.arguments {p : Token} {e : Ending} {n : Node}
    (function : Serves σ (.expression .call e) ts n) (hp : p.kind = .leftParen)
    (hfirst : ∀ u ∈ (us ++ [t]).head?, u.kind ≠ .rightParen) (inside : Balks σ .items us t) :
    Balks σ (.expression .call) (ts ++ p :: us) t := by
  intro bound x w hbound hreads hw
  obtain ⟨v, hts, rfl, hus⟩ := Window.reads_append.1 hreads
  have hne := hfirst _ (head?_of_reads hus hw)
  refine function bound x v _ _ hbound hts v.current.kind.level_le_seven
    (fun _ => by rw [hp]; decide) fun y hy => ?_
  have list := inside.expressionList (x := ⟨v, x.diagnostics⟩) hus hw hne
  have whole : Reports (.callExpression n) ⟨v, x.diagnostics⟩ :=
    .of_step fun fuel => ensures_callExpression (list fuel)
  exact .call hy hp hbound (whole.imp_result fun u _ hz => hz.goesOn bound u)

/-- Where no expression starts, the operand reports it. -/
theorem Balks.noStart (ht : t.kind ∉ Kind.opening) : Balks σ (.expression .atom) [] t := by
  intro bound x w _ hreads hw
  obtain rfl : x.window = w := hreads
  subst hw
  -- none of the kinds with a rule is that of the token
  have other : ∀ {k : Kind}, k ∈ Kind.opening → x.current.kind ≠ k := fun hk h => ht (h ▸ hk)
  refine .of_step fun fuel => ensures_expression (ensures_operand (fun _ => ?_)
    (fun h => absurd h (other (by decide))) (fun h => absurd h (other (by decide))) (fun h => ?_)
    (fun h => ?_) (fun h => absurd h (other (by decide)))
    (fun h => absurd h (other (by decide))) fun h => absurd h (other (by decide)))
  · exact ⟨fun _ => .report rfl, nofun⟩
  · rcases h with h | h
    · exact absurd h (other (by decide))
    · exact absurd h (other (by decide))
  · have prefixed : ∀ k ∈ Kind.prefixOperators, k ∈ Kind.opening := by decide
    exact absurd (prefixed _ h) ht

/-- Where the text of an integer cannot be read, its rule reports it. -/
theorem Balks.notInteger (ht : t.kind = .int)
    (hread : Numeral.read t.literal.toList = .unreadable) : Balks σ (.expression .atom) [] t := by
  intro bound x w _ hreads hw
  obtain rfl : x.window = w := hreads
  subst hw
  have whole : Reports .integerLiteral x := by
    refine .of_step fun _ => ensures_integerLiteral (fun n hn => ?_) (fun _ _ _ => trivial)
      fun _ => .report rfl
    rw [hread] at hn
    cases hn
  exact .start (r := .integerLiteral) (by rw [ht]; rfl) whole

/-- A group that breaks inside is abandoned with what the inside reported. -/
theorem Balks.group {p : Token} (hp : p.kind = .leftParen)
    (inside : Balks σ (.expression .equality) ts t) : Balks σ (.expression .atom) (p :: ts) t := by
  intro bound x w _ hreads hw
  obtain ⟨rfl, hts⟩ := hreads
  have inner := inside.whole (x := x.advance) hts hw
  -- closed or not, what the inside reports is not lost
  have whole : Reports .groupedExpression x :=
    .of_step fun fuel => ensures_groupedExpression
      ((inner fuel).imp_result fun _ _ hy => ⟨fun _ => hy.advance, fun _ => hy.again _ _⟩)
  exact .start (r := .groupedExpression) (by rw [hp]; rfl) whole

/-- The expression before a token that its group, condition or list cannot go on with. -/
theorem Serves.stopped {e : Ending} {n : Node} (h : Serves σ (.expression .equality e) ts n)
    (he : e ≠ .semicolon) (hstops : e.Stops t.kind) (hreads : x.window.Reads ts w)
    (hw : w.current = t) :
    Achieves (.expression 1) x (fun v y => v = some n ∧ y.Before w x.diagnostics) Sound := by
  subst hw
  exact h.whole hreads (hstops he).1 (hstops he).2

/-- A group that is complete inside reports what stands where its parenthesis should. -/
theorem Balks.groupClosing {p : Token} {e : Ending} {n : Node} (hp : p.kind = .leftParen)
    (complete : Serves σ (.expression .equality e) ts n) (he : e ≠ .semicolon)
    (hstops : e.Stops t.kind) (ht : t.kind ≠ .rightParen) :
    Balks σ (.expression .atom) (p :: ts) t := by
  intro bound x w _ hreads hw
  obtain ⟨rfl, hts⟩ := hreads
  have inner := complete.stopped (x := x.advance) he hstops hts hw
  have whole : Reports .groupedExpression x := by
    refine .of_step fun fuel => ensures_groupedExpression ((inner fuel).imp (fun _ y hy => ?_)
      fun _ _ _ _ => trivial)
    -- the group asks for the parenthesis that is not there
    refine ⟨fun h => ?_, fun _ => .report hy.2.diagnostics⟩
    rw [hy.2.peek, hw] at h
    exact absurd h ht
  exact .start (r := .groupedExpression) (by rw [hp]; rfl) whole

/-! ### Conditionals and functions -/

/-- A conditional needs a parenthesis right behind its word. -/
theorem Balks.conditionOpening {o : Token} (ho : o.kind = .ifWord) (ht : t.kind ≠ .leftParen) :
    Balks σ (.expression .atom) [o] t := by
  intro bound x w _ hreads hw
  obtain ⟨rfl, rfl⟩ := hreads
  subst hw
  have whole : Reports .ifExpression x :=
    .of_step fun fuel => ensures_ifExpression (fun _ => .report rfl) fun h => absurd h ht
  exact .start (r := .ifExpression) (by rw [ho]; rfl) whole

/-- What the condition reports is not lost, though the rule goes on behind it for a while. -/
theorem Balks.condition {o p : Token} (ho : o.kind = .ifWord) (hp : p.kind = .leftParen)
    (inside : Balks σ (.expression .equality) ts t) :
    Balks σ (.expression .atom) (o :: p :: ts) t := by
  intro bound x w _ hreads hw
  obtain ⟨rfl, rfl, hts⟩ := hreads
  have test := inside.whole (x := x.advance.advance) hts hw
  have whole : Reports .ifExpression x := by
    refine .of_step fun fuel => ensures_ifExpression (fun h => absurd hp h) fun _ => ?_
    refine (test fuel).imp_result fun _ y hy => ?_
    -- the three ways on: another report, another report, or the block
    refine ⟨fun _ => hy.again _ _, fun _ _ => hy.advance.again _ _, fun _ _ => ?_⟩
    exact (hy.advance.advance.achieves _ fuel).imp_result
      fun _ _ hz => ⟨fun _ => hz, fun _ _ => hz.alternative fuel⟩
  exact .start (r := .ifExpression) (by rw [ho]; rfl) whole

/-- A conditional of which the condition is complete, whatever comes behind it. -/
theorem reports_ifExpression {o : Token} {e : Ending} {l : Node} (ho : x.current = o)
    (hword : o.kind = .ifWord) (hp : x.peek.kind = .leftParen)
    (condition : Serves σ (.expression .equality e) ts l) (he : e ≠ .semicolon)
    (hstops : e.Stops w.current.kind) (hreads : x.window.advance.advance.Reads ts w)
    (brace : w.current.kind = .rightParen → w.peek.kind = .leftBrace → ∀ fuel,
      Ensures (run fuel .blockStatement) ⟨w.advance, x.diagnostics⟩ (fun b z =>
        (b = none → Reported x.diagnostics z) ∧ ∀ consequence, b = some consequence →
          Ensures (alternative (run fuel)) z (fun _ u => Reported x.diagnostics u)
            fun e _ => e ≠ .endlessRules → True) fun e _ => e ≠ .endlessRules → True) {bound : Int} :
    Reports (.expression bound) x := by
  have test := condition.stopped (x := x.advance.advance) he hstops hreads rfl
  have whole : Reports .ifExpression x := by
    refine .of_step fun fuel => ensures_ifExpression (fun h => absurd hp h) fun _ => ?_
    refine (test fuel).imp (fun _ y hy => ?_) fun _ _ _ _ => trivial
    refine ⟨fun _ => .report hy.2.diagnostics, fun _ _ => .report hy.2.diagnostics,
      fun hclose hbrace => ?_⟩
    -- the test has been read as it would be in a viable conditional
    rw [hy.2.peek] at hclose
    rw [hy.2.advance] at hbrace ⊢
    exact brace hclose hbrace fuel
  exact .start (r := .ifExpression) (by rw [ho, hword]; rfl) whole

/-- A condition that is complete needs to be closed. -/
theorem Balks.conditionClosing {o p : Token} {e : Ending} {l : Node} (ho : o.kind = .ifWord)
    (hp : p.kind = .leftParen) (condition : Serves σ (.expression .equality e) ts l)
    (he : e ≠ .semicolon) (hstops : e.Stops t.kind) (ht : t.kind ≠ .rightParen) :
    Balks σ (.expression .atom) (o :: p :: ts) t := by
  intro bound x w _ hreads hw
  obtain ⟨hcurrent, rfl, hts⟩ := hreads
  subst hw
  exact reports_ifExpression hcurrent ho hp condition he hstops hts fun h => absurd h ht

/-- A closing parenthesis goes on with no expression. -/
theorem stops_rightParen (e : Ending) {p : Token} (hp : p.kind = .rightParen) :
    e.Stops p.kind := by
  rw [hp]
  exact fun _ => ⟨by decide, fun _ => by decide⟩

/-- Behind the closed condition there has to be a block. -/
theorem Balks.consequenceOpening {o p p' : Token} {e : Ending} {l : Node} (ho : o.kind = .ifWord)
    (hp : p.kind = .leftParen) (condition : Serves σ (.expression .equality e) ts l)
    (he : e ≠ .semicolon) (hp' : p'.kind = .rightParen) (ht : t.kind ≠ .leftBrace) :
    Balks σ (.expression .atom) (o :: p :: (ts ++ [p'])) t := by
  intro bound x w _ hreads hw
  obtain ⟨hcurrent, rfl, hrest⟩ := hreads
  obtain ⟨v, hts, rfl, rfl⟩ := Window.reads_append.1 hrest
  subst hw
  exact reports_ifExpression hcurrent ho hp condition he (stops_rightParen e hp') hts
    fun _ h => absurd h ht

/-- A block that breaks breaks the conditional. -/
theorem Balks.consequence {o p p' : Token} {e : Ending} {l : Node} (ho : o.kind = .ifWord)
    (hp : p.kind = .leftParen) (condition : Serves σ (.expression .equality e) ts l)
    (he : e ≠ .semicolon) (hp' : p'.kind = .rightParen) (inside : Balks σ .block us t) :
    Balks σ (.expression .atom) (o :: p :: (ts ++ p' :: us)) t := by
  intro bound x w _ hreads hw
  obtain ⟨hcurrent, rfl, hrest⟩ := hreads
  obtain ⟨v, hts, rfl, hus⟩ := Window.reads_append.1 hrest
  have block := inside ⟨v.advance, x.diagnostics⟩ w hus hw
  exact reports_ifExpression hcurrent ho hp condition he (stops_rightParen e hp') hts
    fun _ _ fuel => (block fuel).imp_result
      fun _ _ hz => ⟨fun _ => hz, fun _ _ => hz.alternative fuel⟩

/-- A conditional of which the alternative has begun. -/
theorem Balks.otherwise {o o' p p' : Token} {ts us vs : List Token} {e : Ending} {l m : Node}
    (ho : o.kind = .ifWord) (hp : p.kind = .leftParen)
    (condition : Serves σ (.expression .equality e) ts l) (hp' : p'.kind = .rightParen)
    (consequence : Serves σ .block us m) (brace : Symbol.Starts .block us)
    (ho' : o'.kind = .elseWord)
    (inside : ∀ (x : View σ) (w : Window σ), x.window.Reads vs w → w.current = t →
      x.current.kind = .leftBrace → Reports .blockStatement x) :
    Balks σ (.expression .atom) (o :: p :: (ts ++ p' :: (us ++ o' :: vs))) t := by
  intro bound x w _ hreads hw
  obtain ⟨rfl, rfl, hrest⟩ := hreads
  -- the first block ends where the `else` is, at `u`
  rw [← List.cons_append, ← List.append_assoc] at hrest
  obtain ⟨u, hus, rfl, hvs⟩ := Window.reads_append.1 hrest
  have whole : Reports .ifExpression x := by
    refine .of_step fun fuel =>
      ensures_conditional hp hus condition hp' consequence brace fun z hz => ?_
    -- without a brace the alternative reports, with one the block does
    refine ensures_alternative (fun hne => absurd (by rw [hz.peek, ho']) hne)
      (fun _ _ => .report hz.diagnostics) fun _ hbrace => ?_
    rw [hz.advance] at hbrace ⊢
    exact inside ⟨u.advance, x.diagnostics⟩ w hvs hw hbrace fuel
  exact .start (r := .ifExpression) (by rw [ho]; rfl) whole

/-- A function needs a parenthesis right behind its word. -/
theorem Balks.parametersOpening {o : Token} (ho : o.kind = .functionWord)
    (ht : t.kind ≠ .leftParen) : Balks σ (.expression .atom) [o] t := by
  intro bound x w _ hreads hw
  obtain ⟨rfl, rfl⟩ := hreads
  subst hw
  have whole : Reports .functionLiteral x :=
    .of_step fun fuel => ensures_functionLiteral (fun _ => .report rfl) fun h => absurd h ht
  exact .start (r := .functionLiteral) (by rw [ho]; rfl) whole

/-- Parameters that break break the function, which has no body then. -/
theorem Balks.parameters {o p : Token} (ho : o.kind = .functionWord) (hp : p.kind = .leftParen)
    (hfirst : ∀ u ∈ (ts ++ [t]).head?, u.kind ≠ .rightParen) (inside : Balks σ .names ts t) :
    Balks σ (.expression .atom) (o :: p :: ts) t := by
  intro bound x w _ hreads hw
  obtain ⟨rfl, rfl, hts⟩ := hreads
  -- the list is not empty, so the parser does ask for a name
  have hne := hfirst _ (head?_of_reads hts hw)
  have names := inside x.advance w hts hw
  have list : Reports .functionParameters x.advance :=
    .of_step fun fuel => ensures_functionParameters (fun h => absurd h hne) fun _ => names fuel
  have whole : Reports .functionLiteral x := by
    refine .of_step fun fuel => ensures_functionLiteral (fun h => absurd hp h) fun _ => ?_
    refine (list fuel).imp_result fun _ y hy => ?_
    exact ⟨fun _ => hy, fun _ _ _ => hy.again _ _, fun _ _ _ => hy.advance.achieves _ fuel⟩
  exact .start (r := .functionLiteral) (by rw [ho]; rfl) whole

/-- A function of which the parameters are complete. -/
theorem Balks.functionBody {o p p' : Token} {ns : List Node} (ho : o.kind = .functionWord)
    (hp : p.kind = .leftParen) (parameters : Serves σ .parameters ts ns)
    (hp' : p'.kind = .rightParen)
    (inside : ∀ (x : View σ) (w : Window σ), x.window.Reads us w → w.current = t →
      x.current.kind = .leftBrace → Reports .blockStatement x) :
    Balks σ (.expression .atom) (o :: p :: (ts ++ p' :: us)) t := by
  intro bound x w _ hreads hw
  obtain ⟨rfl, rfl, hrest⟩ := hreads
  obtain ⟨v, hts, rfl, hus⟩ := Window.reads_append.1 hrest
  have list := parameters x.advance v hts hp'
  have whole : Reports .functionLiteral x := by
    refine .of_step fun fuel => ensures_functionLiteral (fun h => absurd hp h) fun _ => ?_
    refine (list fuel).imp (fun _ y hy => ?_) fun _ _ _ _ => trivial
    obtain ⟨rfl, rfl⟩ := hy
    -- the parameters are there, so what fails is the brace or the body
    exact ⟨nofun, fun _ _ _ => .report rfl,
      fun _ _ hbrace => inside ⟨v.advance, x.diagnostics⟩ w hus hw hbrace fuel⟩
  exact .start (r := .functionLiteral) (by rw [ho]; rfl) whole

/-- Where a brace is asked for and another token comes, no block is tried. -/
theorem no_block (ht : t.kind ≠ .leftBrace) (x : View σ) (w : Window σ)
    (hreads : x.window.Reads [] w) (hw : w.current = t) (hbrace : x.current.kind = .leftBrace) :
    Reports .blockStatement x := by
  obtain rfl : x.window = w := hreads
  rw [← hw] at ht
  exact absurd hbrace ht

/-! ### Lists -/

/-- What the first item reports outlives the items behind it. -/
theorem Balks.firstItem (inside : Balks σ (.expression .equality) ts t) : Balks σ .items ts t := by
  intro x w hreads hw
  have first := inside.whole hreads hw
  refine .of_step fun fuel => ensures_expressions ((first fuel).imp_result fun _ y hy => ?_)
  exact ⟨fun _ => (hy.advance.advance.achieves _ fuel).imp_result fun _ _ hz => .inl hz,
    fun _ => .inl hy⟩

/-- A complete item with neither a comma nor a parenthesis behind it leaves the token to the
list. -/
theorem Balks.itemEnd {e : Ending} {n : Node} (complete : Serves σ (.expression .equality e) ts n)
    (he : e ≠ .semicolon) (hstops : e.Stops t.kind) (hcomma : t.kind ≠ .comma)
    (ht : t.kind ≠ .rightParen) : Balks σ .items ts t := by
  intro x w hreads hw
  have first := complete.stopped he hstops hreads hw
  refine .of_step fun fuel => ensures_expressions ((first fuel).imp (fun _ y hy => ?_)
    fun _ _ _ _ => trivial)
  have hpeek : y.peek = t := hy.2.peek.trans hw
  -- neither a comma nor the end: it is the list that reports this
  refine ⟨fun h => absurd (hpeek ▸ h) hcomma, fun _ => .inr ⟨hy.2.diagnostics, ?_⟩⟩
  rw [hpeek]
  exact ht

/-- Behind a complete item and its comma the list breaks in a later one. -/
theorem Balks.laterItem {s : Token} {e : Ending} {n : Node}
    (first : Serves σ (.expression .equality e) ts n) (hs : s.kind = .comma)
    (inside : Balks σ .items us t) : Balks σ .items (ts ++ s :: us) t := by
  intro x w hreads hw
  obtain ⟨v, hts, rfl, hus⟩ := Window.reads_append.1 hreads
  have one := first.whole hts (by rw [hs]; decide) fun _ => by rw [hs]; decide
  -- `v` is on the comma, behind a complete item
  have rest := inside ⟨v.advance, x.diagnostics⟩ w hus hw
  refine .of_step fun fuel => ensures_expressions ((one fuel).imp (fun _ y hy => ?_)
    fun _ _ _ _ => trivial)
  refine ⟨fun _ => ?_, fun hne => absurd (by rw [hy.2.peek, hs]) hne⟩
  rw [hy.2.advance]
  exact rest fuel

/-- Where a name should be, anything else is reported. -/
theorem Balks.noName (ht : t.kind ≠ .ident) : Balks σ .names [] t := by
  intro x w hreads hw
  obtain rfl : x.window.advance = w := hreads
  subst hw
  exact .of_step fun _ => ensures_parameters (fun _ => .report rfl) (fun h => absurd h ht)
    (fun h => absurd h ht) fun h => absurd h ht

/-- Behind a name there is a comma or the end of the list. -/
theorem Balks.nameEnd {i : Token} (hi : i.kind = .ident) (hcomma : t.kind ≠ .comma)
    (ht : t.kind ≠ .rightParen) : Balks σ .names [i] t := by
  intro x w hreads hw
  obtain ⟨rfl, rfl⟩ := hreads
  subst hw
  exact .of_step fun _ => ensures_parameters (fun h => absurd hi h) (fun _ h => absurd h hcomma)
    (fun _ h => absurd h ht) fun _ _ _ => .report rfl

/-- Behind a name and its comma the list breaks later on. -/
theorem Balks.laterName {i s : Token} (hi : i.kind = .ident) (hs : s.kind = .comma)
    (inside : Balks σ .names us t) : Balks σ .names (i :: s :: us) t := by
  intro x w hreads hw
  obtain ⟨rfl, rfl, hus⟩ := hreads
  have rest := inside x.advance.advance w hus hw
  exact .of_step fun fuel => ensures_parameters (fun h => absurd hi h) (fun _ _ => rest fuel)
    (fun _ h => absurd (hs.symm.trans h) (by decide)) fun _ h => absurd hs h

/-! ### Statements -/

/-- What the rule for a `let` reports is reported. -/
theorem Reports.letStatement (hx : x.current.kind = .letWord) (h : Reports .letStatement x) :
    Reports .statement x :=
  .of_step fun fuel => ensures_statement (fun _ => h fuel)
    (fun hreturn => absurd (hx.symm.trans hreturn) (by decide)) fun hne => absurd hx hne

/-- A `let` needs a name behind its word. -/
theorem Balks.noLetName {o : Token} (ho : o.kind = .letWord) (ht : t.kind ≠ .ident) :
    Balks σ .statement [o] t := by
  intro x w hreads hw
  obtain ⟨rfl, rfl⟩ := hreads
  subst hw
  have whole : Reports .letStatement x :=
    .of_step fun _ => ensures_letStatement (fun _ => .report rfl) (fun h => absurd h ht)
      fun h => absurd h ht
  exact .letStatement ho whole

/-- It needs its sign behind the name. -/
theorem Balks.noLetSign {o i : Token} (ho : o.kind = .letWord) (hi : i.kind = .ident)
    (ht : t.kind ≠ .assign) : Balks σ .statement [o, i] t := by
  intro x w hreads hw
  obtain ⟨rfl, rfl, rfl⟩ := hreads
  subst hw
  have whole : Reports .letStatement x :=
    .of_step fun _ => ensures_letStatement (fun h => absurd hi h) (fun _ _ => .report rfl)
      fun _ h => absurd h ht
  exact .letStatement ho whole

/-- What its value reports is not lost, though the statement is there. -/
theorem Balks.letValue {o i s : Token} (ho : o.kind = .letWord) (hi : i.kind = .ident)
    (hs : s.kind = .assign) (inside : Balks σ (.expression .equality) ts t) :
    Balks σ .statement (o :: i :: s :: ts) t := by
  intro x w hreads hw
  obtain ⟨rfl, rfl, rfl, hts⟩ := hreads
  have value := inside.whole (x := x.advance.advance.advance) hts hw
  have whole : Reports .letStatement x :=
    .of_step fun fuel => ensures_letStatement (fun h => absurd hi h) (fun _ h => absurd hs h)
      fun _ _ => (value fuel).imp_result fun _ _ hy => hy.skip _
  exact .letStatement ho whole

/-- What the value of a `return` reports is not lost. -/
theorem Balks.returnValue {o : Token} (ho : o.kind = .returnWord)
    (inside : Balks σ (.expression .equality) ts t) : Balks σ .statement (o :: ts) t := by
  intro x w hreads hw
  obtain ⟨rfl, hts⟩ := hreads
  have value := inside.whole (x := x.advance) hts hw
  have whole : Reports .returnStatement x :=
    .of_step fun fuel => ensures_returnStatement
      ((value fuel).imp_result fun _ _ hy => hy.skip _)
  exact .of_step fun fuel => ensures_statement (fun h => absurd (ho.symm.trans h) (by decide))
    (fun _ => whole fuel) fun _ h => absurd ho h

/-- What the expression of a statement reports is not lost, if that starts with neither of the
words. -/
theorem Balks.expressionStatement
    (hfirst : ∀ u ∈ (ts ++ [t]).head?, u.kind ≠ .letWord ∧ u.kind ≠ .returnWord)
    (inside : Balks σ (.expression .equality) ts t) : Balks σ .statement ts t := by
  intro x w hreads hw
  -- the statement is none of the other two kinds
  obtain ⟨hlet, hreturn⟩ := hfirst _ (head?_of_reads hreads hw)
  have value := inside.whole hreads hw
  have whole : Reports .expressionStatement x :=
    .of_step fun fuel => ensures_expressionStatement
      ((value fuel).imp_result fun _ _ hy => hy.skip _)
  exact .of_step fun fuel => ensures_statement (fun h => absurd h hlet)
    (fun h => absurd h hreturn) fun _ _ => whole fuel

/-- What the first statement reports outlives those behind it. -/
theorem Balks.firstStatement {closer : Kind}
    (hfirst : ∀ u ∈ (ts ++ [t]).head?, u.kind ≠ closer ∧ u.kind ≠ .eof)
    (inside : Balks σ .statement ts t) : Balks σ (.statements closer) ts t := by
  intro x w hreads hw _
  have hopen := not_or.2 (hfirst _ (head?_of_reads hreads hw))
  have first := inside x w hreads hw
  refine .of_step fun fuel => ensures_statements (fun h => absurd h hopen) fun _ => ?_
  -- a report in the first statement outlives the rest, and the recovery before it
  refine (first fuel).imp_result fun _ y hy => ⟨fun _ _ => ?_, fun _ => ?_⟩
  · exact hy.advance.achieves _ fuel
  · exact (hy.achieves _ fuel).imp_result fun _ _ hz => hz.advance.achieves _ fuel

/-- Behind a complete statement the list breaks in a later one. -/
theorem Balks.laterStatement {e : Ending} {n : Node} {closer : Kind}
    (first : Serves σ (.statement e) ts n) (hstarts : Symbol.Starts (.statement e) ts)
    (hstops : ∀ u ∈ (us ++ [t]).head?,
      e.Stops u.kind ∧ (e ≠ .semicolon → u.kind ≠ .semicolon))
    (inside : Balks σ (.statements closer) us t) : Balks σ (.statements closer) (ts ++ us) t := by
  intro x w hreads hw hcloser
  obtain ⟨v, hts, hus⟩ := Window.reads_append.1 hreads
  obtain ⟨hstops, hsemicolon⟩ := hstops _ (head?_of_reads hus hw)
  have rest := inside ⟨v, x.diagnostics⟩ w hus hw hcloser
  exact .moreStatements first hstarts hts hstops hsemicolon hcloser rest

/-- What breaks in a block is reported, whether or not the block is closed. -/
theorem Balks.block {o : Token} (inside : Balks σ (.statements .rightBrace) ts t) :
    Balks σ .block (o :: ts) t := by
  intro x w hreads hw
  have body := inside x.advance w hreads.2 hw (.inr rfl)
  exact .of_step fun fuel => ensures_blockStatement
    ((body fuel).imp_result fun _ _ hy => ⟨fun _ => hy.again _ _, fun _ => hy⟩)

/-- A block that is complete but for its brace reports the end of the input. -/
theorem Balks.blockEnd {o : Token} {ns : List Node} (complete : Serves σ .statements ts ns)
    (ht : t.kind = .eof) : Balks σ .block (o :: ts) t := by
  intro x w hreads hw
  subst hw
  -- the statements do end here, but at the end of the input, which the block reports
  have body := complete .rightBrace x.advance w hreads.2 (.inr ht) (.inr rfl)
  refine .of_step fun fuel => ensures_blockStatement ((body fuel).imp (fun _ y hy => ?_)
    fun _ _ _ _ => trivial)
  obtain ⟨rfl, rfl⟩ := hy
  exact ⟨fun _ => .report rfl, fun h => absurd ht h⟩

/-! ### All parts -/

/-- Wherever a part breaks, the parser reports something. -/
theorem balks_of_breaks {p : Part} (h : Breaks p ts t) : Balks σ p ts t := by
  -- The first token is one that the part starts with, if anything was read before the break.
  have first : ∀ {p : Part} {ts : List Token} {t : Token} {P : Token → Prop}, Breaks p ts t →
      (∀ u : Token, u.kind ∈ p.leading → P u) → (ts = [] → P t) →
      ∀ u ∈ (ts ++ [t]).head?, P u := by
    intro p ts t P h hleading hempty u hu
    cases ts with
    | nil =>
      cases hu
      exact hempty rfl
    | cons v vs =>
      cases hu
      exact hleading _ (h.mem_leading _ rfl)
  induction h with
  | loosened tighter _ ih =>
    have hrank := Stratum.rank_of_next? tighter
    exact fun bound x w hbound hreads hw =>
      ih bound x w (Int.lt_of_lt_of_le hbound (Stratum.floor_mono (by omega))) hreads hw
  | rightOperand tighter left operator _ ih =>
    exact .rightOperand tighter (serves_of_derives left) operator ih
  | operand operator _ ih => exact .operand operator ih
  | arguments function opening some inside ih =>
    have table : ∀ k ∈ Kind.opening, k ≠ .rightParen := by decide
    exact .arguments (serves_of_derives function) opening
      (first inside (fun u hu => table _ hu) some) ih
  | noStart other => exact .noStart other
  | notInteger number unreadable => exact .notInteger number unreadable
  | group opening _ ih => exact .group opening ih
  | groupClosing opening complete stops other =>
    exact .groupClosing opening (serves_of_derives complete) (complete.ending_ne_semicolon rfl)
      stops other
  | conditionOpening word other => exact .conditionOpening word other
  | condition word opening _ ih => exact .condition word opening ih
  | conditionClosing word opening complete stops other =>
    exact .conditionClosing word opening (serves_of_derives complete)
      (complete.ending_ne_semicolon rfl) stops other
  | consequenceOpening word opening condition closing other =>
    exact .consequenceOpening word opening (serves_of_derives condition)
      (condition.ending_ne_semicolon rfl) closing other
  | consequence word opening condition closing _ ih =>
    exact .consequence word opening (serves_of_derives condition)
      (condition.ending_ne_semicolon rfl) closing ih
  | alternativeOpening word opening condition closing consequence otherwise other =>
    exact .otherwise word opening (serves_of_derives condition) closing
      (serves_of_derives consequence) consequence.starts otherwise (no_block other)
  | alternative word opening condition closing consequence otherwise _ ih =>
    exact .otherwise word opening (serves_of_derives condition) closing
      (serves_of_derives consequence) consequence.starts otherwise
      fun x w hreads hw _ => ih x w hreads hw
  | parametersOpening word other => exact .parametersOpening word other
  | parameters word opening some inside ih =>
    have table : ∀ k ∈ [Kind.ident], k ≠ .rightParen := by decide
    exact .parameters word opening (first inside (fun u hu => table _ hu) some) ih
  | bodyOpening word opening parameters closing other =>
    exact .functionBody word opening (serves_of_derives parameters) closing (no_block other)
  | body word opening parameters closing _ ih =>
    exact .functionBody word opening (serves_of_derives parameters) closing
      fun x w hreads hw _ => ih x w hreads hw
  | firstItem _ ih => exact .firstItem ih
  | itemEnd complete stops noComma other =>
    exact .itemEnd (serves_of_derives complete) (complete.ending_ne_semicolon rfl) stops noComma
      other
  | laterItem first comma _ ih => exact .laterItem (serves_of_derives first) comma ih
  | noName other => exact .noName other
  | nameEnd name noComma other => exact .nameEnd name noComma other
  | laterName name comma _ ih => exact .laterName name comma ih
  | noLetName word other => exact .noLetName word other
  | noLetSign word name other => exact .noLetSign word name other
  | letValue word name sign _ ih => exact .letValue word name sign ih
  | returnValue word _ ih => exact .returnValue word ih
  | expressionStatement other inside ih =>
    have table : ∀ k ∈ Kind.opening, k ≠ .letWord ∧ k ≠ .returnWord := by decide
    exact .expressionStatement (first inside (fun u hu => table _ hu) other) ih
  | @firstStatement t ts closer more inside ih =>
    intro x w hreads hw hcloser
    refine Balks.firstStatement (first inside (fun u hu => ?_) more) ih x w hreads hw hcloser
    exact not_or.1 (Kind.not_closed_of_mem_leading hu hcloser)
  | laterStatement first stops _ ih =>
    exact .laterStatement (serves_of_derives first) first.starts stops ih
  | block _ _ ih => exact .block ih
  | blockEnd _ complete other => exact .blockEnd (serves_of_derives complete) other

end Parse

/-- A source that reads what a text breaks after and then the token it breaks at is not parsed
without a diagnostic. -/
theorem diagnostics_ne_nil_of_breaks [LawfulTokenSource σ] {source : σ} {w : Window σ}
    {ts : List Token} {t : Token} (h : Breaks (.statements .eof) ts t)
    (hreads : (View.start source).window.Reads ts w) (hw : w.current = t) {tracing : Bool}
    {tree : Node} {s : State σ} (hrun : parseProgram source tracing = (.ok tree, s)) :
    s.diagnostics ≠ [] := by
  have reports := Parse.balks_of_breaks h (View.start source) w hreads hw (.inl rfl)
  have achieves : Parse.Achieves .program (View.start source)
      (fun _ y => Reported [] y) fun _ _ => True :=
    .of_step fun fuel => Parse.ensures_program (reports fuel)
  exact List.ne_nil_of_length_pos (Parse.of_parseProgram achieves hrun)

/-! ## Viable lists -/

/-- The tokens are parsed without a diagnostic. -/
def Faultless (ts : List Token) : Prop :=
  (∀ t ∈ ts, t.kind ≠ .eof) ∧
    ∃ tree s, parseProgram ts false = (.ok tree, s) ∧ s.diagnostics = []

/-- Some tokens behind these make a list that is parsed without a diagnostic. -/
def Viable (ts : List Token) : Prop :=
  ∃ us, Faultless (ts ++ us)

/-- What a viable list starts with is viable. -/
theorem Viable.of_append {ts : List Token} (us : List Token) (h : Viable (ts ++ us)) : Viable ts := by
  obtain ⟨vs, hvs⟩ := h
  rw [List.append_assoc] at hvs
  exact ⟨us ++ vs, hvs⟩

/-- The tokens of a program of the grammar are parsed without a diagnostic. -/
theorem faultless_of_derives {ts : List Token} {tree : Node} (h : Derives .program ts tree) :
    Faultless ts := by
  obtain ⟨s, hrun, hs, -⟩ := parseProgram_of_reads h (View.reads_start ts) rfl false
  exact ⟨h.ne_eof, tree, s, hrun, hs⟩

/-- What is read when a text breaks is viable. -/
theorem viable_of_breaks {ts : List Token} {t : Token} (h : Breaks (.statements .eof) ts t) :
    Viable ts := by
  -- a completion is a program, and programs are accepted
  obtain ⟨us, ⟨ns, hns⟩, -⟩ := h.exists_completion
  exact ⟨us, faultless_of_derives (.program hns)⟩

/-- With the token that it breaks at it is not. -/
theorem not_viable_of_breaks {ts : List Token} {t : Token} (h : Breaks (.statements .eof) ts t) :
    ¬Viable (ts ++ [t]) := by
  rintro ⟨us, -, tree, s, hrun, hs⟩
  -- what a completion puts behind the token makes no difference
  have hreads : (View.start (ts ++ [t] ++ us)).window.Reads ts (.ofList (t :: us)) := by
    rw [View.start_ofList, List.append_assoc]
    exact Window.reads_ofList ts (t :: us)
  exact diagnostics_ne_nil_of_breaks h hreads (Window.current_ofList (t :: us)) hrun hs

/-- Of a list of tokens that something is wrong with, the first diagnostic is at the token behind
the longest viable prefix, or at the end of the input if the whole list is viable. -/
theorem first_diagnostic_behind_viable {ts : List Token} {tracing : Bool}
    {r : Except Fault Node} {s : State (List Token)} {d : Diagnostic} {ds : List Diagnostic}
    (hts : ∀ t ∈ ts, t.kind ≠ .eof)
    (hshort : ∀ t ∈ ts, t.kind = .int → Numeral.isNumeral t.literal.toList = true →
      t.literal.toList.length ≤ Numeral.mostDigits)
    (hrun : parseProgram ts tracing = (r, s)) (hs : s.diagnostics = d :: ds) :
    ∃ k ≤ ts.length, d.token = ts.getD k .endOfInput ∧ Viable (ts.take k) ∧
      ∀ j ≤ ts.length, Viable (ts.take j) → j ≤ k := by
  have hread : ∀ t ∈ ts, t.kind = .int → ∀ digits,
      Numeral.read t.literal.toList ≠ .oversized digits := by
    intro t ht hk digits hdigits
    obtain ⟨numeral, long, -⟩ := Numeral.read_eq_oversized_iff.1 hdigits
    exact absurd (hshort t ht hk numeral) (Nat.not_le.2 long)
  -- no literal is too long, so the parse does not end in a fault
  obtain ⟨tree, s', hrun'⟩ := exists_tree_of_parseProgram hread tracing
  cases hrun.symm.trans hrun'
  have hds : s.view.diagnostics = d :: ds := hs
  rcases outcome_of_parseProgram hrun with
    ⟨us, w, -, hview, -, -⟩ | ⟨d', ds', us, w, hds', hus, htoken, hbreaks⟩
  -- a program is parsed without a diagnostic, and there is one
  · rw [hview] at hds
    cases hds
  · cases hds.symm.trans hds'
    have hviable := viable_of_breaks hbreaks
    -- what was read up to the break holds no end of the input, so it is the start of the list
    have hne : ∀ t ∈ us, t.kind ≠ .eof := by
      obtain ⟨vs, hvs, -⟩ := hviable
      exact fun t ht => hvs t (List.mem_append_left vs ht)
    rw [View.start_ofList] at hus
    obtain ⟨rest, rfl, rfl⟩ := Window.exists_append_of_reads_ofList hus hne
    rw [Window.current_ofList] at htoken
    refine ⟨us.length, by simp, ?_, by simpa using hviable, fun j hj hprefix => ?_⟩
    · rw [← htoken]
      cases rest <;> simp
    · -- A longer viable prefix would have the token in it that the text breaks at.
      refine Nat.le_of_not_lt fun hlong => ?_
      cases rest with
      | nil =>
        rw [List.append_nil] at hj
        omega
      | cons t rest =>
        obtain rfl : t = d.token := htoken
        obtain ⟨i, rfl⟩ : ∃ i, j = us.length + (i + 1) := ⟨j - us.length - 1, by omega⟩
        rw [List.take_length_add_append, List.take_succ_cons] at hprefix
        refine not_viable_of_breaks hbreaks (.of_append (rest.take i) ?_)
        simpa using hprefix

/-- Of a `let` without a name, the first diagnostic is at what stands in the place of the name. -/
theorem first_diagnostic_of_namelessLet :
    let word := Token.unplaced .letWord "let"
    let sign := Token.unplaced .assign "="
    let tokens := [word, sign, .unplaced .ident "a"]
    ∃ k ≤ tokens.length, sign = tokens.getD k .endOfInput ∧ Viable (tokens.take k) ∧
      ∀ j ≤ tokens.length, Viable (tokens.take j) → j ≤ k := by
  intro word sign tokens
  have hrun : parseProgram tokens false = (_, (parseProgram tokens false).2) := Prod.ext rfl rfl
  have hds : (parseProgram tokens false).2.diagnostics = [⟨sign, .expected .ident⟩] := rfl
  exact first_diagnostic_behind_viable (by decide) (by decide) hrun hds

end Pratt
