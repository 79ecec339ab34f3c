import Pratt.Proofs.Fuel
import Pratt.Proofs.Levels

/-!
# Pratt — every program of the grammar is accepted

The grammar is left-recursive and has one stratum for each level of operators.
The parser knows nothing of strata: it reads an operand and then goes on, again
and again, with whatever binds tighter than its bound. What makes the two agree
is the statement that is proved of an expression (`Parse.Serves`): wherever going
on from the tree of the expression leads to, reading the expression leads to as
well. In this form the left operand of an operator can be taken apart further,
since to go on from it with the operator is to go on from it.

What an expression may not have right behind it is a token that would go on with
it. For the stratum `c` that is one of a level above `c.ceiling`, and for one that
ends in a conditional without an alternative it is also an `else`.

Main results:

* `Derives.starts`: how the tokens of a symbol start, which is what the parser
  decides by.
* `Parse.serves_of_derives`: by induction on a derivation, with one lemma named
  after each production, that the parser does what the grammar says.
* `parseProgram_of_derives`: every program of the grammar is parsed to the tree of
  its derivation without a diagnostic, up to its end.
-/

namespace Pratt

/-! ## How the tokens of a symbol start -/

/-- The kinds of the tokens that start a statement. -/
def Kind.leading : List Kind := .letWord :: .returnWord :: Kind.opening

/-- Statements do not end where one starts. -/
theorem Kind.not_closed_of_mem_leading {k closer : Kind} (hk : k ∈ Kind.leading)
    (hcloser : closer = .eof ∨ closer = .rightBrace) : ¬(k = closer ∨ k = .eof) := by
  have table : ∀ k ∈ Kind.leading, k ≠ .eof ∧ k ≠ .rightBrace := by decide
  obtain ⟨heof, hbrace⟩ := table k hk
  rcases hcloser with rfl | rfl
  · exact not_or.2 ⟨heof, heof⟩
  · exact not_or.2 ⟨hbrace, heof⟩

/-- The kinds of the tokens that are taken as a part of the statement before them, or of an expression
in it, unless that statement is closed. -/
def Kind.joining : List Kind :=
  [.semicolon, .elseWord, .leftParen, .equal, .notEqual, .less, .greater, .plus, .minus, .asterisk,
   .slash]

/-- What does not join two parts of an expression is at the lowest level. -/
theorem Kind.level_of_notMem_joining {k : Kind} (hk : k ∉ Kind.joining) : k.level = 1 := by
  have table : ∀ k ∈ Kind.binding, k ∈ Kind.joining := by decide
  exact Kind.level_of_notMem_binding (mt (table k) hk)

/-- Of the tokens that start a statement only two can be a part of the one before. -/
theorem Kind.notMem_joining_of_mem_leading {k : Kind} (hk : k ∈ Kind.leading) (hminus : k ≠ .minus)
    (hparen : k ≠ .leftParen) : k ∉ Kind.joining := by
  have table : ∀ k ∈ Kind.leading, k ≠ .minus → k ≠ .leftParen → k ∉ Kind.joining := by decide
  exact table k hk hminus hparen

/-- How the tokens of a symbol start. -/
def Symbol.Starts : Symbol → List Token → Prop
  | .expression _ _, ts | .items, ts => ∃ t us, ts = t :: us ∧ t.kind ∈ Kind.opening
  | .statement _, ts => ∃ t us, ts = t :: us ∧ t.kind ∈ Kind.leading
  | .names, ts => ∃ t us, ts = t :: us ∧ t.kind = .ident
  | .block, ts => ∃ t us, ts = t :: us ∧ t.kind = .leftBrace
  | .program, ts | .statements, ts => ∀ t ∈ ts.head?, t.kind ∈ Kind.leading
  | .arguments, _ | .parameters, _ => True

/-- The tokens of each symbol start as the rule for it expects, by induction on the derivation. -/
theorem Derives.starts {a : Symbol} {ts : List Token} {tree : a.Tree} (h : Derives a ts tree) :
    a.Starts ts := by
  have prefixed : ∀ k ∈ Kind.prefixOperators, k ∈ Kind.opening := by decide
  induction h with
  | program _ ih => exact ih
  | noStatements => exact fun t ht => nomatch ht
  | moreStatements _ _ _ ih _ =>
    obtain ⟨t, us, rfl, hk⟩ := ih
    intro u hu
    cases hu
    exact hk
  | noArguments | someArguments | noParameters | someParameters => trivial
  | letStatement word => exact ⟨_, _, rfl, by rw [word]; decide⟩
  | returnStatement word => exact ⟨_, _, rfl, by rw [word]; decide⟩
  | expressionStatement _ ih =>
    obtain ⟨t, us, hts, hk⟩ := ih
    exact ⟨t, us, hts, List.mem_cons_of_mem _ (List.mem_cons_of_mem _ hk)⟩
  | closedStatement _ _ _ ih =>
    obtain ⟨t, us, rfl, hk⟩ := ih
    exact ⟨t, _, rfl, hk⟩
  | block opening => exact ⟨_, _, rfl, opening⟩
  | loosened _ _ ih => exact ih
  -- a left-recursive production starts as its left operand does
  | infixExpression _ _ _ _ ih _ =>
    obtain ⟨t, us, rfl, hk⟩ := ih
    exact ⟨t, _, rfl, hk⟩
  | prefixExpression operator => exact ⟨_, _, rfl, prefixed _ operator⟩
  | callExpression _ _ _ _ ih _ =>
    obtain ⟨t, us, rfl, hk⟩ := ih
    exact ⟨t, _, rfl, hk⟩
  | identifier name => exact ⟨_, _, rfl, by rw [name]; decide⟩
  | integerLiteral number => exact ⟨_, _, rfl, by rw [number]; decide⟩
  | trueWord word => exact ⟨_, _, rfl, by rw [word]; decide⟩
  | falseWord word => exact ⟨_, _, rfl, by rw [word]; decide⟩
  | group opening => exact ⟨_, _, rfl, by rw [opening]; decide⟩
  | conditional word => exact ⟨_, _, rfl, by rw [word]; decide⟩
  | alternative word => exact ⟨_, _, rfl, by rw [word]; decide⟩
  | functionLiteral word => exact ⟨_, _, rfl, by rw [word]; decide⟩
  | oneItem _ ih => exact ih
  | moreItems _ _ _ ih _ =>
    obtain ⟨t, us, rfl, hk⟩ := ih
    exact ⟨t, _, rfl, hk⟩
  | oneName name => exact ⟨_, _, rfl, name⟩
  | moreNames name => exact ⟨_, _, rfl, name⟩

/-- An expression does not end with a semicolon; that belongs to its statement. -/
theorem Derives.ending_ne_semicolon {a : Symbol} {c : Stratum} {e : Ending} {ts : List Token}
    {tree : a.Tree} (h : Derives a ts tree) (ha : a = .expression c e) : e ≠ .semicolon := by
  induction h generalizing c with
  | loosened _ _ ih =>
    cases ha
    exact ih rfl
  | infixExpression _ _ _ _ _ ih =>
    cases ha
    exact ih rfl
  | prefixExpression _ _ ih =>
    cases ha
    exact ih rfl
  | _ => cases ha <;> decide

/-! ## Where a goal leaves the window -/

variable {σ : Type} [TokenSource σ]

/-- The window moved on over a token of the given kind, if it is on one. -/
def Window.skip (w : Window σ) (optional : Kind) : Window σ :=
  if w.current.kind = optional then w.advance else w

/-- The view is on the last token before a window, and has the given diagnostics. -/
structure View.Before (y : View σ) (w : Window σ) (ds : List Diagnostic) : Prop where
  window : y.window.advance = w
  diagnostics : y.diagnostics = ds

namespace View.Before

variable {y : View σ} {w : Window σ} {ds : List Diagnostic}

/-- The next token is the current one of the window behind. -/
theorem peek (h : y.Before w ds) : y.peek = w.current :=
  congrArg Window.current h.window

/-- Moved on, the view has that window. -/
theorem advance (h : y.Before w ds) : y.advance = ⟨w, ds⟩ := by
  rw [View.advance, h.window, h.diagnostics]

/-- Whether or not the next token is skipped, the view stays right in front of what is left. -/
theorem skip (h : y.Before w ds) (optional : Kind) :
    (y.skip optional).Before (w.skip optional) ds := by
  by_cases hk : w.current.kind = optional
  · rw [View.skip_of_eq (by rw [h.peek, hk]), Window.skip, if_pos hk, h.advance]
    exact ⟨rfl, rfl⟩
  · rw [View.skip_of_ne (by rw [h.peek]; exact hk), Window.skip, if_neg hk]
    exact h

end View.Before

/-- A token of the kind `k` right behind does not go on with what ends so, neither with its
expression nor, by being its `else`, with a conditional in it. A closed statement goes on with
nothing. -/
def Ending.Stops (e : Ending) (k : Kind) : Prop :=
  e ≠ .semicolon → k.level ≤ 1 ∧ (e = .conditional → k ≠ .elseWord)

/-- What is no part of any statement before it is no part of one that ends so, and neither is it its
semicolon. -/
theorem Ending.stops_of_notMem_joining {e : Ending} {k : Kind}
    (h : e ≠ .semicolon → k ∉ Kind.joining) : e.Stops k ∧ (e ≠ .semicolon → k ≠ .semicolon) := by
  have parts : ∀ k ∈ [Kind.semicolon, .elseWord], k ∈ Kind.joining := by decide
  refine ⟨fun he => ⟨?_, fun _ helse => ?_⟩, fun he hclosed => ?_⟩
  · exact Int.le_of_eq (Kind.level_of_notMem_joining (h he))
  · exact h he (parts k (by simp [helse]))
  · exact h he (parts k (by simp [hclosed]))

/-- The window behind a statement that ends so, and behind its semicolon if it gets one. -/
def Ending.behind (e : Ending) (w : Window σ) : Window σ :=
  if e = .semicolon then w else w.skip .semicolon

/-- No fault. -/
abbrev Sound : Fault → View σ → Prop := fun _ _ => False

namespace Parse

/-- The parser does what the grammar says for the tokens: where they stand, and what comes behind
does not go on with them, the goal of the symbol gives their tree, without a diagnostic, and leaves
the window at their end.

For an expression this is put in terms of what comes next. Wherever going on from its tree leads
to, there leads the expression as well. -/
def Serves (σ : Type) [TokenSource σ] : (a : Symbol) → List Token → a.Tree → Prop
  | .program, ts, tree => ∀ (x : View σ) (w : Window σ), x.window.Reads ts w →
      w.current.kind = .eof →
      Achieves .program x (fun v y => v = tree ∧ y = ⟨w, x.diagnostics⟩) Sound
  | .statements, ts, ns => ∀ (closer : Kind) (x : View σ) (w : Window σ), x.window.Reads ts w →
      w.current.kind = closer ∨ w.current.kind = .eof → closer = .eof ∨ closer = .rightBrace →
      Achieves (.statements closer) x (fun v y => v = ns ∧ y = ⟨w, x.diagnostics⟩) Sound
  | .statement e, ts, n => ∀ (x : View σ) (w : Window σ), x.window.Reads ts w →
      e.Stops w.current.kind →
      Achieves .statement x (fun v y => v = some n ∧ y.Before (e.behind w) x.diagnostics) Sound
  | .block, ts, n => ∀ (x : View σ) (w : Window σ), x.window.Reads ts w →
      Achieves .blockStatement x (fun v y => v = some n ∧ y.Before w x.diagnostics) Sound
  | .expression c e, ts, n => ∀ (bound : Int) (x : View σ) (w : Window σ)
      (Q : Option Node → View σ → Prop) (E : Fault → View σ → Prop), bound < c.floor →
      x.window.Reads ts w → w.current.kind.level ≤ c.ceiling →
      (e = .conditional → w.current.kind ≠ .elseWord) →
      (∀ y, y.Before w x.diagnostics → Achieves (.continuation bound n) y Q E) →
      Achieves (.expression bound) x Q E
  | .arguments, ts, ns => ∀ (x : View σ) (w : Window σ), x.window.advance.Reads ts w →
      w.current.kind = .rightParen →
      Achieves (.expressionList .rightParen) x
        (fun v y => v = some ns ∧ y = ⟨w, x.diagnostics⟩) Sound
  | .items, ts, ns => ∀ (x : View σ) (w : Window σ), x.window.Reads ts w →
      w.current.kind = .rightParen →
      Achieves .expressions x (fun v y => v = ns.map some ∧ y.Before w x.diagnostics) Sound
  | .parameters, ts, ns => ∀ (x : View σ) (w : Window σ), x.window.advance.Reads ts w →
      w.current.kind = .rightParen →
      Achieves .functionParameters x (fun v y => v = some ns ∧ y = ⟨w, x.diagnostics⟩) Sound
  | .names, ts, ns => ∀ (x : View σ) (w : Window σ), x.window.advance.Reads ts w →
      w.current.kind = .rightParen →
      Achieves .parameters x (fun v y => v = some ns ∧ y = ⟨w, x.diagnostics⟩) Sound

variable {x y : View σ} {w : Window σ} {E : Fault → View σ → Prop}

/-- Nothing goes on with an expression before a token of a low level. -/
theorem Achieves.done {bound : Int} {n : Node} {Q : Option Node → View σ → Prop}
    (hlevel : y.peek.kind.level ≤ bound) (hQ : Q (some n) y) :
    Achieves (.continuation bound n) y Q E :=
  Achieves.of_step fun _ => ensures_continuation (fun _ => hQ)
    (fun _ hlt => absurd hlevel (Int.not_le.2 hlt))
    fun _ hlt => absurd hlevel (Int.not_le.2 hlt)

/-- An expression before a token that does not go on with it. -/
theorem Serves.value {c : Stratum} {e : Ending} {ts : List Token} {n : Node}
    (h : Serves σ (.expression c e) ts n) (bound : Int) (hbound : bound < c.floor)
    (hreads : x.window.Reads ts w) (hlevel : w.current.kind.level ≤ bound)
    (hceiling : bound ≤ c.ceiling) (helse : e = .conditional → w.current.kind ≠ .elseWord) :
    Achieves (.expression bound) x (fun v y => v = some n ∧ y.Before w x.diagnostics) Sound :=
  h bound x w _ _ hbound hreads (Int.le_trans hlevel hceiling) helse fun y hy =>
    .done (by rw [hy.peek]; exact hlevel) ⟨rfl, hy⟩

/-- The expression of a statement, a group or a list. -/
theorem Serves.whole {e : Ending} {ts : List Token} {n : Node}
    (h : Serves σ (.expression .equality e) ts n) (hreads : x.window.Reads ts w)
    (hlevel : w.current.kind.level ≤ 1)
    (helse : e = .conditional → w.current.kind ≠ .elseWord) :
    Achieves (.expression 1) x (fun v y => v = some n ∧ y.Before w x.diagnostics) Sound :=
  h.value 1 (by decide) hreads hlevel (by decide) helse

/-! ## Operators and calls -/

/-- An operator above the bound goes on with an expression. -/
theorem Achieves.operator {bound : Int} {left : Node} {ds : List Diagnostic}
    {Q : Option Node → View σ → Prop} (hy : y.Before w ds)
    (hk : w.current.kind ∈ Kind.infixOperators) (hbound : bound < w.current.kind.level)
    (h : Achieves (.infixExpression left) ⟨w, ds⟩
      (fun v z => (v = none → Q none z) ∧
        ∀ longer, v = some longer → Achieves (.continuation bound longer) z Q E) E) :
    Achieves (.continuation bound left) y Q E := by
  -- an operator binds tighter than the loosest bound, so it is not passed over
  have hone : 1 < w.current.kind.level := by
    obtain ⟨c, d, hc, hd⟩ := Kind.exists_mem_operators hk
    rw [(Stratum.of_mem_operators hc hd).2.1]
    exact c.one_lt_floor
  -- the window is on the operator once the view moves on
  rw [← hy.advance] at h
  rw [← hy.peek] at hk hbound hone
  refine .of_step fun fuel => ensures_continuation (fun hdone => ?_) (fun _ _ => ?_) fun hcall _ => ?_
  · exact absurd hdone (Kind.not_done hone hbound)
  · exact (h fuel).imp_result fun _ _ hv => ⟨hv.1, fun longer hl => hv.2 longer hl fuel⟩
  · rw [hcall] at hk
    exact absurd hk (by decide)

/-- An opening parenthesis goes on with an expression. -/
theorem Achieves.call {bound : Int} {left : Node} {ds : List Diagnostic}
    {Q : Option Node → View σ → Prop} (hy : y.Before w ds)
    (hk : w.current.kind = .leftParen) (hbound : bound < 7)
    (h : Achieves (.callExpression left) ⟨w, ds⟩
      (fun v z => (v = none → Q none z) ∧
        ∀ longer, v = some longer → Achieves (.continuation bound longer) z Q E) E) :
    Achieves (.continuation bound left) y Q E := by
  -- the parenthesis is ahead: it ends nothing at this bound, and is no operator
  rw [← hy.advance] at h
  rw [← hy.peek] at hk
  refine .of_step fun fuel => ensures_continuation (fun hdone => ?_) (fun hoperator _ => ?_)
    fun _ _ => ?_
  · rw [hk] at hdone
    exact absurd hdone (Kind.not_done (by decide) hbound)
  · rw [hk] at hoperator
    exact absurd hoperator (by decide)
  · exact (h fuel).imp_result fun _ _ hv => ⟨hv.1, fun longer hl => hv.2 longer hl fuel⟩

/-- What is known of going on from one tree is known of going on from a result that is this tree. -/
theorem goesOn_of_eq_some {bound : Int} {n : Node} {ds : List Diagnostic}
    {Q : Option Node → View σ → Prop}
    (h : ∀ y, y.Before w ds → Achieves (.continuation bound n) y Q E) (v : Option Node) (z : View σ)
    (hz : v = some n ∧ z.Before w ds) :
    (v = none → Q none z) ∧
      ∀ longer, v = some longer → Achieves (.continuation bound longer) z Q E := by
  obtain ⟨rfl, hz⟩ := hz
  refine ⟨fun hnone => absurd hnone (Option.some_ne_none n), fun longer hlonger => ?_⟩
  cases hlonger
  exact h z hz

/-- The loop comes to the operator with the left operand in hand, since the stratum of that keeps no
operator of this one out, and then reads the right operand with the level of the operator as the
bound. -/
theorem Serves.infixExpression {c d : Stratum} {e e' : Ending} {s : Token} {ts us : List Token}
    {l r : Node} (hd : c.next? = some d) (left : Serves σ (.expression c e) ts l)
    (hs : s.kind ∈ c.operators) (right : Serves σ (.expression d e') us r) :
    Serves σ (.expression c e') (ts ++ s :: us) (.infixExpression s l s.literal r) := by
  obtain ⟨hoperator, hlevel, hceiling, hfloor, -⟩ := Stratum.of_mem_operators hs hd
  intro bound x w Q E hbound hreads hw helse goesOn
  -- `v` is the window on the operator
  obtain ⟨v, hts, rfl, hus⟩ := Window.reads_append.1 hreads
  -- the left operand stops before the operator, which is no `else`
  have hne : v.current.kind ≠ .elseWord := fun h => absurd (h ▸ hoperator) (by decide)
  refine left bound x v Q E hbound hts (by omega) (fun _ => hne) fun y hy => ?_
  -- The right operand ends where the whole does.
  have hranks : c.ceiling ≤ d.ceiling :=
    Stratum.ceiling_mono (by rw [Stratum.rank_of_next? hd]; omega)
  -- it is read with the level of the operator as its bound, so it does not take another one
  have operand := right.value (x := ⟨v.advance, x.diagnostics⟩) v.current.kind.level (by omega) hus
    (by omega) (by omega) helse
  have whole : Achieves (.infixExpression l) ⟨v, x.diagnostics⟩ (fun u z =>
      u = some (.infixExpression v.current l v.current.literal r) ∧ z.Before w x.diagnostics)
      Sound :=
    .of_step fun fuel => ensures_infixExpression
      ((operand fuel).imp_result fun _ _ hz => ⟨by rw [hz.1]; rfl, hz.2⟩)
  exact .operator hy hoperator (by omega) (whole.imp (goesOn_of_eq_some goesOn) fun _ _ h => h.elim)

/-- A call is what a callee goes on with, whatever the bound is. -/
theorem Serves.callExpression {e : Ending} {p p' : Token} {ts us : List Token} {n : Node}
    {ns : List Node} (function : Serves σ (.expression .call e) ts n) (hp : p.kind = .leftParen)
    (arguments : Serves σ .arguments us ns) (hp' : p'.kind = .rightParen) :
    Serves σ (.expression .call .other) (ts ++ p :: (us ++ [p']))
      (.callExpression p n (ns.map some)) := by
  intro bound x w Q E hbound hreads _ _ goesOn
  -- `v` is on the opening parenthesis, `u` on the closing one
  obtain ⟨v, hts, rfl, hrest⟩ := Window.reads_append.1 hreads
  obtain ⟨u, hus, rfl, rfl⟩ := Window.reads_append.1 hrest
  -- a call goes on with whatever it is that it calls
  refine function bound x v Q E hbound hts v.current.kind.level_le_seven
    (fun _ => by rw [hp]; decide) fun y hy => ?_
  have list := arguments ⟨v, x.diagnostics⟩ u hus hp'
  have whole : Achieves (.callExpression n) ⟨v, x.diagnostics⟩ (fun r z =>
      r = some (.callExpression v.current n (ns.map some)) ∧ z.Before u.advance x.diagnostics)
      Sound := by
    refine .of_step fun fuel => ensures_callExpression ((list fuel).imp_result fun _ _ hz => ?_)
    obtain ⟨rfl, rfl⟩ := hz
    exact ⟨rfl, rfl, rfl⟩
  exact .call hy hp hbound (whole.imp (goesOn_of_eq_some goesOn) fun _ _ h => h.elim)

/-! ## Operands -/

/-- An expression starts with what the rule for its first token gives, and goes on from there. -/
theorem Achieves.start {bound : Int} {r : Rule} {Q : Option Node → View σ → Prop}
    (hr : RuleTable.starting.find? x.current.kind = some r)
    (h : ∀ fuel, Ensures (applyStarting (run fuel) r) x
      (fun v z => (v = none → Q none z) ∧
        ∀ left, v = some left → Achieves (.continuation bound left) z Q E)
      fun e z => e ≠ .endlessRules → E e z) :
    Achieves (.expression bound) x Q E :=
  .of_step fun fuel => ensures_expression (ensures_operand_of_find? hr
    ((h fuel).imp_result fun _ _ hv => ⟨hv.1, fun left hl => hv.2 left hl fuel⟩))

/-- What the rule for the first token gives with certainty. -/
theorem Achieves.start_some {bound : Int} {r : Rule} {n : Node} {Q : Option Node → View σ → Prop}
    (hr : RuleTable.starting.find? x.current.kind = some r)
    (h : ∀ fuel, Ensures (applyStarting (run fuel) r) x
      (fun v z => v = some n ∧ z.Before w x.diagnostics) fun e _ => e ≠ .endlessRules → False)
    (goesOn : ∀ y, y.Before w x.diagnostics → Achieves (.continuation bound n) y Q E) :
    Achieves (.expression bound) x Q E :=
  .start hr fun fuel => (h fuel).imp (goesOn_of_eq_some goesOn) fun _ _ he hne => (he hne).elim

/-- The rule of a prefix operator reads its operand with a bound that only a call passes. -/
theorem Serves.prefixExpression {e : Ending} {s : Token} {ts : List Token} {r : Node}
    (hs : s.kind ∈ Kind.prefixOperators) (right : Serves σ (.expression .unary e) ts r) :
    Serves σ (.expression .unary e) (s :: ts) (.prefixExpression s s.literal r) := by
  intro bound x w Q E hbound hreads hw helse goesOn
  obtain ⟨rfl, hts⟩ := hreads
  have operand := right.value (x := x.advance) 6 (by decide) hts hw (by decide) helse
  -- both prefix operators are at the same rule
  have hr : ∀ k ∈ Kind.prefixOperators, RuleTable.starting.find? k = some .prefixExpression := by
    decide
  have whole : Achieves .prefixExpression x (fun v z =>
      v = some (.prefixExpression x.current x.current.literal r) ∧ z.Before w x.diagnostics)
      Sound :=
    .of_step fun fuel => ensures_prefixExpression
      ((operand fuel).imp_result fun _ _ hz => ⟨by rw [hz.1]; rfl, hz.2⟩)
  exact .start_some (hr _ hs) whole goesOn

/-- A name is an operand. -/
theorem Serves.identifier {t : Token} (ht : t.kind = .ident) :
    Serves σ (.expression .atom .other) [t] (.identifier t t.literal) := by
  intro bound x w Q E _ hreads _ _ goesOn
  obtain ⟨rfl, rfl⟩ := hreads
  have whole : Achieves .identifier x (fun v z =>
      some v = some (.identifier x.current x.current.literal) ∧
        z.Before x.window.advance x.diagnostics) Sound :=
    .of_step fun _ => ensures_identifier ⟨rfl, rfl, rfl⟩
  exact .start_some (by rw [ht]; rfl) (fun fuel => Ensures.map (whole fuel)) goesOn

/-- A literal that the grammar admits can be read, and is the integer that it denotes. -/
theorem Serves.integerLiteral {t : Token} (ht : t.kind = .int)
    (digits : Numeral.isNumeral t.literal.toList = true)
    (short : t.literal.toList.length ≤ Numeral.mostDigits)
    (small : Numeral.value t.literal.toList ≤ Numeral.greatest) :
    Serves σ (.expression .atom .other) [t]
      (.integerLiteral t (Numeral.value t.literal.toList)) := by
  intro bound x w Q E _ hreads _ _ goesOn
  obtain ⟨rfl, rfl⟩ := hreads
  -- the three conditions on the literal are those of a reading that succeeds
  have hread := Numeral.read_eq_integer_iff.2 ⟨digits, short, small, rfl⟩
  have whole : Achieves .integerLiteral x (fun v z =>
      v = some (.integerLiteral x.current (Numeral.value x.current.literal.toList)) ∧
        z.Before x.window.advance x.diagnostics) Sound := by
    -- the other two readings are impossible
    refine .of_step fun _ => ensures_integerLiteral (fun n hn => ?_) (fun _ hn => ?_) fun hn => ?_
    · rw [hread] at hn
      cases hn
      exact ⟨rfl, rfl, rfl⟩
    · rw [hread] at hn
      cases hn
    · rw [hread] at hn
      cases hn
  exact .start_some (r := .integerLiteral) (by rw [ht]; rfl) whole goesOn

/-- Each of the two words is an operand, and tells its value. -/
theorem Serves.boolean {t : Token} {b : Bool} (ht : t.kind = if b then .trueWord else .falseWord) :
    Serves σ (.expression .atom .other) [t] (.boolean t b) := by
  intro bound x w Q E _ hreads _ _ goesOn
  obtain ⟨rfl, rfl⟩ := hreads
  have whole : Achieves .boolean x (fun v z =>
      some v = some (.boolean x.current b) ∧ z.Before x.window.advance x.diagnostics) Sound :=
    .of_step fun _ => ensures_boolean ⟨by rw [ht]; cases b <;> rfl, rfl, rfl⟩
  exact .start_some (r := .boolean) (by rw [ht]; cases b <;> rfl)
    (fun fuel => Ensures.map (whole fuel)) goesOn

/-- Whatever is in parentheses is read without regard to the bound around them. -/
theorem Serves.group {e : Ending} {p p' : Token} {ts : List Token} {n : Node}
    (hp : p.kind = .leftParen) (inside : Serves σ (.expression .equality e) ts n)
    (hp' : p'.kind = .rightParen) :
    Serves σ (.expression .atom .other) (p :: (ts ++ [p'])) n := by
  intro bound x w Q E _ hreads _ _ goesOn
  obtain ⟨rfl, hrest⟩ := hreads
  obtain ⟨v, hts, rfl, rfl⟩ := Window.reads_append.1 hrest
  -- the closing parenthesis goes on with nothing, whatever the group ends with
  have inner := inside.whole (x := x.advance) hts (by rw [hp']; decide)
    fun _ => by rw [hp']; decide
  have whole : Achieves .groupedExpression x
      (fun u z => u = some n ∧ z.Before v.advance x.diagnostics) Sound := by
    refine .of_step fun fuel => ensures_groupedExpression ((inner fuel).imp_result fun u y hy => ?_)
    obtain ⟨rfl, hy⟩ := hy
    refine ⟨fun _ => ⟨rfl, ?_⟩, fun hne => absurd (by rw [hy.peek, hp']) hne⟩
    rw [hy.advance]
    exact ⟨rfl, rfl⟩
  -- the tree is that of the inside: a group leaves no trace in it
  exact .start_some (r := .groupedExpression) (by rw [hp]; rfl) whole goesOn

/-! ## Conditionals and functions -/

/-- A block starts on its brace. -/
theorem current_of_starts_block {v w : Window σ} {us : List Token}
    (hstarts : Symbol.Starts .block us) (hreads : v.Reads us w) : v.current.kind = .leftBrace := by
  obtain ⟨o, us, rfl, ho⟩ := hstarts
  rw [hreads.1]
  exact ho

/-- The condition and the block of a conditional, whatever comes of the alternative. -/
theorem ensures_conditional {fuel : Nat} {e : Ending} {p' : Token} {ts us : List Token}
    {l m : Node} {v : Window σ} {Q : Option Node → View σ → Prop} {E : Fault → View σ → Prop}
    (hp : x.peek.kind = .leftParen) (hreads : x.window.advance.advance.Reads (ts ++ p' :: us) v)
    (condition : Serves σ (.expression .equality e) ts l) (hp' : p'.kind = .rightParen)
    (consequence : Serves σ .block us m) (brace : Symbol.Starts .block us)
    (alternative : ∀ z, z.Before v x.diagnostics → Ensures (alternative (run fuel)) z
      (fun a u => Q (a.map fun other => .ifExpression x.current (some l) (some m) other) u)
      fun e y => e ≠ .endlessRules → E e y) :
    Ensures (ifExpression (run fuel)) x Q fun e y => e ≠ .endlessRules → E e y := by
  -- `u` is on the parenthesis that closes the condition
  obtain ⟨u, hts, rfl, hus⟩ := Window.reads_append.1 hreads
  have hbrace := current_of_starts_block brace hus
  have test := condition.whole (x := x.advance.advance) hts (by rw [hp']; decide)
    fun _ => by rw [hp']; decide
  have block := consequence ⟨u.advance, x.diagnostics⟩ v hus
  -- the condition, then the parenthesis and the brace, then the block
  refine ensures_ifExpression (fun hne => absurd hp hne) fun _ => ?_
  refine (test fuel).imp (fun c y hy => ?_) fun _ _ h hne => (h hne).elim
  obtain ⟨rfl, hy⟩ := hy
  refine ⟨fun hne => absurd (by rw [hy.peek, hp']) hne, fun _ hne => ?_, fun _ _ => ?_⟩
  · rw [hy.advance] at hne
    exact absurd hbrace hne
  · rw [hy.advance]
    refine (block fuel).imp (fun b z hz => ?_) fun _ _ h hne => (h hne).elim
    obtain ⟨rfl, hz⟩ := hz
    refine ⟨fun hnone => absurd hnone (Option.some_ne_none m), fun consequence hc => ?_⟩
    cases hc
    refine (alternative z hz).imp_result fun a u ha => ?_
    cases a with
    | none => exact ha
    | some other => exact ha

/-- A conditional without an alternative must not be followed by an `else`, since that would be
taken for one. -/
theorem Serves.conditional {e : Ending} {w p p' : Token} {ts us : List Token} {l m : Node}
    (hw : w.kind = .ifWord) (hp : p.kind = .leftParen)
    (condition : Serves σ (.expression .equality e) ts l) (hp' : p'.kind = .rightParen)
    (consequence : Serves σ .block us m) (brace : Symbol.Starts .block us) :
    Serves σ (.expression .atom .conditional) (w :: p :: (ts ++ p' :: us))
      (.ifExpression w l m none) := by
  intro bound x v Q E _ hreads _ helse goesOn
  obtain ⟨rfl, rfl, hrest⟩ := hreads
  have whole : Achieves .ifExpression x (fun u z =>
      u = some (.ifExpression x.current l m none) ∧ z.Before v x.diagnostics) Sound := by
    refine .of_step fun fuel =>
      ensures_conditional hp hrest condition hp' consequence brace fun z hz => ?_
    -- only here does it matter that no `else` stands behind
    have hne : z.peek.kind ≠ .elseWord := by
      rw [hz.peek]
      exact helse rfl
    exact ensures_alternative (fun _ => ⟨rfl, hz⟩) (fun h => absurd h hne) fun h => absurd h hne
  exact .start_some (r := .ifExpression) (by rw [hw]; rfl) whole goesOn

/-- With an alternative nothing behind it can be taken for a part of it. -/
theorem Serves.alternative {e : Ending} {w w' p p' : Token} {ts us vs : List Token}
    {l m n : Node} (hw : w.kind = .ifWord) (hp : p.kind = .leftParen)
    (condition : Serves σ (.expression .equality e) ts l) (hp' : p'.kind = .rightParen)
    (consequence : Serves σ .block us m) (brace : Symbol.Starts .block us)
    (hw' : w'.kind = .elseWord) (alternative : Serves σ .block vs n)
    (brace' : Symbol.Starts .block vs) :
    Serves σ (.expression .atom .other) (w :: p :: (ts ++ p' :: (us ++ w' :: vs)))
      (.ifExpression w l m n) := by
  intro bound x v Q E _ hreads _ _ goesOn
  obtain ⟨rfl, rfl, hrest⟩ := hreads
  -- the first block ends where the `else` is, at `u`
  rw [← List.cons_append, ← List.append_assoc] at hrest
  obtain ⟨u, hus, rfl, hvs⟩ := Window.reads_append.1 hrest
  have hbrace := current_of_starts_block brace' hvs
  have block := alternative ⟨u.advance, x.diagnostics⟩ v hvs
  have whole : Achieves .ifExpression x (fun r z =>
      r = some (.ifExpression x.current l m n) ∧ z.Before v x.diagnostics) Sound := by
    refine .of_step fun fuel =>
      ensures_conditional hp hus condition hp' consequence brace fun z hz => ?_
    refine ensures_alternative (fun hne => absurd (by rw [hz.peek, hw']) hne) (fun _ hne => ?_)
      fun _ _ => ?_
    · rw [hz.advance] at hne
      exact absurd hbrace hne
    · rw [hz.advance]
      refine (block fuel).imp_result fun b y hy => ?_
      obtain ⟨rfl, hy⟩ := hy
      exact ⟨rfl, hy⟩
  exact .start_some (r := .ifExpression) (by rw [hw]; rfl) whole goesOn

/-- A function has its parameters read, and its body as a block. -/
theorem Serves.functionLiteral {w p p' : Token} {ts us : List Token} {n : Node} {ns : List Node}
    (hw : w.kind = .functionWord) (hp : p.kind = .leftParen)
    (parameters : Serves σ .parameters ts ns) (hp' : p'.kind = .rightParen)
    (body : Serves σ .block us n) (brace : Symbol.Starts .block us) :
    Serves σ (.expression .atom .other) (w :: p :: (ts ++ p' :: us)) (.functionLiteral w ns n) := by
  intro bound x v Q E _ hreads _ _ goesOn
  obtain ⟨rfl, rfl, hrest⟩ := hreads
  obtain ⟨u, hts, rfl, hus⟩ := Window.reads_append.1 hrest
  have hbrace := current_of_starts_block brace hus
  have list := parameters x.advance u hts hp'
  have block := body ⟨u.advance, x.diagnostics⟩ v hus
  -- the parenthesis, the names, the brace, the block: nothing is missing
  have whole : Achieves .functionLiteral x (fun r z =>
      r = some (.functionLiteral x.current ns n) ∧ z.Before v x.diagnostics) Sound := by
    refine .of_step fun fuel => ensures_functionLiteral (fun hne => absurd hp hne) fun _ => ?_
    refine (list fuel).imp_result fun ps y hy => ?_
    obtain ⟨rfl, rfl⟩ := hy
    refine ⟨fun hnone => absurd hnone (Option.some_ne_none ns), fun _ _ hne => absurd hbrace hne,
      fun names hnames _ => ?_⟩
    cases hnames
    refine (block fuel).imp_result fun b z hz => ?_
    obtain ⟨rfl, hz⟩ := hz
    exact ⟨rfl, hz⟩
  exact .start_some (r := .functionLiteral) (by rw [hw]; rfl) whole goesOn

/-! ## Lists -/

/-- The last name of a list is known by what closes the list. -/
theorem Serves.oneName {t : Token} (ht : t.kind = .ident) :
    Serves σ .names [t] [.identifier t t.literal] := by
  intro x w hreads hw
  obtain ⟨rfl, rfl⟩ := hreads
  -- what stands behind closes the list, so there is no comma
  have hne : x.advance.peek.kind ≠ .comma := fun h => absurd (hw.symm.trans h) (by decide)
  exact .of_step fun _ => ensures_parameters (fun h => absurd ht h) (fun _ h => absurd h hne)
    (fun _ _ => ⟨rfl, rfl⟩) fun _ _ h => absurd hw h

/-- Behind a comma the list goes on with another name. -/
theorem Serves.moreNames {t s : Token} {us : List Token} {ns : List Node} (ht : t.kind = .ident)
    (hs : s.kind = .comma) (later : Serves σ .names us ns) :
    Serves σ .names (t :: s :: us) (.identifier t t.literal :: ns) := by
  intro x w hreads hw
  obtain ⟨rfl, rfl, hus⟩ := hreads
  -- the list goes on from the comma
  have rest := later x.advance.advance w hus hw
  refine .of_step fun fuel => ensures_parameters (fun h => absurd ht h) (fun _ _ => ?_)
    (fun _ h => absurd (hs.symm.trans h) (by decide)) fun _ h => absurd hs h
  refine (rest fuel).imp_result fun v y hy => ?_
  obtain ⟨rfl, rfl⟩ := hy
  exact ⟨rfl, rfl⟩

/-- Without names the list is closed at once. -/
theorem Serves.noParameters : Serves σ .parameters [] [] := by
  intro x w hreads hw
  obtain rfl := hreads
  exact .of_step fun _ => ensures_functionParameters (fun _ => ⟨rfl, rfl⟩) fun h => absurd hw h

/-- A list that starts with a name is not taken for an empty one. -/
theorem Serves.someParameters {ts : List Token} {ns : List Node} (names : Serves σ .names ts ns)
    (hstarts : Symbol.Starts .names ts) : Serves σ .parameters ts ns := by
  intro x w hreads hw
  obtain ⟨t, us, rfl, ht⟩ := hstarts
  obtain rfl : x.peek = t := hreads.1
  exact .of_step fun fuel => ensures_functionParameters
    (fun h => absurd (ht.symm.trans h) (by decide)) fun _ => names x w hreads hw fuel

/-- The last item of a list is known by what closes the list. -/
theorem Serves.oneItem {e : Ending} {ts : List Token} {n : Node}
    (item : Serves σ (.expression .equality e) ts n) : Serves σ .items ts [n] := by
  intro x w hreads hw
  have first := item.whole hreads (by rw [hw]; decide) fun _ => by rw [hw]; decide
  refine .of_step fun fuel => ensures_expressions ((first fuel).imp_result fun v y hy => ?_)
  obtain ⟨rfl, hy⟩ := hy
  -- the list is closed behind the item, so no comma goes on with it
  refine ⟨fun hcomma => ?_, fun _ => ⟨rfl, hy⟩⟩
  rw [hy.peek, hw] at hcomma
  exact absurd hcomma (by decide)

/-- No item goes on with a comma, so each ends where the next one is announced. -/
theorem Serves.moreItems {e : Ending} {s : Token} {ts us : List Token} {n : Node}
    {ns : List Node} (item : Serves σ (.expression .equality e) ts n) (hs : s.kind = .comma)
    (later : Serves σ .items us ns) : Serves σ .items (ts ++ s :: us) (n :: ns) := by
  intro x w hreads hw
  obtain ⟨v, hts, rfl, hus⟩ := Window.reads_append.1 hreads
  have first := item.whole hts (by rw [hs]; decide) fun _ => by rw [hs]; decide
  -- `v` is on the comma
  have rest := later ⟨v.advance, x.diagnostics⟩ w hus hw
  refine .of_step fun fuel => ensures_expressions ((first fuel).imp_result fun r y hy => ?_)
  obtain ⟨rfl, hy⟩ := hy
  refine ⟨fun _ => ?_, fun hne => absurd (by rw [hy.peek, hs]) hne⟩
  rw [hy.advance]
  refine (rest fuel).imp_result fun rs z hz => ?_
  obtain ⟨rfl, hz⟩ := hz
  exact ⟨rfl, hz⟩

/-- Without items the list is closed at once. -/
theorem Serves.noArguments : Serves σ .arguments [] [] := by
  intro x w hreads hw
  obtain rfl := hreads
  exact .of_step fun _ => ensures_expressionList (fun _ => ⟨rfl, rfl⟩) fun h => absurd hw h

/-- Of a list whose items are all there, nothing is missing. -/
theorem mapM_id_map_some {α : Type} (as : List α) : (as.map some).mapM id = some as := by
  induction as with
  | nil => rfl
  | cons a as ih => simp [ih]

/-- A list of items that are all there is what the call is given. -/
theorem Serves.someArguments {ts : List Token} {ns : List Node} (items : Serves σ .items ts ns)
    (hstarts : Symbol.Starts .items ts) : Serves σ .arguments ts ns := by
  intro x w hreads hw
  obtain ⟨t, us, rfl, ht⟩ := hstarts
  obtain rfl : x.peek = t := hreads.1
  have list := items x.advance w hreads hw
  -- no expression starts with the parenthesis that would close the list at once
  refine .of_step fun fuel => ensures_expressionList (fun h => ?_) fun _ => ?_
  · rw [h] at ht
    exact absurd ht (by decide)
  · refine (list fuel).imp_result fun vs y hy => ?_
    obtain ⟨rfl, hy⟩ := hy
    refine ⟨fun _ => ⟨mapM_id_map_some ns, hy.advance⟩, fun hne => ?_⟩
    exact absurd (by rw [hy.peek, hw]) hne

/-! ## Statements and programs -/

theorem Ending.behind_of_ne {e : Ending} (he : e ≠ .semicolon) (w : Window σ) :
    e.behind w = w.skip .semicolon := if_neg he

/-- Where no semicolon comes that would belong to it, a statement takes none. -/
theorem Ending.behind_eq_self {e : Ending}
    (h : e ≠ .semicolon → w.current.kind ≠ .semicolon) : e.behind w = w := by
  by_cases he : e = .semicolon
  · exact if_pos he
  · rw [Ending.behind_of_ne he]
    exact if_neg (h he)

/-- Where a statement stands, the statements are not at their end. -/
theorem not_closed_of_starts {e : Ending} {ts : List Token} {closer : Kind}
    (hstarts : Symbol.Starts (.statement e) ts) (hreads : x.window.Reads ts w)
    (hcloser : closer = .eof ∨ closer = .rightBrace) :
    ¬(x.current.kind = closer ∨ x.current.kind = .eof) := by
  obtain ⟨t, ts, rfl, ht⟩ := hstarts
  obtain rfl : x.current = t := hreads.1
  exact Kind.not_closed_of_mem_leading ht hcloser

/-- A `let` is served by its value, behind a name and a sign. -/
theorem Serves.letStatement {t i s : Token} {ts : List Token} {e : Ending} {n : Node}
    (ht : t.kind = .letWord) (hi : i.kind = .ident) (hs : s.kind = .assign)
    (value : Serves σ (.expression .equality e) ts n) (he : e ≠ .semicolon) :
    Serves σ (.statement e) (t :: i :: s :: ts)
      (.letStatement t (some (.identifier i i.literal)) n) := by
  intro x w hreads hstops
  obtain ⟨rfl, rfl, rfl, hts⟩ := hreads
  obtain ⟨hlevel, helse⟩ := hstops he
  have expression := value.whole (x := x.advance.advance.advance) hts hlevel helse
  -- a missing name and a missing sign are out of the question
  have whole : Achieves .letStatement x (fun v y =>
      v = some (.letStatement x.current (some (.identifier x.peek x.peek.literal)) n) ∧
        y.Before (e.behind w) x.diagnostics) Sound := by
    refine .of_step fun fuel => ensures_letStatement (fun h => absurd hi h)
      (fun _ h => absurd hs h) fun _ _ => ?_
    refine (expression fuel).imp_result fun v y hy => ?_
    obtain ⟨rfl, hy⟩ := hy
    -- the statement takes the semicolon behind it, if there is one
    rw [Ending.behind_of_ne he]
    exact ⟨rfl, hy.skip _⟩
  exact .of_step fun fuel => ensures_statement (fun _ => whole fuel)
    (fun h => absurd (ht.symm.trans h) (by decide)) fun h => absurd ht h

/-- A `return` is served by its value, behind its word. -/
theorem Serves.returnStatement {t : Token} {ts : List Token} {e : Ending} {n : Node}
    (ht : t.kind = .returnWord) (value : Serves σ (.expression .equality e) ts n)
    (he : e ≠ .semicolon) : Serves σ (.statement e) (t :: ts) (.returnStatement t n) := by
  intro x w hreads hstops
  obtain ⟨rfl, hts⟩ := hreads
  obtain ⟨hlevel, helse⟩ := hstops he
  have expression := value.whole (x := x.advance) hts hlevel helse
  have whole : Achieves .returnStatement x (fun v y =>
      some v = some (.returnStatement x.current n) ∧ y.Before (e.behind w) x.diagnostics)
      Sound := by
    refine .of_step fun fuel => ensures_returnStatement ?_
    refine (expression fuel).imp_result fun v y hy => ?_
    obtain ⟨rfl, hy⟩ := hy
    rw [Ending.behind_of_ne he]
    exact ⟨rfl, hy.skip _⟩
  exact .of_step fun fuel => ensures_statement (fun h => absurd (ht.symm.trans h) (by decide))
    (fun _ => whole fuel) fun _ h => absurd ht h

/-- A statement that starts with neither word is served by its expression. -/
theorem Serves.expressionStatement {t : Token} {ts : List Token} {e : Ending} {n : Node}
    (ht : t.kind ∈ Kind.opening) (value : Serves σ (.expression .equality e) (t :: ts) n)
    (he : e ≠ .semicolon) : Serves σ (.statement e) (t :: ts) (.expressionStatement t n) := by
  intro x w hreads hstops
  obtain rfl : x.current = t := hreads.1
  obtain ⟨hlevel, helse⟩ := hstops he
  have expression := value.whole hreads hlevel helse
  have whole : Achieves .expressionStatement x (fun v y =>
      some v = some (.expressionStatement x.current n) ∧ y.Before (e.behind w) x.diagnostics)
      Sound := by
    refine .of_step fun fuel => ensures_expressionStatement ?_
    refine (expression fuel).imp_result fun v y hy => ?_
    obtain ⟨rfl, hy⟩ := hy
    rw [Ending.behind_of_ne he]
    exact ⟨rfl, hy.skip _⟩
  -- what opens an expression is neither of the two words
  refine .of_step fun fuel => ensures_statement (fun h => ?_) (fun h => ?_) fun _ _ => whole fuel
  · rw [h] at ht
    exact absurd ht (by decide)
  · rw [h] at ht
    exact absurd ht (by decide)

/-- A semicolon behind a statement is taken along with it. -/
theorem Serves.closedStatement {s : Token} {ts : List Token} {e : Ending} {n : Node}
    (statement : Serves σ (.statement e) ts n) (he : e ≠ .semicolon) (hs : s.kind = .semicolon) :
    Serves σ (.statement .semicolon) (ts ++ [s]) n := by
  intro x w hreads _
  obtain ⟨v, hts, rfl, rfl⟩ := Window.reads_append.1 hreads
  -- the statement alone already moves on over the semicolon
  have open' := statement x v hts fun _ => ⟨by rw [hs]; decide, fun _ => by rw [hs]; decide⟩
  rw [Ending.behind_of_ne he, Window.skip, if_pos hs] at open'
  exact open'

/-- A block ends at its own brace, since no statement starts with one. -/
theorem Serves.block {o o' : Token} {ts : List Token} {ns : List Node}
    (body : Serves σ .statements ts ns) (ho' : o'.kind = .rightBrace) :
    Serves σ .block (o :: (ts ++ [o'])) (.blockStatement o ns) := by
  intro x w hreads
  obtain ⟨rfl, hrest⟩ := hreads
  obtain ⟨v, hts, rfl, rfl⟩ := Window.reads_append.1 hrest
  have inside := body .rightBrace x.advance v hts (.inl ho') (.inr rfl)
  refine .of_step fun fuel => ensures_blockStatement ((inside fuel).imp_result fun rs y hy => ?_)
  obtain ⟨rfl, rfl⟩ := hy
  -- the closing brace is no end of the input
  exact ⟨fun heof => absurd (ho'.symm.trans heof) (by decide), fun _ => ⟨rfl, rfl, rfl⟩⟩

/-- Where what closes a list is ahead, no statement is tried. -/
theorem Serves.noStatements : Serves σ .statements [] [] := by
  intro closer x w hreads hw _
  obtain rfl := hreads
  exact .of_step fun _ => ensures_statements (fun _ => ⟨rfl, rfl⟩) fun h => absurd hw h

/-- What some statements start with is no part of the statement before them, if they stand apart from
it, and neither is what is behind where there are none. -/
theorem notMem_joining_of_reads {us : List Token} {v w : Window σ} (hus : v.Reads us w)
    (hstarts : Symbol.Starts .statements us)
    (apart : ∀ u ∈ us.head?, u.kind ≠ .minus ∧ u.kind ≠ .leftParen)
    (hend : us = [] → w.current.kind ∉ Kind.joining) : v.current.kind ∉ Kind.joining := by
  cases us with
  | nil =>
    obtain rfl : v = w := hus
    exact hend rfl
  | cons u us =>
    obtain rfl : v.current = u := hus.1
    obtain ⟨hminus, hparen⟩ := apart v.current rfl
    exact Kind.notMem_joining_of_mem_leading (hstarts v.current rfl) hminus hparen

/-- A statement is read, and then the list goes on, where no token behind it is taken as a part of
it. -/
theorem Achieves.moreStatements {ts : List Token} {e : Ending} {n : Node} {closer : Kind}
    {Q : List Node → View σ → Prop} (first : Serves σ (.statement e) ts n)
    (hfirst : Symbol.Starts (.statement e) ts) (hts : x.window.Reads ts w)
    (hstops : e.Stops w.current.kind) (hsemicolon : e ≠ .semicolon → w.current.kind ≠ .semicolon)
    (hcloser : closer = .eof ∨ closer = .rightBrace)
    (later : Achieves (.statements closer) ⟨w, x.diagnostics⟩ (fun ns y => Q (n :: ns) y) E) :
    Achieves (.statements closer) x Q E := by
  have one := first x w hts hstops
  -- statements first read one, then the rest
  refine .of_step fun fuel => ensures_statements (fun hclosed => ?_) fun _ => ?_
  · exact absurd hclosed (not_closed_of_starts hfirst hts hcloser)
  · refine (one fuel).imp (fun r y hy => ?_) fun _ _ hE hne => (hE hne).elim
    obtain ⟨rfl, hy⟩ := hy
    -- the statement does not move on over anything but its own semicolon
    rw [Ending.behind_eq_self hsemicolon] at hy
    refine ⟨fun m hm => ?_, fun hnone => absurd hnone (Option.some_ne_none n)⟩
    cases hm
    rw [hy.advance]
    exact later fuel

/-- A statement that is not closed by a semicolon ends where the next one starts, unless that starts
with a token that could go on with it. -/
theorem Serves.moreStatements {ts us : List Token} {e : Ending} {n : Node} {ns : List Node}
    (first : Serves σ (.statement e) ts n) (hfirst : Symbol.Starts (.statement e) ts)
    (later : Serves σ .statements us ns) (hlater : Symbol.Starts .statements us)
    (apart : e ≠ .semicolon → ∀ u ∈ us.head?, u.kind ≠ .minus ∧ u.kind ≠ .leftParen) :
    Serves σ .statements (ts ++ us) (n :: ns) := by
  intro closer x w hreads hw hcloser
  obtain ⟨v, hts, hus⟩ := Window.reads_append.1 hreads
  -- What comes behind the statement starts another one or closes them all.
  have hend : w.current.kind ∉ Kind.joining := by
    rcases hw with hw | hw <;> rcases hcloser with rfl | rfl <;> rw [hw] <;> decide
  have hbehind : e ≠ .semicolon → v.current.kind ∉ Kind.joining := fun he =>
    notMem_joining_of_reads hus hlater (apart he) fun _ => hend
  have rest := later closer ⟨v, x.diagnostics⟩ w hus hw hcloser
  obtain ⟨hstops, hsemicolon⟩ := Ending.stops_of_notMem_joining hbehind
  refine .moreStatements first hfirst hts hstops hsemicolon hcloser (rest.imp_result fun ms z hz => ?_)
  obtain ⟨rfl, rfl⟩ := hz
  exact ⟨rfl, rfl⟩

/-- A program is served by its statements, up to the end of the input. -/
theorem Serves.program {ts : List Token} {ns : List Node} (body : Serves σ .statements ts ns) :
    Serves σ .program ts (.program ns) := by
  intro x w hreads hw
  have inside := body .eof x w hreads (.inl hw) (.inl rfl)
  refine .of_step fun fuel => ensures_program ((inside fuel).imp_result fun ms y hy => ?_)
  obtain ⟨rfl, rfl⟩ := hy
  exact ⟨rfl, rfl⟩

/-- The parser does what the grammar says, for every symbol. -/
theorem serves_of_derives {a : Symbol} {ts : List Token} {tree : a.Tree}
    (h : Derives a ts tree) : Serves σ a ts tree := by
  induction h with
  | program _ body => exact body.program
  | noStatements => exact Serves.noStatements
  | moreStatements first later apart ihf ihl =>
    exact Serves.moreStatements ihf first.starts ihl later.starts apart
  | letStatement word name sign value ih =>
    exact Serves.letStatement word name sign ih (value.ending_ne_semicolon rfl)
  | returnStatement word value ih =>
    exact Serves.returnStatement word ih (value.ending_ne_semicolon rfl)
  | expressionStatement value ih =>
    obtain ⟨t, us, hts, ht⟩ := value.starts
    cases hts
    exact Serves.expressionStatement ht ih (value.ending_ne_semicolon rfl)
  | closedStatement _ unclosed sign ih => exact Serves.closedStatement ih unclosed sign
  | block _ _ closing ih => exact Serves.block ih closing
  | loosened tighter _ ih =>
    have hrank := Stratum.rank_of_next? tighter
    intro bound x w Q E hbound hreads hw helse goesOn
    exact ih bound x w Q E (Int.lt_of_lt_of_le hbound (Stratum.floor_mono (by omega))) hreads
      (Int.le_trans hw (Stratum.ceiling_mono (by omega))) helse goesOn
  | infixExpression tighter _ operator _ ihl ihr =>
    exact Serves.infixExpression tighter ihl operator ihr
  | prefixExpression operator _ ih => exact Serves.prefixExpression operator ih
  | callExpression _ opening _ closing ihf iha =>
    exact Serves.callExpression ihf opening iha closing
  | identifier name => exact Serves.identifier name
  | integerLiteral number digits short small => exact Serves.integerLiteral number digits short small
  | trueWord word => exact Serves.boolean word
  | falseWord word => exact Serves.boolean word
  | group opening _ closing ih => exact Serves.group opening ih closing
  | conditional word opening _ closing consequence ihc ihb =>
    exact Serves.conditional word opening ihc closing ihb consequence.starts
  | alternative word opening _ closing consequence otherwise alternative ihc ihb iha =>
    exact Serves.alternative word opening ihc closing ihb consequence.starts otherwise iha
      alternative.starts
  | functionLiteral word opening _ closing body ihp ihb =>
    exact Serves.functionLiteral word opening ihp closing ihb body.starts
  | noArguments => exact Serves.noArguments
  | someArguments items ih => exact Serves.someArguments ih items.starts
  | oneItem _ ih => exact Serves.oneItem ih
  | moreItems _ comma _ ihf ihl => exact Serves.moreItems ihf comma ihl
  | noParameters => exact Serves.noParameters
  | someParameters names ih => exact Serves.someParameters ih names.starts
  | oneName name => exact Serves.oneName name
  | moreNames name comma _ ih => exact Serves.moreNames name comma ih

end Parse

/-- A source that reads a program of the grammar and then the end of the input is accepted. -/
theorem parseProgram_of_reads [LawfulTokenSource σ] {source : σ} {w : Window σ} {ts : List Token}
    {tree : Node} (h : Derives .program ts tree) (hreads : (View.start source).window.Reads ts w)
    (hw : w.current.kind = .eof) (tracing : Bool) :
    ∃ s, parseProgram source tracing = (.ok tree, s) ∧ s.diagnostics = [] ∧
      s.current.kind = .eof := by
  have achieves := Parse.serves_of_derives h (View.start source) w hreads hw
  rcases achieves.parseProgram tracing with ⟨tree', s, hrun, rfl, hs⟩ | ⟨_, _, _, habsurd⟩
  · refine ⟨s, hrun, congrArg View.diagnostics hs, ?_⟩
    have hcurrent : s.current = w.current := congrArg View.current hs
    rw [hcurrent, hw]
  · exact habsurd.elim

/-- Every program of the grammar is parsed to the tree of its derivation, whatever derivation that
is. Nothing is reported, and all tokens are read. -/
theorem parseProgram_of_derives {ts : List Token} {tree : Node} (h : Derives .program ts tree)
    (tracing : Bool) :
    ∃ s, parseProgram ts tracing = (.ok tree, s) ∧ s.diagnostics = [] ∧ s.current.kind = .eof :=
  parseProgram_of_reads h (View.reads_start ts) rfl tracing

/-- The negation of a name, taken from another name. -/
theorem parseProgram_difference :
    let a := Token.unplaced .ident "a"
    let b := Token.unplaced .ident "b"
    let minus := Token.unplaced .minus "-"
    let negation := Node.prefixExpression minus "-" (some (.identifier b "b"))
    let difference := Node.infixExpression minus (some (.identifier a "a")) "-" (some negation)
    ∃ s, parseProgram [a, minus, minus, b, .unplaced .semicolon ";"] false =
        (.ok (.program [.expressionStatement a (some difference)]), s) ∧
      s.diagnostics = [] ∧ s.current.kind = .eof := by
  intro a b minus negation difference
  have name : ∀ {c : Stratum} {t : Token}, t.kind = .ident →
      Derives (.expression c .other) [t] (.identifier t t.literal) :=
    fun {c} {t} ht => (Derives.identifier ht).loosen (by cases c <;> decide)
  have right : Derives (.expression .product .other) [minus, b] negation :=
    (Derives.prefixExpression (by decide) (name rfl)).loosen (by decide)
  have whole : Derives (.expression .equality .other) [a, minus, minus, b] difference :=
    (Derives.infixExpression (c := .sum) rfl (name (t := a) rfl) (by decide) right).loosen
      (by decide)
  have closed : Derives (.statement .semicolon) [a, minus, minus, b, .unplaced .semicolon ";"]
      (.expressionStatement a difference) :=
    .closedStatement (.expressionStatement whole) (by decide) rfl
  exact parseProgram_of_derives (.program (.moreStatements closed .noStatements nofun)) false

end Pratt
