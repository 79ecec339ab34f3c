import Pratt.Proofs.Ensures

/-!
# Pratt — what each rule ensures

One lemma for each rule of the grammar. Each says what has to be known of the
goals that the rule leads to, and of the ways in which it can end by itself, for
the rule to ensure something. After these lemmas no proof opens a rule: what a
rule does is what its lemma asks for.

The hypotheses are named after the part of the rule they speak of. One whose
conclusion is about the absent result belongs to a way of failing; what the rule
reports then can be read off it.
-/

namespace Pratt

/-- The kinds of the tokens that start an expression. -/
def Kind.opening : List Kind := RuleTable.starting.entries.map (·.1)

/-- The kinds that the table of starting rules has an entry for. -/
theorem Kind.mem_opening {k : Kind} :
    k ∈ Kind.opening ↔ k ∈ [Kind.ident, .int, .trueWord, .falseWord, .leftParen, .ifWord,
      .functionWord, .bang, .minus] := Iff.rfl

/-- How many braces are open around what follows a token, where `depth` were open before it. -/
def Kind.depthAfter (depth : Nat) : Kind → Nat
  | .leftBrace => depth + 1
  | .rightBrace => depth - 1
  | _ => depth

/-- Nothing but a brace changes the depth of a skip. -/
theorem Kind.depthAfter_of_ne {depth : Nat} {k : Kind} (hopening : k ≠ .leftBrace)
    (hclosing : k ≠ .rightBrace) : k.depthAfter depth = depth := by
  unfold depthAfter
  split
  · exact absurd rfl hopening
  · exact absurd rfl hclosing
  · rfl

/-- The rule for the tokens of a kind that start an expression. -/
theorem RuleTable.find?_starting (k : Kind) :
    RuleTable.starting.find? k =
      match k with
      | .ident => some .identifier
      | .int => some .integerLiteral
      | .trueWord | .falseWord => some .boolean
      | .bang | .minus => some .prefixExpression
      | .leftParen => some .groupedExpression
      | .ifWord => some .ifExpression
      | .functionWord => some .functionLiteral
      | _ => none := by
  cases k <;> rfl

/-- The rule for the tokens of a kind that continue an expression. -/
theorem RuleTable.find?_continuing (k : Kind) :
    RuleTable.continuing.find? k =
      match k with
      | .equal | .notEqual | .less | .greater | .plus | .minus | .asterisk | .slash =>
        some .infixExpression
      | .leftParen => some .callExpression
      | _ => none := by
  cases k <;> rfl

/-- What the table of continuing rules has: operators and the opening of a call. -/
theorem RuleTable.find?_continuing_eq_some {k : Kind} {r : Rule}
    (h : RuleTable.continuing.find? k = some r) :
    k ∈ Kind.infixOperators ∧ r = .infixExpression ∨ k = .leftParen ∧ r = .callExpression := by
  rw [find?_continuing] at h
  cases k <;> simp_all [Kind.infixOperators]

/-- A kind without such a rule binds no operand. -/
theorem RuleTable.find?_continuing_eq_none {k : Kind}
    (h : RuleTable.continuing.find? k = none) : k ∉ Kind.binding := by
  rw [find?_continuing] at h
  cases k <;> simp_all [Kind.binding, Kind.all, Kind.precedence]

namespace Parse

variable {σ : Type} {parse : Recur σ} {x : View σ} {E : Fault → View σ → Prop}

/-- An action that only gives what another one gives in a different form. -/
theorem Ensures.map {α β : Type} {a : Parse σ α} {g : α → β} {Q : β → View σ → Prop}
    (h : Ensures a x (fun v y => Q (g v) y) E) : Ensures (do return g (← a)) x Q E :=
  Ensures.bind (h.imp_result fun _ _ hQ => Ensures.pure hQ)

/-! ## Statements -/

theorem ensures_program {Q : Node → View σ → Prop}
    (h : Ensures (parse (.statements .eof)) x (fun ns y => Q (.program ns) y) E) :
    Ensures (program parse) x Q E :=
  Ensures.map h

/-- Which rule is used on a statement depends on the word that it starts with. -/
theorem ensures_statement {Q : Option Node → View σ → Prop}
    (letWord : x.current.kind = .letWord → Ensures (parse .letStatement) x Q E)
    (returnWord : x.current.kind = .returnWord →
      Ensures (parse .returnStatement) x (fun n y => Q (some n) y) E)
    (other : x.current.kind ≠ .letWord → x.current.kind ≠ .returnWord →
      Ensures (parse .expressionStatement) x (fun n y => Q (some n) y) E) :
    Ensures (statement parse) x Q E := by
  refine Ensures.get fun s _ hx => ?_
  subst hx
  -- the two words, and anything else
  split
  · exact letWord ‹_›
  · exact Ensures.map (returnWord ‹_›)
  · exact Ensures.map (other ‹_› ‹_›)

variable [TokenSource σ]

/-- A `let` needs a name and a sign. Where one of them is missing it is reported and there is no
statement; the value may be missing, and a semicolon is taken along if it is there. -/
theorem ensures_letStatement {Q : Option Node → View σ → Prop}
    (noName : x.peek.kind ≠ .ident → Q none (x.report x.peek (.expected .ident)))
    (noSign : x.peek.kind = .ident → x.advance.peek.kind ≠ .assign →
      Q none (x.advance.report x.advance.peek (.expected .assign)))
    (value : x.peek.kind = .ident → x.advance.peek.kind = .assign →
      Ensures (parse (.expression 1)) x.advance.advance.advance
        (fun v y => Q (some (.letStatement x.current
          (some (.identifier x.peek x.peek.literal)) v)) (y.skip .semicolon)) E) :
    Ensures (letStatement parse) x Q E := by
  refine Ensures.get fun s _ hx => ?_
  subst hx
  refine Ensures.bind (ensures_expect? (fun hname => ?_) fun hname => Ensures.pure (noName hname))
  refine Ensures.bind (ensures_expect? (fun hsign => ?_)
    fun hsign => Ensures.pure (noSign hname hsign))
  -- on the first token of the value
  refine Ensures.bind (ensures_advance ?_)
  refine Ensures.bind ((value hname hsign).imp_result fun v y h => ?_)
  exact Ensures.bind (ensures_skipOptional (Ensures.pure h))

/-- A `return` is always a statement, whether its value can be parsed or not. -/
theorem ensures_returnStatement {Q : Node → View σ → Prop}
    (value : Ensures (parse (.expression 1)) x.advance
      (fun v y => Q (.returnStatement x.current v) (y.skip .semicolon)) E) :
    Ensures (returnStatement parse) x Q E := by
  refine Ensures.get fun s _ hx => ?_
  subst hx
  refine Ensures.bind (ensures_advance ?_)
  refine Ensures.bind (value.imp_result fun v y h => ?_)
  exact Ensures.bind (ensures_skipOptional (Ensures.pure h))

/-- An expression is always a statement, and it starts at the current token. -/
theorem ensures_expressionStatement {Q : Node → View σ → Prop}
    (expression : Ensures (parse (.expression 1)) x
      (fun v y => Q (.expressionStatement x.current v) (y.skip .semicolon)) E) :
    Ensures (expressionStatement parse) x Q E := by
  refine Ensures.get fun s _ hx => ?_
  subst hx
  refine Ensures.bind (expression.imp_result fun v y h => ?_)
  exact Ensures.bind (ensures_skipOptional (Ensures.pure h))

/-- A block goes to its closing brace. Where the input ends before, that is reported and there is no
block. -/
theorem ensures_blockStatement {Q : Option Node → View σ → Prop}
    (statements : Ensures (parse (.statements .rightBrace)) x.advance
      (fun ns y =>
        (y.current.kind = .eof → Q none (y.report y.current (.expected .rightBrace))) ∧
        (y.current.kind ≠ .eof → Q (some (.blockStatement x.current ns)) y)) E) :
    Ensures (blockStatement parse) x Q E := by
  -- what the block ends at is looked up only after its statements
  refine Ensures.get fun s _ hx => ?_
  subst hx
  refine Ensures.bind (ensures_advance ?_)
  refine Ensures.bind (statements.imp_result fun ns y h => ?_)
  refine Ensures.get fun s' _ hy => ?_
  subst hy
  obtain ⟨unclosed, closed⟩ := h
  by_cases heof : s'.current.kind = .eof
  · simp only [heof, if_true]
    exact Ensures.bind (ensures_report (Ensures.pure (unclosed heof)))
  · simp only [heof, if_false]
    exact Ensures.pure (closed heof)

/-- A list of statements ends at what closes it or at the end of the input. Behind a statement that
could not be parsed the parser skips to where the next one may start. -/
theorem ensures_statements {closer : Kind} {Q : List Node → View σ → Prop}
    (closed : x.current.kind = closer ∨ x.current.kind = .eof → Q [] x)
    (more : ¬(x.current.kind = closer ∨ x.current.kind = .eof) →
      Ensures (parse .statement) x
        (fun v y =>
          (∀ n, v = some n →
            Ensures (parse (.statements closer)) y.advance (fun ns z => Q (n :: ns) z) E) ∧
          (v = none →
            Ensures (parse (.recovery 0)) y
              (fun _ z => Ensures (parse (.statements closer)) z.advance Q E) E)) E) :
    Ensures (statements parse closer) x Q E := by
  refine Ensures.get fun s _ hx => ?_
  subst hx
  by_cases hclosed : s.current.kind = closer ∨ s.current.kind = .eof
  · simp only [hclosed, if_true]
    exact Ensures.pure (closed hclosed)
  -- a statement and the rest, or a recovery and the rest
  · simp only [hclosed, if_false]
    refine Ensures.bind ((more hclosed).imp_result fun v y h => ?_)
    cases v with
    | some n => exact Ensures.bind (ensures_advance (Ensures.map (h.1 n rfl)))
    | none =>
      refine Ensures.bind ((h.2 rfl).imp_result fun _ z hz => ?_)
      exact Ensures.bind (ensures_advance hz)

/-- The skip is over at the end of the input, and outside of all braces also where a statement
is. -/
theorem recovery_of_over {depth : Nat} {s : State σ}
    (h : s.current.kind = .eof ∨ s.peek.kind = .eof ∨
      depth = 0 ∧ (s.current.kind = .semicolon ∨
        s.peek.kind ∈ [Kind.rightBrace, .letWord, .returnWord])) :
    recovery parse depth s = .ok () s := by
  show (if s.current.kind = .eof ∨ s.peek.kind = .eof then _ else _ : Parse σ _) s = _
  by_cases hend : s.current.kind = .eof ∨ s.peek.kind = .eof
  · rw [if_pos hend]
    rfl
  · rw [if_neg hend, if_pos ((or_assoc.2 h).resolve_left hend)]
    rfl

/-- Everywhere else it moves on, and the depth changes with the token that it moves onto. -/
theorem recovery_of_not_over {depth : Nat} {s : State σ}
    (h : ¬(s.current.kind = .eof ∨ s.peek.kind = .eof ∨
      depth = 0 ∧ (s.current.kind = .semicolon ∨
        s.peek.kind ∈ [Kind.rightBrace, .letWord, .returnWord]))) :
    recovery parse depth s = parse (.recovery (s.peek.kind.depthAfter depth)) s.advance := by
  obtain ⟨hend, hstop⟩ := not_or.1 fun hover => h (or_assoc.1 hover)
  show (if s.current.kind = .eof ∨ s.peek.kind = .eof then _ else _ : Parse σ _) s = _
  rw [if_neg hend, if_neg hstop]
  refine (bind_eq_of_ok (advance_eq s)).trans ?_
  -- only a brace changes the depth, and every other kind is alike
  show (match s.peek.kind with
    | .leftBrace => _
    | .rightBrace => _
    | _ => _ : Parse σ _) s.advance = _
  cases s.peek.kind <;> rfl

/-- A skip stops at the end of the input and, outside of braces that it has itself gone past, at a
semicolon or before what may start or close statements. -/
theorem ensures_recovery {depth : Nat} {Q : Unit → View σ → Prop}
    (stop : x.current.kind = .eof ∨ x.peek.kind = .eof ∨
      depth = 0 ∧ (x.current.kind = .semicolon ∨
        x.peek.kind ∈ [Kind.rightBrace, .letWord, .returnWord]) → Q () x)
    (more : x.current.kind ≠ .eof → x.peek.kind ≠ .eof →
      ¬(depth = 0 ∧ (x.current.kind = .semicolon ∨
        x.peek.kind ∈ [Kind.rightBrace, .letWord, .returnWord])) →
      Ensures (parse (.recovery (x.peek.kind.depthAfter depth))) x.advance Q E) :
    Ensures (recovery parse depth) x Q E := by
  intro s hs hx
  subst hx
  by_cases hover : s.current.kind = .eof ∨ s.peek.kind = .eof ∨
      depth = 0 ∧ (s.current.kind = .semicolon ∨
        s.peek.kind ∈ [Kind.rightBrace, .letWord, .returnWord])
  · rw [recovery_of_over hover]
    exact ⟨hs, stop hover⟩
  · obtain ⟨hcurrent, hrest⟩ := not_or.1 hover
    obtain ⟨hpeek, hstop⟩ := not_or.1 hrest
    rw [recovery_of_not_over hover]
    exact more hcurrent hpeek hstop s.advance hs rfl

/-! ## Operands -/

omit [TokenSource σ] in
/-- Each kind that starts an operand has one rule, and of all others it is reported that no
expression starts with them. -/
theorem ensures_operand {Q : Option Node → View σ → Prop}
    (noStart : x.current.kind ∉ Kind.opening → Q none (x.report x.current .noStart))
    (identifier : x.current.kind = .ident →
      Ensures (parse .identifier) x (fun n y => Q (some n) y) E)
    (integer : x.current.kind = .int → Ensures (parse .integerLiteral) x Q E)
    (boolean : x.current.kind = .trueWord ∨ x.current.kind = .falseWord →
      Ensures (parse .boolean) x (fun n y => Q (some n) y) E)
    (operator : x.current.kind ∈ Kind.prefixOperators →
      Ensures (parse .prefixExpression) x Q E)
    (group : x.current.kind = .leftParen → Ensures (parse .groupedExpression) x Q E)
    (conditional : x.current.kind = .ifWord → Ensures (parse .ifExpression) x Q E)
    (function : x.current.kind = .functionWord → Ensures (parse .functionLiteral) x Q E) :
    Ensures (operand parse) x Q E := by
  refine Ensures.get fun s hs hx => ?_
  subst hx
  -- in a state with the tables of the language the look-up is known
  rw [hs.1, RuleTable.find?_starting]
  have hview : s.view.current.kind = s.current.kind := rfl
  -- one case for each kind that a rule is for, and one for all others
  cases hkind : s.current.kind with
  | ident => exact Ensures.map (identifier hkind)
  | int => exact integer hkind
  | trueWord => exact Ensures.map (boolean (.inl hkind))
  | falseWord => exact Ensures.map (boolean (.inr hkind))
  | bang => exact operator (by rw [hview, hkind]; decide)
  | minus => exact operator (by rw [hview, hkind]; decide)
  | leftParen => exact group hkind
  | ifWord => exact conditional hkind
  | functionWord => exact function hkind
  | _ =>
    refine Ensures.bind (ensures_report (Ensures.pure (noStart ?_)))
    rw [hview, hkind, Kind.mem_opening]
    simp

omit [TokenSource σ] in
/-- The operand at a token for which a rule is known. -/
theorem ensures_operand_of_find? {r : Rule} {Q : Option Node → View σ → Prop}
    (hr : RuleTable.starting.find? x.current.kind = some r)
    (h : Ensures (applyStarting parse r) x Q E) : Ensures (operand parse) x Q E := by
  refine Ensures.get fun s hs hx => ?_
  subst hx
  have hfind : s.starting.find? s.current.kind = some r := by
    rw [hs.1]
    exact hr
  rw [hfind]
  exact h

omit [TokenSource σ] in
/-- A name is taken as it is written. -/
theorem ensures_identifier {Q : Node → View σ → Prop}
    (h : Q (.identifier x.current x.current.literal) x) : Ensures identifier x Q E := by
  refine Ensures.get fun s _ hx => ?_
  subst hx
  exact Ensures.pure h

omit [TokenSource σ] in
/-- A literal is read as an integer, or is reported, or is too long to be read, which is a fault. -/
theorem ensures_integerLiteral {Q : Option Node → View σ → Prop}
    (value : ∀ n, Numeral.read x.current.literal.toList = .integer n →
      Q (some (.integerLiteral x.current n)) x)
    (oversized : ∀ digits, Numeral.read x.current.literal.toList = .oversized digits →
      E (.oversizedInteger digits) x)
    (unreadable : Numeral.read x.current.literal.toList = .unreadable →
      Q none (x.report x.current .notInteger)) :
    Ensures integerLiteral x Q E := by
  refine Ensures.get fun s _ hx => ?_
  subst hx
  dsimp only
  -- the rule follows the three ways of reading a text
  split <;> rename_i hread
  · exact Ensures.pure (value _ hread)
  · exact Ensures.throw (oversized _ hread)
  · exact Ensures.bind (ensures_report (Ensures.pure (unreadable hread)))

omit [TokenSource σ] in
/-- Which of the two words it is tells the value. -/
theorem ensures_boolean {Q : Node → View σ → Prop}
    (h : Q (.boolean x.current (x.current.kind = .trueWord)) x) : Ensures boolean x Q E := by
  refine Ensures.get fun s _ hx => ?_
  subst hx
  exact Ensures.pure h

/-- The operand of a prefix operator is parsed with the bound of prefix operators. -/
theorem ensures_prefixExpression {Q : Option Node → View σ → Prop}
    (right : Ensures (parse (.expression 6)) x.advance
      (fun v y => Q (v.map fun n =>
        .prefixExpression x.current x.current.literal (some n)) y) E) :
    Ensures (prefixExpression parse) x Q E := by
  refine Ensures.get fun s _ hx => ?_
  subst hx
  refine Ensures.bind (ensures_advance ?_)
  refine Ensures.bind (right.imp_result fun v y h => ?_)
  cases v with
  | none => exact Ensures.pure h
  | some n => exact Ensures.pure h

/-- The right operand is parsed with the level of the operator as its bound, so that an operator of
the same level is left to the whole. -/
theorem ensures_infixExpression {left : Option Node} {Q : Option Node → View σ → Prop}
    (right : Ensures (parse (.expression x.current.kind.level)) x.advance
      (fun v y => Q (v.map fun n =>
        .infixExpression x.current left x.current.literal (some n)) y) E) :
    Ensures (infixExpression parse left) x Q E := by
  refine Ensures.get fun s _ hx => ?_
  subst hx
  refine Ensures.bind (ensures_advance ?_)
  refine Ensures.bind (right.imp_result fun v y h => ?_)
  cases v with
  | none => exact Ensures.pure h
  | some n => exact Ensures.pure h

/-- A group is what is inside of it. Without the closing parenthesis there is nothing. -/
theorem ensures_groupedExpression {Q : Option Node → View σ → Prop}
    (inside : Ensures (parse (.expression 1)) x.advance
      (fun v y =>
        (y.peek.kind = .rightParen → Q v y.advance) ∧
        (y.peek.kind ≠ .rightParen → Q none (y.report y.peek (.expected .rightParen)))) E) :
    Ensures (groupedExpression parse) x Q E := by
  refine Ensures.bind (ensures_advance ?_)
  refine Ensures.bind (inside.imp_result fun v y h => ?_)
  exact Ensures.bind (ensures_expect? (fun hclose => Ensures.pure (h.1 hclose))
    fun hclose => Ensures.pure (h.2 hclose))

/-! ## Conditionals and functions -/

/-- An alternative may be absent, which is not the same as one that could not be parsed. -/
theorem ensures_alternative {Q : Option (Option Node) → View σ → Prop}
    (absent : x.peek.kind ≠ .elseWord → Q (some none) x)
    (noBrace : x.peek.kind = .elseWord → x.advance.peek.kind ≠ .leftBrace →
      Q none (x.advance.report x.advance.peek (.expected .leftBrace)))
    (block : x.peek.kind = .elseWord → x.advance.peek.kind = .leftBrace →
      Ensures (parse .blockStatement) x.advance.advance
        (fun v y => Q (v.map some) y) E) :
    Ensures (alternative parse) x Q E := by
  refine Ensures.get fun s _ hx => ?_
  subst hx
  -- without an `else` nothing is read and nothing can fail
  by_cases helse : s.peek.kind = .elseWord
  · simp only [helse, if_true]
    refine Ensures.bind (ensures_advance ?_)
    refine Ensures.bind (ensures_expect? (fun hbrace => ?_)
      fun hbrace => Ensures.pure (noBrace helse hbrace))
    refine Ensures.bind ((block helse hbrace).imp_result fun v y h => ?_)
    cases v with
    | none => exact Ensures.pure h
    | some n => exact Ensures.pure h
  · simp only [helse, if_false]
    exact Ensures.pure (absent helse)

/-- A conditional has its parts one after the other, and at each step something may be missing: a
parenthesis, the brace of the first block, the block, the alternative. Only a condition that could
not be parsed is found out at the end. -/
theorem ensures_ifExpression {Q : Option Node → View σ → Prop}
    (noOpen : x.peek.kind ≠ .leftParen → Q none (x.report x.peek (.expected .leftParen)))
    (condition : x.peek.kind = .leftParen →
      Ensures (parse (.expression 1)) x.advance.advance
        (fun c y =>
          (y.peek.kind ≠ .rightParen → Q none (y.report y.peek (.expected .rightParen))) ∧
          (y.peek.kind = .rightParen → y.advance.peek.kind ≠ .leftBrace →
            Q none (y.advance.report y.advance.peek (.expected .leftBrace))) ∧
          (y.peek.kind = .rightParen → y.advance.peek.kind = .leftBrace →
            Ensures (parse .blockStatement) y.advance.advance
              (fun b z =>
                (b = none → Q none z) ∧
                (∀ consequence, b = some consequence →
                  Ensures (alternative parse) z
                    (fun a u => Q (a.bind fun other => c.map fun n =>
                      .ifExpression x.current (some n) (some consequence) other) u) E)) E)) E) :
    Ensures (ifExpression parse) x Q E := by
  refine Ensures.get fun s _ hx => ?_
  subst hx
  refine Ensures.bind (ensures_expect? (fun hopen => ?_) fun hopen => Ensures.pure (noOpen hopen))
  refine Ensures.bind (ensures_advance ?_)
  refine Ensures.bind ((condition hopen).imp_result fun c y h => ?_)
  obtain ⟨noClose, noBrace, block⟩ := h
  -- the parenthesis behind the condition, and the brace behind that
  refine Ensures.bind (ensures_expect? (fun hclose => ?_) fun hclose => Ensures.pure (noClose hclose))
  refine Ensures.bind (ensures_expect? (fun hbrace => ?_)
    fun hbrace => Ensures.pure (noBrace hclose hbrace))
  refine Ensures.bind ((block hclose hbrace).imp_result fun b z hb => ?_)
  cases b with
  | none => exact Ensures.pure (hb.1 rfl)
  | some consequence =>
    refine Ensures.bind ((hb.2 consequence rfl).imp_result fun a u ha => ?_)
    -- the tree needs both the condition and the alternative
    cases a with
    | none => exact Ensures.pure ha
    | some other =>
      cases c with
      | none => exact Ensures.pure ha
      | some n => exact Ensures.pure ha

/-- A function has its parameters and then its body, and there is none without both. -/
theorem ensures_functionLiteral {Q : Option Node → View σ → Prop}
    (noOpen : x.peek.kind ≠ .leftParen → Q none (x.report x.peek (.expected .leftParen)))
    (parameters : x.peek.kind = .leftParen →
      Ensures (parse .functionParameters) x.advance
        (fun ps y =>
          (ps = none → Q none y) ∧
          (∀ names, ps = some names → y.peek.kind ≠ .leftBrace →
            Q none (y.report y.peek (.expected .leftBrace))) ∧
          (∀ names, ps = some names → y.peek.kind = .leftBrace →
            Ensures (parse .blockStatement) y.advance
              (fun b z => Q (b.map fun body =>
                .functionLiteral x.current names (some body)) z) E)) E) :
    Ensures (functionLiteral parse) x Q E := by
  refine Ensures.get fun s _ hx => ?_
  subst hx
  refine Ensures.bind (ensures_expect? (fun hopen => ?_) fun hopen => Ensures.pure (noOpen hopen))
  refine Ensures.bind ((parameters hopen).imp_result fun ps y h => ?_)
  obtain ⟨failed, noBrace, block⟩ := h
  -- without parameters no brace is asked for
  cases ps with
  | none => exact Ensures.pure (failed rfl)
  | some names =>
    refine Ensures.bind (ensures_expect? (fun hbrace => ?_)
      fun hbrace => Ensures.pure (noBrace names rfl hbrace))
    refine Ensures.bind ((block names rfl hbrace).imp_result fun b z hb => ?_)
    cases b with
    | none => exact Ensures.pure hb
    | some body => exact Ensures.pure hb

/-! ## Lists -/

/-- A list of parameters is empty if the parenthesis is closed at once. -/
theorem ensures_functionParameters {Q : Option (List Node) → View σ → Prop}
    (empty : x.peek.kind = .rightParen → Q (some []) x.advance)
    (more : x.peek.kind ≠ .rightParen → Ensures (parse .parameters) x Q E) :
    Ensures (functionParameters parse) x Q E := by
  refine Ensures.get fun s _ hx => ?_
  subst hx
  by_cases hclose : s.peek.kind = .rightParen
  · simp only [hclose, if_true]
    exact Ensures.bind (ensures_advance (Ensures.pure (empty hclose)))
  · simp only [hclose, if_false]
    exact more hclose

/-- Otherwise it has names with commas between them, and a closing parenthesis behind the last
one. -/
theorem ensures_parameters {Q : Option (List Node) → View σ → Prop}
    (noName : x.peek.kind ≠ .ident → Q none (x.report x.peek (.expected .ident)))
    (more : x.peek.kind = .ident → x.advance.peek.kind = .comma →
      Ensures (parse .parameters) x.advance.advance
        (fun v y => Q (v.map (.identifier x.peek x.peek.literal :: ·)) y) E)
    (last : x.peek.kind = .ident → x.advance.peek.kind = .rightParen →
      Q (some [.identifier x.peek x.peek.literal]) x.advance.advance)
    (noClose : x.peek.kind = .ident → x.advance.peek.kind ≠ .comma →
      x.advance.peek.kind ≠ .rightParen →
      Q none (x.advance.report x.advance.peek (.expected .rightParen))) :
    Ensures (parameters parse) x Q E := by
  refine Ensures.bind (ensures_expect? (fun hname => ?_) fun hname => Ensures.pure (noName hname))
  refine Ensures.get fun s _ hs => ?_
  -- the view is behind the name by now
  have hpeek : s.peek = x.advance.peek := congrArg (·.peek) hs
  by_cases hcomma : x.advance.peek.kind = .comma
  · simp only [hpeek, hcomma, if_true]
    refine Ensures.bind (ensures_advance ?_)
    refine Ensures.bind ((more hname hcomma).imp_result fun v y h => ?_)
    cases v with
    | none => exact Ensures.pure h
    | some ns => exact Ensures.pure h
  · simp only [hpeek, hcomma, if_false]
    exact Ensures.bind (ensures_expect? (fun hclose => Ensures.pure (last hname hclose))
      fun hclose => Ensures.pure (noClose hname hcomma hclose))

/-- The items of a list are parsed one after the other, and there is a list only if all of them are
there and it is closed. -/
theorem ensures_expressionList {closing : Kind} {Q : Option (List Node) → View σ → Prop}
    (empty : x.peek.kind = closing → Q (some []) x.advance)
    (items : x.peek.kind ≠ closing →
      Ensures (parse .expressions) x.advance
        (fun vs y =>
          (y.peek.kind = closing → Q (vs.mapM id) y.advance) ∧
          (y.peek.kind ≠ closing → Q none (y.report y.peek (.expected closing)))) E) :
    Ensures (expressionList parse closing) x Q E := by
  refine Ensures.get fun s _ hx => ?_
  subst hx
  by_cases hclose : s.peek.kind = closing
  · simp only [hclose, if_true]
    exact Ensures.bind (ensures_advance (Ensures.pure (empty hclose)))
  · simp only [hclose, if_false]
    -- onto the first item
    refine Ensures.bind (ensures_advance ?_)
    refine Ensures.bind ((items hclose).imp_result fun vs y h => ?_)
    exact Ensures.bind (ensures_expect? (fun hclosed => Ensures.pure (h.1 hclosed))
      fun hclosed => Ensures.pure (h.2 hclosed))

/-- Whether there is a further item is decided by a comma, whatever came of the item before it. -/
theorem ensures_expressions {Q : List (Option Node) → View σ → Prop}
    (first : Ensures (parse (.expression 1)) x
      (fun v y =>
        (y.peek.kind = .comma →
          Ensures (parse .expressions) y.advance.advance (fun vs z => Q (v :: vs) z) E) ∧
        (y.peek.kind ≠ .comma → Q [v] y)) E) :
    Ensures (expressions parse) x Q E := by
  refine Ensures.bind (first.imp_result fun v y h => ?_)
  refine Ensures.get fun s _ hy => ?_
  subst hy
  by_cases hcomma : s.peek.kind = .comma
  · simp only [hcomma, if_true]
    -- over the item and its comma
    exact Ensures.bind (ensures_advance (Ensures.bind (ensures_advance
      (Ensures.map (h.1 hcomma)))))
  · simp only [hcomma, if_false]
    exact Ensures.pure (h.2 hcomma)

/-! ## Going on with an expression -/

omit [TokenSource σ] in
/-- A call has as its arguments what stands in the parentheses. -/
theorem ensures_callExpression {function : Option Node} {Q : Option Node → View σ → Prop}
    (arguments : Ensures (parse (.expressionList .rightParen)) x
      (fun v y => Q (v.map fun as =>
        .callExpression x.current function (as.map some)) y) E) :
    Ensures (callExpression parse function) x Q E := by
  refine Ensures.get fun s _ hx => ?_
  subst hx
  refine Ensures.bind (arguments.imp_result fun v y h => ?_)
  cases v with
  | none => exact Ensures.pure h
  | some as => exact Ensures.pure h

omit [TokenSource σ] in
/-- An expression is an operand and what it goes on with. -/
theorem ensures_expression {bound : Int} {Q : Option Node → View σ → Prop}
    (operand : Ensures (operand parse) x
      (fun v y =>
        (v = none → Q none y) ∧
        (∀ left, v = some left → Ensures (parse (.continuation bound left)) y Q E)) E) :
    Ensures (expression parse bound) x Q E := by
  refine Ensures.bind (operand.imp_result fun v y h => ?_)
  cases v with
  | none => exact Ensures.pure (h.1 rfl)
  | some left => exact h.2 left rfl

/-- An expression goes on with what binds tighter than the bound: with an operator or with a call,
which makes a longer left part that may go on in turn. -/
theorem ensures_continuation {bound : Int} {left : Node} {Q : Option Node → View σ → Prop}
    (done : x.peek.kind ∉ Kind.binding ∨ x.peek.kind.level ≤ bound → Q (some left) x)
    (operator : x.peek.kind ∈ Kind.infixOperators → bound < x.peek.kind.level →
      Ensures (parse (.infixExpression left)) x.advance
        (fun v y =>
          (v = none → Q none y) ∧
          (∀ longer, v = some longer →
            Ensures (parse (.continuation bound longer)) y Q E)) E)
    (call : x.peek.kind = .leftParen → bound < x.peek.kind.level →
      Ensures (parse (.callExpression left)) x.advance
        (fun v y =>
          (v = none → Q none y) ∧
          (∀ longer, v = some longer →
            Ensures (parse (.continuation bound longer)) y Q E)) E) :
    Ensures (continuation parse bound left) x Q E := by
  refine Ensures.get fun s hs hx => ?_
  subst hx
  by_cases hgoesOn : s.peek.kind ≠ .semicolon ∧ bound < s.peek.kind.level
  · rw [if_pos hgoesOn]
    -- the table holds the two rules, each at the kinds it is for
    have longer : ∀ r, s.continuing.find? s.peek.kind = some r →
        Ensures (applyContinuing parse left r) s.view.advance
          (fun v y => (v = none → Q none y) ∧
            (∀ longer, v = some longer →
              Ensures (parse (.continuation bound longer)) y Q E)) E := by
      intro r hfind
      rw [hs.2] at hfind
      rcases RuleTable.find?_continuing_eq_some hfind with ⟨hkind, rfl⟩ | ⟨hkind, rfl⟩
      · exact operator hkind hgoesOn.2
      · exact call hkind hgoesOn.2
    cases hfind : s.continuing.find? s.peek.kind with
    | none =>
      rw [hs.2] at hfind
      exact Ensures.pure (done (.inl (RuleTable.find?_continuing_eq_none hfind)))
    | some r =>
      refine Ensures.bind (ensures_advance ?_)
      refine Ensures.bind ((longer r hfind).imp_result fun v y h => ?_)
      cases v with
      | none => exact Ensures.pure (h.1 rfl)
      | some longer => exact h.2 longer rfl
  · rw [if_neg hgoesOn]
    refine Ensures.pure (done ?_)
    -- a semicolon binds nothing, and any other token here is too loose
    by_cases hsemicolon : s.view.peek.kind = .semicolon
    · exact .inl (by rw [hsemicolon]; decide)
    · exact .inr (Int.not_lt.1 fun hbound => hgoesOn ⟨hsemicolon, hbound⟩)

/-! ## All rules together -/

omit [TokenSource σ] in
theorem ensures_tracedGoal {g : Goal} {a : Parse σ g.Result} {Q : g.Result → View σ → Prop}
    (h : Ensures a x Q E) : Ensures (tracedGoal g a) x Q E := by
  unfold tracedGoal
  split
  · exact Ensures.traced h
  · exact h

/-- A rule of proof for a rule is one for a run with some fuel left. -/
theorem ensures_run_succ {fuel : Nat} {g : Goal} {Q : g.Result → View σ → Prop}
    (h : Ensures (step (run fuel) g) x Q E) : Ensures (run (fuel + 1) g) x Q E :=
  ensures_tracedGoal h

end Parse

end Pratt
