import Pratt.Proofs.Breaks

/-!
# Pratt — what a run makes of a text

A run of a goal has one of two outcomes, as long as it does not end in a fault.
Either it reports nothing: then it has read the tokens of a derivation, gives the
tree of that derivation, and stands before a token that does not go on with it
(`Accepted`, and the like for the other goals). Or it reports something: then the
first diagnostic is at the token at which the text breaks (`Rejected`).
`Goal.Outcome` says this for each goal.

What happens after a first diagnostic does not matter. A run that is once
rejected stays so, because it only goes forward (`Rejected.lasting`).
-/

namespace Pratt

variable {σ : Type} [TokenSource σ]

/-- From the window `w₀` on, an expression was read and its tree is given, with nothing reported.
The token behind it has at most the given level, and is no `else` that would be part of it. -/
def Accepted (c : Stratum) (level : Int) (w₀ : Window σ) (ds : List Diagnostic) (v : Option Node)
    (y : View σ) : Prop :=
  ∃ n e ts w, v = some n ∧ w₀.Reads ts w ∧ y.Before w ds ∧ Derives (.expression c e) ts n ∧
    w.current.kind.level ≤ level ∧ (e = .conditional → w.current.kind ≠ .elseWord)

/-- Something was reported, and the first diagnostic is at a token of which, and of the tokens from
the window `w₀` up to it, `B` holds. -/
def Rejected (B : List Token → Token → Prop) (w₀ : Window σ) (ds : List Diagnostic)
    (y : View σ) : Prop :=
  ∃ d later us w, y.diagnostics = ds ++ d :: later ∧ w₀.Reads us w ∧ w.current = d.token ∧
    B us d.token

namespace Rejected

variable {B B' : List Token → Token → Prop} {w₀ w₁ w : Window σ} {ds : List Diagnostic}
  {y z : View σ}

/-- Rejection at the token to be reported. -/
theorem report {token : Token} {cause : Cause} (us : List Token) (hds : y.diagnostics = ds)
    (hreads : w₀.Reads us w) (htoken : w.current = token) (hB : B us token) :
    Rejected B w₀ ds (y.report token cause) :=
  ⟨⟨token, cause⟩, [], us, w, by rw [View.diagnostics_report, hds], hreads, htoken, hB⟩

/-- What was rejected stays rejected. -/
theorem lasting : View.Lasting (Rejected B w₀ ds) := by
  intro y z h hz
  obtain ⟨d, later, us, w, hds, hreads, htoken, hB⟩ := h
  -- diagnostics are only ever added behind the first one
  obtain ⟨more, hmore⟩ := hz.2
  refine ⟨d, later ++ more, us, w, ?_, hreads, htoken, hB⟩
  rw [← hmore, hds, List.append_assoc, List.cons_append]

/-- Moving on does not undo a rejection. -/
theorem advance (h : Rejected B w₀ ds y) : Rejected B w₀ ds y.advance :=
  lasting.advance h

/-- A further diagnostic does not undo a rejection. -/
theorem again (h : Rejected B w₀ ds y) (token : Token) (cause : Cause) :
    Rejected B w₀ ds (y.report token cause) :=
  lasting.report h token cause

/-- Skipping a token does not undo a rejection. -/
theorem skip (h : Rejected B w₀ ds y) (optional : Kind) : Rejected B w₀ ds (y.skip optional) :=
  lasting.skip h optional

/-- No run of the parser undoes a rejection. -/
theorem run (h : Rejected B w₀ ds y) (fuel : Nat) (g : Goal) :
    Parse.Ensures (Parse.run fuel g) y (fun _ z => Rejected B w₀ ds z) fun _ _ => True :=
  lasting.run h (fun _ _ => trivial) fuel g

theorem alternative (h : Rejected B w₀ ds y) (fuel : Nat) :
    Parse.Ensures (Parse.alternative (Parse.run fuel)) y (fun _ z => Rejected B w₀ ds z)
      fun _ _ => True :=
  lasting.alternative h (fun _ _ => trivial) fuel

/-- A part that starts behind the tokens `ts` of a larger one. -/
theorem behind {ts : List Token} (h : Rejected B w₁ ds y) (hreads : w₀.Reads ts w₁)
    (hB : ∀ us t, B us t → B' (ts ++ us) t) : Rejected B' w₀ ds y := by
  obtain ⟨d, later, us, w, hds, hus, htoken, hBus⟩ := h
  exact ⟨d, later, ts ++ us, w, hds, hreads.append hus, htoken, hB us _ hBus⟩

/-- What is known of the window the part was read from may be used. -/
theorem imp (h : Rejected B w₀ ds y)
    (hB : ∀ us w, w₀.Reads us w → B us w.current → B' us w.current) : Rejected B' w₀ ds y := by
  obtain ⟨d, later, us, w, hds, hus, htoken, hBus⟩ := h
  -- the token of the diagnostic is the current one where reading ended
  rw [← htoken] at hBus
  exact ⟨d, later, us, w, hds, hus, htoken, htoken ▸ hB us w hus hBus⟩

end Rejected

/-- The outcome of an expression that is read with a bound, from the window `w₀` on. -/
def ExpressionOutcome (bound : Int) (w₀ : Window σ) (ds : List Diagnostic) (v : Option Node)
    (y : View σ) : Prop :=
  Accepted (.ofBound bound) bound w₀ ds v y ∨
    Rejected (Breaks (.expression (.ofBound bound))) w₀ ds y

/-- The outcome of an operand: an atom, or a unary operator with its operand. -/
def OperandOutcome (x : View σ) (v : Option Node) (y : View σ) : Prop :=
  (∃ c, Stratum.unary.rank ≤ c.rank ∧ Accepted c c.ceiling x.window x.diagnostics v y) ∨
    Rejected (Breaks (.expression .unary)) x.window x.diagnostics y

/-- The outcome of a statement. -/
def StatementOutcome (x : View σ) (v : Option Node) (y : View σ) : Prop :=
  (∃ n e ts w, v = some n ∧ x.window.Reads ts w ∧ y.Before w x.diagnostics ∧
    Derives (.statement e) ts n ∧ e.Stops w.current.kind ∧
      (e ≠ .semicolon → w.current.kind ≠ .semicolon)) ∨
    Rejected (Breaks .statement) x.window x.diagnostics y

/-- The outcome of a list after an opening parenthesis, of which `D` says how it can be derived and
`B` how it breaks. It ends on the closing parenthesis. -/
def ListOutcome (D : List Token → List Node → Prop) (B : List Token → Token → Prop) (x : View σ)
    (v : Option (List Node)) (y : View σ) : Prop :=
  (∃ ns ts w, v = some ns ∧ x.window.advance.Reads ts w ∧ y = ⟨w, x.diagnostics⟩ ∧ D ts ns ∧
    w.current.kind = .rightParen) ∨
    Rejected B x.window.advance x.diagnostics y

/-- A list breaks that may also be empty. -/
def BreaksList (p : Part) (ts : List Token) (t : Token) : Prop :=
  (ts = [] → t.kind ≠ .rightParen) ∧ Breaks p ts t

namespace Goal

/-- The goal is pursued where its rule is for: on the token that it starts with, or with a bound
that there is. -/
def Fits (x : View σ) : Goal → Prop
  | .letStatement => x.current.kind = .letWord
  | .returnStatement => x.current.kind = .returnWord
  | .expressionStatement => x.current.kind ≠ .letWord ∧ x.current.kind ≠ .returnWord
  | .blockStatement => x.current.kind = .leftBrace
  | .expression bound | .continuation bound _ => 1 ≤ bound
  | .integerLiteral => x.current.kind = .int
  | .prefixExpression => x.current.kind ∈ Kind.prefixOperators
  | .groupedExpression => x.current.kind = .leftParen
  | .ifExpression => x.current.kind = .ifWord
  | .functionLiteral => x.current.kind = .functionWord
  | .expressionList closing => closing = .rightParen
  | _ => True

/-- The outcome of a goal that is pursued from the view `x`. -/
def Outcome (x : View σ) : (g : Goal) → g.Result → View σ → Prop
  | .program, v, y =>
    (∃ ts w, x.window.Reads ts w ∧ y = ⟨w, x.diagnostics⟩ ∧ Derives .program ts v ∧
      w.current.kind = .eof) ∨
      Rejected (Breaks (.statements .eof)) x.window x.diagnostics y
  | .statements closer, v, y =>
    (∃ ts w, x.window.Reads ts w ∧ y = ⟨w, x.diagnostics⟩ ∧ Derives .statements ts v ∧
      (w.current.kind = closer ∨ w.current.kind = .eof)) ∨
      Rejected (Breaks (.statements closer)) x.window x.diagnostics y
  | .statement, v, y | .letStatement, v, y => StatementOutcome x v y
  | .returnStatement, v, y | .expressionStatement, v, y => StatementOutcome x (some v) y
  | .blockStatement, v, y =>
    (∃ n ts w, v = some n ∧ x.window.Reads ts w ∧ y.Before w x.diagnostics ∧
      Derives .block ts n) ∨
      Rejected (Breaks .block) x.window x.diagnostics y
  | .expression bound, v, y => ExpressionOutcome bound x.window x.diagnostics v y
  -- The left part may have been read from any window on.
  | .continuation bound left, v, y =>
    ∀ (c : Stratum) (e : Ending) (ts : List Token) (w₀ : Window σ),
      w₀.Reads ts x.window.advance → Derives (.expression c e) ts left →
      (Stratum.ofBound bound).rank ≤ c.rank → x.peek.kind.level ≤ c.ceiling →
      (e = .conditional → x.peek.kind ≠ .elseWord) →
      ExpressionOutcome bound w₀ x.diagnostics v y
  | .infixExpression left, v, y =>
    ∃ u, v = u.map (fun r => .infixExpression x.current left x.current.literal (some r)) ∧
      ExpressionOutcome x.current.kind.level x.window.advance x.diagnostics u y
  | .callExpression function, v, y =>
    ∃ u, v = u.map (fun ns => .callExpression x.current function (ns.map some)) ∧
      ListOutcome (Derives .arguments) (BreaksList .items) x u y
  | .identifier, v, y => v = .identifier x.current x.current.literal ∧ y = x
  | .boolean, v, y => v = .boolean x.current (x.current.kind = .trueWord) ∧ y = x
  | .integerLiteral, v, y | .prefixExpression, v, y | .groupedExpression, v, y
  | .ifExpression, v, y | .functionLiteral, v, y => OperandOutcome x v y
  | .functionParameters, v, y => ListOutcome (Derives .parameters) (BreaksList .names) x v y
  | .parameters, v, y => ListOutcome (Derives .names) (Breaks .names) x v y
  | .expressionList _, v, y => ListOutcome (Derives .arguments) (BreaksList .items) x v y
  | .expressions, v, y =>
    (∃ ns ts w, v = ns.map some ∧ x.window.Reads ts w ∧ y.Before w x.diagnostics ∧
      Derives .items ts ns ∧ (w.current.kind ≠ .rightParen → Breaks .items ts w.current)) ∨
      Rejected (Breaks .items) x.window x.diagnostics y
  | .recovery _, _, _ => True

end Goal

end Pratt
