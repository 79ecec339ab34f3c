import Pratt.Parser.Rules
import Pratt.Proofs.Window

/-!
# Pratt — what an action ensures

A `View` is the part of a parser's state that the grammar is about: the window
and the diagnostics so far. The entries of a trace, its depth, and whether there
is a trace at all are left out.

`Parse.Ensures a x Q E` says what comes of running an action `a` in any state
with the view `x` and the rule tables of the language: either it ends with a
result, and `Q` holds of the result and of the view then, or it ends in a fault,
and `E` holds of the fault and of the view then. The tables of the language are
still in place in both cases.

There is one rule of proof for each basic action (`ensures_advance`,
`ensures_expect?`, ...) and one for sequencing (`Ensures.bind`). Since a view
does not show a trace, neither do these rules: `Ensures.traced` removes it.
-/

namespace Pratt

namespace View

variable {σ : Type}

/-- The current token. -/
abbrev current (x : View σ) : Token := x.window.current

/-- The token after the current one. -/
abbrev peek (x : View σ) : Token := x.window.peek

/-- The view after a diagnostic. -/
def report (x : View σ) (token : Token) (cause : Cause) : View σ :=
  { x with diagnostics := x.diagnostics ++ [⟨token, cause⟩] }

variable [TokenSource σ]

/-- The view with the window moved on by one token. -/
def advance (x : View σ) : View σ :=
  { x with window := x.window.advance }

/-- The view with the window moved on over the next token when that is of the given kind. -/
def skip (x : View σ) (optional : Kind) : View σ :=
  if x.peek.kind = optional then x.advance else x

omit [TokenSource σ] in
@[simp] theorem window_report (x : View σ) (token : Token) (cause : Cause) :
    (x.report token cause).window = x.window := rfl

omit [TokenSource σ] in
@[simp] theorem diagnostics_report (x : View σ) (token : Token) (cause : Cause) :
    (x.report token cause).diagnostics = x.diagnostics ++ [⟨token, cause⟩] := rfl

@[simp] theorem window_advance (x : View σ) : x.advance.window = x.window.advance := rfl

@[simp] theorem diagnostics_advance (x : View σ) : x.advance.diagnostics = x.diagnostics := rfl

/-- Skipping a token reports nothing. -/
@[simp] theorem diagnostics_skip (x : View σ) (optional : Kind) :
    (x.skip optional).diagnostics = x.diagnostics := by
  unfold skip
  split <;> rfl

/-- A token of the given kind is moved on to. -/
theorem skip_of_eq {x : View σ} {optional : Kind} (h : x.peek.kind = optional) :
    x.skip optional = x.advance := if_pos h

/-- Where another one comes next, nothing is done. -/
theorem skip_of_ne {x : View σ} {optional : Kind} (h : x.peek.kind ≠ optional) :
    x.skip optional = x := if_neg h

end View

namespace State

variable {σ : Type}

/-- The rule tables of the state are those of the language. -/
def Standard (s : State σ) : Prop :=
  s.starting = .starting ∧ s.continuing = .continuing

@[simp] theorem view_advance [TokenSource σ] (s : State σ) : s.advance.view = s.view.advance := rfl

/-- The start of a rule is in the trace and in no view. -/
@[simp] theorem view_enter (s : State σ) (r : Rule) : (s.enter r).view = s.view := by
  simp only [view, diagnostics_enter]
  rfl

/-- The end of a rule is in the trace and in no view. -/
@[simp] theorem view_leave (s : State σ) (r : Rule) : (s.leave r).view = s.view := by
  simp only [view, diagnostics_leave]
  rfl

/-- A diagnostic is seen. -/
theorem view_record (s : State σ) (token : Token) (cause : Cause) :
    (s.record (.diagnostic ⟨token, cause⟩)).view = s.view.report token cause := by
  simp only [view, diagnostics_record]
  rfl

end State

namespace Parse

variable {σ α β : Type}

/-- How a run ends: with a result and a view of which `Q` holds, or with a fault and a view of which
`E` holds, and in either case with the tables of the language. -/
def Ends (Q : α → View σ → Prop) (E : Fault → View σ → Prop) :
    EStateM.Result Fault (State σ) α → Prop
  | .ok v s => s.Standard ∧ Q v s.view
  | .error e s => s.Standard ∧ E e s.view

/-- How an action ends in any state with the view `x` and the tables of the language. -/
def Ensures (a : Parse σ α) (x : View σ) (Q : α → View σ → Prop) (E : Fault → View σ → Prop) :
    Prop :=
  ∀ s : State σ, s.Standard → s.view = x → Ends Q E (a s)

variable {x : View σ} {Q Q' : α → View σ → Prop} {E E' : Fault → View σ → Prop}

/-! ## Sequencing -/

/-- What is known of the end of an action may be weakened. -/
theorem Ensures.imp {a : Parse σ α} (h : Ensures a x Q E) (result : ∀ v y, Q v y → Q' v y)
    (fault : ∀ e y, E e y → E' e y) : Ensures a x Q' E' := by
  intro s hs hx
  have ends := h s hs hx
  cases hrun : a s with
  | ok v s' =>
    rw [hrun] at ends
    exact ⟨ends.1, result v s'.view ends.2⟩
  | error e s' =>
    rw [hrun] at ends
    exact ⟨ends.1, fault e s'.view ends.2⟩

/-- What is known of a result may be weakened alone. -/
theorem Ensures.imp_result {a : Parse σ α} (h : Ensures a x Q E)
    (result : ∀ v y, Q v y → Q' v y) : Ensures a x Q' E :=
  h.imp result fun _ _ he => he

/-- What is known of the end of an action may be put together. -/
theorem Ensures.and {a : Parse σ α} (h : Ensures a x Q E) (h' : Ensures a x Q' E') :
    Ensures a x (fun v y => Q v y ∧ Q' v y) (fun e y => E e y ∧ E' e y) := by
  intro s hs hx
  have ends := h s hs hx
  have ends' := h' s hs hx
  cases hrun : a s with
  | ok v s' =>
    rw [hrun] at ends ends'
    exact ⟨ends.1, ends.2, ends'.2⟩
  | error e s' =>
    rw [hrun] at ends ends'
    exact ⟨ends.1, ends.2, ends'.2⟩

/-- An action that only gives a value ends where it starts. -/
theorem Ensures.pure {v : α} (h : Q v x) : Ensures (Pure.pure v) x Q E := by
  intro s hs hx
  subst hx
  exact ⟨hs, h⟩

/-- An action that only raises a fault ends where it starts. -/
theorem Ensures.throw {e : Fault} (h : E e x) : Ensures (MonadExcept.throw e : Parse σ α) x Q E := by
  intro s hs hx
  subst hx
  exact ⟨hs, h⟩

/-- The rule of sequence. What comes next is shown from every view in which the first action may end
with a result; a fault of it is one of the whole. -/
theorem Ensures.bind {a : Parse σ α} {f : α → Parse σ β} {R : β → View σ → Prop}
    (h : Ensures a x (fun v y => Ensures (f v) y R E) E) : Ensures (a >>= f) x R E := by
  intro s hs hx
  have ends := h s hs hx
  show Ends R E (EStateM.bind a f s)
  unfold EStateM.bind
  cases hrun : a s with
  | ok v s' =>
    rw [hrun] at ends
    -- the second action goes on from the view in which the first one ended
    exact ends.2 s' ends.1 rfl
  | error e s' =>
    rw [hrun] at ends
    exact ends

/-- What depends on the state of the parser may depend on what the view shows of it and on the
tables. -/
theorem Ensures.get {f : State σ → Parse σ α}
    (h : ∀ s : State σ, s.Standard → s.view = x → Ensures (f s) x Q E) :
    Ensures (MonadState.get >>= f) x Q E := by
  intro s hs hx
  exact h s hs hx s hs hx

/-- What an action ensures does not depend on whether its rule is traced. -/
theorem Ensures.traced {a : Parse σ α} {r : Rule} (h : Ensures a x Q E) :
    Ensures (traced r a) x Q E := by
  intro s hs hx
  -- the entries of a trace are in no view
  by_cases htrace : (s.tracing && r.isTraced) = true
  · -- inside of the rule, from the state in which it is entered
    have ends := h (s.enter r) hs (by rw [State.view_enter, hx])
    rw [traced_of_shown htrace]
    cases hrun : a (s.enter r) with
    | ok v s' =>
      rw [hrun] at ends
      exact ⟨ends.1, by rw [State.view_leave]; exact ends.2⟩
    | error e s' =>
      rw [hrun] at ends
      exact ⟨ends.1, by rw [State.view_leave]; exact ends.2⟩
  · rw [traced_of_not_shown htrace]
    exact h s hs hx

/-! ## Basic actions -/

/-- A diagnostic is added to the view, and the window stays where it is. -/
theorem ensures_report {token : Token} {cause : Cause} {Q : Unit → View σ → Prop}
    (h : Q () (x.report token cause)) : Ensures (report token cause) x Q E := by
  intro s hs hx
  subst hx
  exact ⟨hs, by rw [State.view_record]; exact h⟩

variable [TokenSource σ]

/-- The window is moved on, and nothing is reported. -/
theorem ensures_advance {Q : Unit → View σ → Prop} (h : Q () x.advance) :
    Ensures advance x Q E := by
  intro s hs hx
  subst hx
  exact ⟨hs, h⟩

/-- A token of the kind wanted is moved on to and given. Any other one stays ahead and is
reported. -/
theorem ensures_expect? {wanted : Kind} {Q : Option Token → View σ → Prop}
    (found : x.peek.kind = wanted → Q (some x.peek) x.advance)
    (missing : x.peek.kind ≠ wanted → Q none (x.report x.peek (.expected wanted))) :
    Ensures (expect? wanted) x Q E := by
  intro s hs hx
  subst hx
  -- found or missing, as the state says
  by_cases hpeek : s.peek.kind = wanted
  · rw [expect?_of_eq hpeek]
    exact ⟨hs, found hpeek⟩
  · rw [expect?_of_ne hpeek]
    exact ⟨hs, by rw [State.view_record]; exact missing hpeek⟩

/-- An optional token is moved on to in silence, or left where it is. -/
theorem ensures_skipOptional {optional : Kind} {Q : Unit → View σ → Prop}
    (h : Q () (x.skip optional)) : Ensures (skipOptional optional) x Q E := by
  intro s hs hx
  subst hx
  rw [skipOptional_eq]
  by_cases hpeek : s.peek.kind = optional
  · rw [if_pos hpeek]
    rw [View.skip_of_eq hpeek] at h
    exact ⟨hs, h⟩
  · rw [if_neg hpeek]
    rw [View.skip_of_ne hpeek] at h
    exact ⟨hs, h⟩

end Parse

end Pratt
