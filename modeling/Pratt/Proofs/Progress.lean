import Pratt.Parser.Program
import Pratt.Proofs.Composition
import Pratt.Proofs.Rules

/-!
# Pratt — a run only goes forward

A run moves the window on and adds diagnostics, and does nothing else to what a
view shows: the view after it `Follows` the view before it. The basic actions do
so, hence all that is put together from them does (`Parse.Parallel.forward`), and
so every goal, with any amount of fuel, and also when the run ends in a fault.

The goals that begin by moving the window are behind their first move then;
`Goal.entry` is the view from which a goal goes on (`ensures_run_follows`).

A property of views that lasts, such as that a diagnostic has been reported,
therefore outlives every run (`View.Lasting.run`).
-/

namespace Pratt

variable {σ : Type} [TokenSource σ]

/-- The second view is the first one after reading some tokens and reporting some diagnostics. -/
def View.Follows (x y : View σ) : Prop :=
  (∃ ts, x.window.Reads ts y.window) ∧ x.diagnostics <+: y.diagnostics

namespace View.Follows

variable {x y z : View σ}

theorem refl (x : View σ) : x.Follows x :=
  ⟨⟨[], rfl⟩, List.prefix_refl _⟩

/-- What is read and reported on the way adds up. -/
theorem trans (hxy : x.Follows y) (hyz : y.Follows z) : x.Follows z := by
  obtain ⟨⟨ts, hts⟩, hds⟩ := hxy
  obtain ⟨⟨us, hus⟩, hes⟩ := hyz
  exact ⟨⟨ts ++ us, hts.append hus⟩, hds.trans hes⟩

/-- The token that is moved on from has been read. -/
theorem advance (h : x.Follows y) : x.Follows y.advance := by
  obtain ⟨⟨ts, hts⟩, hds⟩ := h
  exact ⟨⟨ts ++ [y.current], hts.concat⟩, hds⟩

theorem report (h : x.Follows y) (token : Token) (cause : Cause) :
    x.Follows (y.report token cause) :=
  ⟨h.1, h.2.trans (List.prefix_append ..)⟩

theorem skip (h : x.Follows y) (optional : Kind) : x.Follows (y.skip optional) := by
  unfold View.skip
  split
  · exact h.advance
  · exact h

end View.Follows

/-- The view from which a goal goes on: behind the current token, for the goals that begin by moving
on from it whatever comes next. -/
def Goal.entry (x : View σ) : Goal → View σ
  | .infixExpression _ | .callExpression _ | .expressionList _ => x.advance
  | _ => x

/-- A goal goes on from where it starts, or from one token further on. -/
theorem Goal.follows_entry (g : Goal) (x : View σ) : x.Follows (g.entry x) := by
  unfold Goal.entry
  -- three goals that move on, and all others
  split
  · exact (View.Follows.refl x).advance
  · exact (View.Follows.refl x).advance
  · exact (View.Follows.refl x).advance
  · exact View.Follows.refl x

namespace Parse

/-- The action goes forward from everywhere, whether it ends with a result or in a fault. -/
def Forward {α : Type} (a : Parse σ α) : Prop :=
  ∀ x : View σ, Ensures a x (fun _ y => x.Follows y) fun _ y => x.Follows y

/-- All that is put together from the basic actions and from goals goes forward, if the goals do. -/
theorem Parallel.forward {α β : Type} {p q : Recur σ} {V : α → β} {a : Parse σ α} {b : Parse σ β}
    (sub : ∀ g, Forward (p g)) (h : Parallel .identity p q V a b) : Forward a := by
  -- of the two actions only the first one matters here
  induction h with
  | pure => exact fun x => Ensures.pure (.refl x)
  | throw => exact fun x => Ensures.throw (.refl x)
  | bind _ _ ih ih' =>
    intro x
    refine Ensures.bind ((ih x).imp_result fun v y hy => ?_)
    exact (ih' v y).imp (fun _ _ hz => hy.trans hz) fun _ _ hz => hy.trans hz
  | get _ ih => exact fun x => Ensures.get fun s _ _ => ih s s (.of_same rfl rfl rfl rfl) x
  | report => exact fun x => ensures_report ((View.Follows.refl x).report _ _)
  | advance => exact fun x => ensures_advance (View.Follows.refl x).advance
  | traced _ _ ih => exact fun x => Ensures.traced (ih x)
  | pursue g => exact sub g

/-- A run goes forward. -/
theorem forward_run (fuel : Nat) (g : Goal) : Forward (run fuel g : Parse σ g.Result) := by
  -- on the fuel, for every goal at once
  induction fuel generalizing g with
  | zero => exact fun x => Ensures.throw (.refl x)
  | succ fuel ih =>
    exact fun x => ensures_run_succ
      ((Parallel.step (q := run fuel) g fun _ => Respelling.verbatim_identity).forward ih x)

/-- A run goes forward, whether it ends with a result or in a fault, and a result is behind the entry
of the goal. -/
theorem ensures_run_follows (fuel : Nat) (g : Goal) (x : View σ) :
    Ensures (run fuel g) x (fun _ y => (g.entry x).Follows y) (fun _ y => x.Follows y) := by
  induction fuel generalizing g x with
  | zero => exact Ensures.throw (.refl x)
  | succ fuel ih =>
    have moved := (View.Follows.refl x).advance
    -- only the rules that start behind the current token say more than that the run goes forward
    have sub : ∀ g, Ensures (run fuel g) x.advance (fun _ y => x.advance.Follows y)
        fun _ y => x.Follows y :=
      fun g => (forward_run fuel g x.advance).imp (fun _ _ h => h) fun _ _ h => moved.trans h
    cases g with
    | infixExpression left => exact ensures_run_succ (ensures_infixExpression (sub _))
    | callExpression function =>
      exact ensures_run_succ (ensures_callExpression (ih (.expressionList .rightParen) x))
    | expressionList closing =>
      refine ensures_run_succ (ensures_expressionList (fun _ => .refl x.advance) fun _ => ?_)
      exact (sub .expressions).imp_result fun _ _ h => ⟨fun _ => h.advance, fun _ => h.report _ _⟩
    | _ => exact forward_run (fuel + 1) _ x

/-- Wherever a goal ends, the tables are those of the language and the view follows. -/
theorem follows_outcome {s : State σ} (hs : s.Standard) (g : Goal) :
    ((perform g).outcome s).2.Standard ∧ s.view.Follows ((perform g).outcome s).2.view := by
  have ends := ensures_run_follows (enough s) g s.view s hs rfl
  unfold outcome perform
  cases hrun : run (enough s) g s with
  | ok v t =>
    rw [hrun] at ends
    exact ⟨ends.1, (g.follows_entry s.view).trans ends.2⟩
  | error e t =>
    rw [hrun] at ends
    exact ends

end Parse

/-! ## What lasts -/

/-- What holds of a view holds of all views that follow it. -/
def View.Lasting (P : View σ → Prop) : Prop :=
  ∀ ⦃y z : View σ⦄, P y → y.Follows z → P z

namespace View.Lasting

variable {P : View σ → Prop} {y : View σ} {E : Fault → View σ → Prop}

theorem advance (hP : Lasting P) (h : P y) : P y.advance :=
  hP h (Follows.refl y).advance

theorem report (hP : Lasting P) (h : P y) (token : Token) (cause : Cause) :
    P (y.report token cause) :=
  hP h ((Follows.refl y).report token cause)

theorem skip (hP : Lasting P) (h : P y) (optional : Kind) : P (y.skip optional) :=
  hP h ((Follows.refl y).skip optional)

/-- It holds after any run, unless that ends in a fault. -/
theorem run (hP : Lasting P) (h : P y) (hE : ∀ e z, E e z) (fuel : Nat) (g : Goal) :
    Parse.Ensures (Parse.run fuel g) y (fun _ z => P z) E :=
  (Parse.ensures_run_follows fuel g y).imp
    (fun _ _ hz => hP h ((g.follows_entry y).trans hz)) fun e z _ => hE e z

/-- It holds behind an alternative, which is no goal of its own. -/
theorem alternative (hP : Lasting P) (h : P y) (hE : ∀ e z, E e z) (fuel : Nat) :
    Parse.Ensures (Parse.alternative (Parse.run fuel)) y (fun _ z => P z) E :=
  Parse.ensures_alternative (fun _ => h) (fun _ _ => hP.report (hP.advance h) _ _)
    fun _ _ => hP.run (hP.advance (hP.advance h)) hE fuel _

end View.Lasting

end Pratt
