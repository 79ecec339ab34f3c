import Pratt.Parser.Rules

/-!
# Pratt — parsing programs

`parseProgram` parses what a source of tokens holds. It gives the tree and the
state in which the parser ends, whose journal has the diagnostics. `parse` does
so for a text, whose tokens are read as they are needed; a strict parse refuses
a text with diagnostics.
-/

namespace Pratt

/-- What an action ends with, and the state afterwards. -/
def Parse.outcome {σ α : Type} (action : Parse σ α) (s : State σ) : Except Fault α × State σ :=
  match action s with
  | .ok a s' => (.ok a, s')
  | .error e s' => (.error e, s')

theorem Parse.eq_ok_of_outcome {σ α : Type} {action : Parse σ α} {s t : State σ} {a : α}
    (h : action.outcome s = (.ok a, t)) : action s = .ok a t := by
  unfold outcome at h
  cases hrun : action s with
  | ok a' t' =>
    rw [hrun] at h
    cases h
    rfl
  | error e t' =>
    rw [hrun] at h
    cases h

/-- Parses all that a source holds. -/
def parseProgram {σ : Type} [TokenSource σ] (source : σ) (tracing : Bool) :
    Except Fault Node × State σ :=
  (Parse.perform .program).outcome (.start source tracing)

/-- Why a text is not accepted. -/
inductive Refusal where
  | fault (f : Fault)
  /-- A strict parse found something wrong. -/
  | rejected (first : Diagnostic) (others : List Diagnostic)
  deriving DecidableEq, Repr

/-- The text of a refusal. -/
def Refusal.message : Refusal → String
  | .fault f => f.message
  | .rejected first others =>
    toString (others.length + 1) ++ " parse error(s); first: " ++ first.message

/-- The verdict on a finished parse. -/
def verdict (strict : Bool) (tree : Node) : List Diagnostic → Except Refusal Node
  | [] => .ok tree
  | first :: others => if strict then .error (.rejected first others) else .ok tree

/-- Parses a text. Gives the tree or the reason for there being none, and the journal. -/
def parse (source : String) (strict tracing : Bool) : Except Refusal Node × List Event :=
  let (result, s) := parseProgram (Cursor.ofString source) tracing
  let answer :=
    match result with
    | .ok tree => verdict strict tree s.diagnostics
    | .error f => .error (.fault f)
  (answer, s.journal.toList)

/-- A strict verdict is a rejection exactly if something was reported. -/
theorem verdict_rejected_iff {tree : Node} {ds : List Diagnostic} :
    (∃ first others, verdict true tree ds = .error (.rejected first others)) ↔ ds ≠ [] := by
  cases ds <;> simp [verdict]

/-- A strict parse refuses a text exactly if something was reported. -/
theorem parse_rejected_iff {source : String} {tracing : Bool} :
    (∃ first others, (parse source true tracing).1 = .error (.rejected first others)) ↔
      ∃ tree s, parseProgram (Cursor.ofString source) tracing = (.ok tree, s) ∧
        s.diagnostics ≠ [] := by
  unfold parse
  cases hrun : parseProgram (Cursor.ofString source) tracing with
  | mk result s =>
    cases result with
    | error f => simp
    | ok tree =>
      -- a run has one result, so the tree and the diagnostics are those of this run
      refine Iff.trans (@verdict_rejected_iff tree s.diagnostics) ⟨fun hds => ⟨tree, s, rfl, hds⟩, ?_⟩
      rintro ⟨tree', s', heq, hds⟩
      cases heq
      exact hds

end Pratt
