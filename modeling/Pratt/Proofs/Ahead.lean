import Mathlib.Logic.Function.Iterate
import Pratt.Proofs.Ensures

/-!
# Pratt — the tokens ahead

`State.Ahead s ts` says that the tokens `ts` are the next ones a parser in the state `s` would move
onto. Moved as many times as there are, it is on the last of them, and nothing but its window has
changed.
-/

namespace Pratt.State

variable {σ : Type} [TokenSource σ]

/-- The tokens stand ahead, behind the current one. -/
def Ahead (s : State σ) (ts : List Token) : Prop :=
  ∃ w, s.advance.view.window.Reads ts w

variable {s : State σ} {t : Token} {ts : List Token}

theorem ahead_nil (s : State σ) : s.Ahead [] :=
  ⟨_, rfl⟩

/-- The first token ahead is seen at once, and the others after a move. -/
theorem ahead_cons : s.Ahead (t :: ts) ↔ s.peek = t ∧ s.advance.Ahead ts := by
  constructor
  · rintro ⟨w, hpeek, hts⟩
    exact ⟨hpeek, w, hts⟩
  · rintro ⟨hpeek, w, hts⟩
    exact ⟨w, hpeek, hts⟩

/-- What is ahead begins with any of its prefixes. -/
theorem Ahead.of_append {us : List Token} (h : s.Ahead (ts ++ us)) : s.Ahead ts :=
  have ⟨_, hreads⟩ := h
  have ⟨w, hts, _⟩ := Window.reads_append.1 hreads
  ⟨w, hts⟩

/-! Moved onto the last of some tokens ahead, the parser sees that token and the one behind it. -/

/-- After as many moves as there are tokens the last of them is the current one. -/
theorem current_of_ahead (h : s.Ahead ts) :
    (advance^[ts.length] s).current = ts.getLastD s.current := by
  induction ts generalizing s with
  | nil => rfl
  | cons t ts ih =>
    obtain ⟨hpeek, hts⟩ := ahead_cons.1 h
    rw [List.length_cons, Function.iterate_succ_apply, ih hts, List.getLastD_cons, ← hpeek]
    rfl

/-- After as many moves as there are tokens in front of it, a token is the next one. -/
theorem peek_of_ahead {d : Token} (h : s.Ahead (ts ++ [d])) :
    (advance^[ts.length] s).peek = d := by
  induction ts generalizing s with
  | nil => exact (ahead_cons.1 h).1
  | cons t ts ih => exact ih (ahead_cons.1 h).2

/-- Moves leave the journal alone. -/
theorem journal_iterate_advance (n : Nat) (s : State σ) :
    (advance^[n] s).journal = s.journal := by
  induction n generalizing s with
  | zero => rfl
  | succ n ih => exact ih s.advance

end Pratt.State
