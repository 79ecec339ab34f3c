import Mathlib.Data.List.Induction
import Pratt.Proofs.Ahead
import Pratt.Proofs.Fuel

/-!
# Pratt — what a skip passes over

A parser in any state, with any tables, skips what is ahead up to the first place where the skip is
over (`State.Over`): the end of the input, or outside of the braces opened on the way a semicolon,
or what closes a block or begins a statement with a word. It moves its window there and does nothing
else (`Parse.exists_skips`).

That it is the first such place says all about the tokens in between. In front of a closing brace
the skip is over, unless one opened on the way is still open, so the braces never close more than
was opened (`State.Skips.unclosed_nonneg`). For the same reason nothing that ends a skip stands
outside of them, but for a semicolon at the very end (`State.Skips.outside`).
-/

namespace Pratt

/-! ## Braces -/

/-- How many more braces the tokens open than they close. -/
def unclosed (ts : List Token) : Int :=
  ts.countP (·.kind = .leftBrace) - ts.countP (·.kind = .rightBrace)

@[simp] theorem unclosed_nil : unclosed [] = 0 := rfl

/-- What two stretches leave open adds up. -/
theorem unclosed_append (ts us : List Token) : unclosed (ts ++ us) = unclosed ts + unclosed us := by
  simp only [unclosed, List.countP_append]
  omega

/-- The first token counts by itself. -/
theorem unclosed_cons (t : Token) (ts : List Token) :
    unclosed (t :: ts) = unclosed [t] + unclosed ts :=
  unclosed_append [t] ts

/-- An opening brace opens one. -/
theorem unclosed_leftBrace {t : Token} (h : t.kind = .leftBrace) : unclosed [t] = 1 := by
  simp [unclosed, h]

/-- A closing brace closes one. -/
theorem unclosed_rightBrace {t : Token} (h : t.kind = .rightBrace) : unclosed [t] = -1 := by
  simp [unclosed, h]

/-- Any other token leaves the count as it is. -/
theorem unclosed_of_ne {t : Token} (hopening : t.kind ≠ .leftBrace)
    (hclosing : t.kind ≠ .rightBrace) : unclosed [t] = 0 := by
  simp [unclosed, hopening, hclosing]

/-- Only a closing brace closes anything. -/
theorem unclosed_nonneg_of_ne {t : Token} (h : t.kind ≠ .rightBrace) : 0 ≤ unclosed [t] := by
  by_cases hopening : t.kind = .leftBrace
  · rw [unclosed_leftBrace hopening]
    decide
  · exact Int.le_of_eq (unclosed_of_ne hopening h).symm

/-- The depth counted by the skip, unless it is at a closing brace outside of all others. -/
theorem Kind.depthAfter_eq_add_unclosed {depth : Nat} {t : Token}
    (h : depth = 0 → t.kind ≠ .rightBrace) :
    (t.kind.depthAfter depth : Int) = depth + unclosed [t] := by
  -- the three ways in which the depth changes
  by_cases hopening : t.kind = .leftBrace
  · rw [unclosed_leftBrace hopening, hopening]
    rfl
  by_cases hclosing : t.kind = .rightBrace
  · have inside : depth ≠ 0 := fun houter => h houter hclosing
    rw [unclosed_rightBrace hclosing, hclosing]
    show ((depth - 1 : Nat) : Int) = depth + -1
    omega
  · rw [unclosed_of_ne hopening hclosing, depthAfter_of_ne hopening hclosing, Int.add_zero]

variable {σ : Type} [TokenSource σ]

/-! ## Where a skip is over -/

namespace State

/-- A skip that is inside this many braces is over. -/
def Over (depth : Int) (s : State σ) : Prop :=
  s.current.kind = .eof ∨ s.peek.kind = .eof ∨
    depth = 0 ∧ (s.current.kind = .semicolon ∨
      s.peek.kind ∈ [Kind.rightBrace, .letWord, .returnWord])

/-- The tokens ahead that a skip from inside `depth` braces moves onto: behind them it is over, and
nowhere before. -/
structure Skips (depth : Int) (s : State σ) (ts : List Token) : Prop where
  ahead : s.Ahead ts
  ends : (advance^[ts.length] s).Over (depth + unclosed ts)
  before : ∀ us t vs, ts = us ++ t :: vs → ¬(advance^[us.length] s).Over (depth + unclosed us)

variable {s : State σ} {depth : Int} {t : Token} {ts us vs : List Token}

omit [TokenSource σ] in
/-- The condition with a depth that is a natural number, as the rule has it. -/
theorem over_natCast {depth : Nat} : s.Over depth ↔
    s.current.kind = .eof ∨ s.peek.kind = .eof ∨ depth = 0 ∧ (s.current.kind = .semicolon ∨
      s.peek.kind ∈ [Kind.rightBrace, .letWord, .returnWord]) := by
  rw [Over, Int.natCast_eq_zero]

omit [TokenSource σ] in
/-- Where a skip is over, another one is over from the start. -/
theorem Over.again (h : s.Over depth) : s.Over 0 :=
  h.imp_right fun hrest => hrest.imp_right fun houter => ⟨rfl, houter.2⟩

namespace Skips

/-- Where the skip is over nothing is skipped. -/
theorem nil (h : s.Over depth) : s.Skips depth [] where
  ahead := ahead_nil s
  ends := by rwa [unclosed_nil, Int.add_zero]
  before us t vs hts := absurd hts (by simp)

/-- Where it is not over, the next token is skipped, and the rest from there. -/
theorem cons (hs : ¬s.Over depth) (h : s.advance.Skips (depth + unclosed [s.peek]) ts) :
    s.Skips depth (s.peek :: ts) where
  ahead := ahead_cons.2 ⟨rfl, h.ahead⟩
  ends := by
    rw [unclosed_cons, ← Int.add_assoc]
    exact h.ends
  before us t vs hts := by
    cases us with
    | nil => rwa [unclosed_nil, Int.add_zero]
    | cons u us =>
      obtain ⟨rfl, htail⟩ := List.cons.inj hts
      rw [unclosed_cons, ← Int.add_assoc]
      exact h.before us t vs htail

/-- A token that is skipped stands ahead, behind those skipped before it. -/
theorem ahead_concat (h : s.Skips depth (us ++ t :: vs)) : s.Ahead (us ++ [t]) := by
  have hall := h.ahead
  rw [List.append_cons] at hall
  exact hall.of_append

/-- In front of each token the skip goes on. -/
theorem goesOn (h : s.Skips depth (us ++ t :: vs)) (houter : depth + unclosed us = 0) :
    t.kind ∉ [Kind.rightBrace, .letWord, .returnWord] := by
  intro hstopper
  refine h.before us t vs rfl (.inr (.inr ⟨houter, .inr ?_⟩))
  rwa [peek_of_ahead h.ahead_concat]

/-- Among the tokens that are skipped, no more braces are closed than were opened. -/
theorem unclosed_nonneg (h : s.Skips 0 (us ++ vs)) : 0 ≤ unclosed us := by
  -- from the last token on: whether it can close a brace depends on those before it
  induction us using List.reverseRecOn generalizing vs with
  | nil => exact Int.le_refl 0
  | append_singleton us t ih =>
    rw [List.append_assoc] at h
    have hbefore : 0 ≤ unclosed us := ih h
    rw [unclosed_append]
    by_cases hclosing : t.kind = .rightBrace
    · -- the skip moved onto it, so it was inside of a brace
      have hopen : unclosed us ≠ 0 := by
        intro houter
        refine h.goesOn (by rw [houter, Int.add_zero]) ?_
        simp [hclosing]
      -- one of those that are open is closed now
      rw [unclosed_rightBrace hclosing]
      omega
    · exact Int.add_nonneg hbefore (unclosed_nonneg_of_ne hclosing)

/-- Outside of the braces opened on the way there is nothing that ends a skip, but for a semicolon
at the end of it. -/
theorem outside (h : s.Skips 0 (us ++ t :: vs)) (houter : unclosed us = 0) :
    t.kind ∉ [Kind.rightBrace, .letWord, .returnWord] ∧ (t.kind = .semicolon → vs = []) := by
  refine ⟨h.goesOn (by rw [houter, Int.add_zero]), fun hsemicolon => ?_⟩
  cases vs with
  | nil => rfl
  | cons v vs =>
    -- had it gone on behind the semicolon, it would have been over there
    have hcurrent : (advance^[(us ++ [t]).length] s).current = t := by
      rw [current_of_ahead h.ahead_concat, List.getLastD_concat]
    have hunclosed : (0 : Int) + unclosed (us ++ [t]) = 0 := by
      rw [unclosed_append, houter, unclosed_of_ne (by simp [hsemicolon]) (by simp [hsemicolon])]
      rfl
    -- the semicolon is current there, and no brace is open
    refine absurd (.inr (.inr ⟨hunclosed, .inl ?_⟩)) (h.before (us ++ [t]) v vs (by simp))
    rw [hcurrent, hsemicolon]

end Skips

end State

/-! ## The skip -/

namespace Parse

variable [LawfulTokenSource σ] {s : State σ} {depth : Nat}

/-- A skip comes to its end as the source does. -/
theorem exists_skips {fuel : Nat} (depth : Nat) (hfuel : s.view.window.ahead < fuel) :
    ∃ ts, s.Skips depth ts ∧
      run fuel (.recovery depth) s = .ok () (State.advance^[ts.length] s) := by
  -- on the fuel, as which tokens are skipped is only known at the end
  induction fuel generalizing s depth with
  | zero => exact absurd hfuel (Nat.not_lt_zero _)
  | succ fuel ih =>
    by_cases hover : s.Over depth
    · exact ⟨[], .nil hover, recovery_of_over (State.over_natCast.1 hover)⟩
    · have hpeek : s.view.window.peek.kind ≠ .eof := fun heof => hover (.inr (.inl heof))
      have hless := Window.ahead_advance_lt hpeek
      obtain ⟨ts, hts, hrun⟩ := ih (s := s.advance) (s.peek.kind.depthAfter depth)
        (Nat.lt_of_lt_of_le hless (Nat.le_of_lt_succ hfuel))
      -- outside of all braces a closing one is not moved onto, so the depth is that of the braces
      have hdepth : depth = 0 → s.peek.kind ≠ .rightBrace := fun houter hclosing =>
        hover (State.over_natCast.2 (.inr (.inr ⟨houter, .inr (by simp [hclosing])⟩)))
      rw [Kind.depthAfter_eq_add_unclosed hdepth] at hts
      exact ⟨s.peek :: ts, .cons hover hts,
        (recovery_of_not_over (mt State.over_natCast.2 hover)).trans hrun⟩

/-- The rule has the fuel for a whole skip. -/
theorem exists_perform_recovery (s : State σ) (depth : Nat) :
    ∃ ts, s.Skips depth ts ∧
      perform (.recovery depth) s = .ok () (State.advance^[ts.length] s) := by
  exact exists_skips depth (Nat.lt_of_succ_lt (ahead_add_one_lt_enough s))

/-- A skip that is over from the start moves nothing. -/
theorem perform_recovery_of_over (h : s.Over depth) : perform (.recovery depth) s = .ok () s := by
  obtain ⟨ts, hts, hrun⟩ := exists_perform_recovery s depth
  cases ts with
  | nil => exact hrun
  | cons t ts =>
    refine absurd ?_ (hts.before [] t ts rfl)
    rwa [unclosed_nil, Int.add_zero]

end Parse

open Parse

variable [LawfulTokenSource σ]

/-- A skip, from any state, comes to an end and changes nothing but the window, which it moves onto
some of the tokens ahead. At no point among them more braces are closed than were opened, and
outside of those that were opened there is no `let`, no `return` and no closing brace, and no
semicolon but the last token. The skip ends at the first point where it is over: at the end of the
input, or with all braces closed on a semicolon or in front of a closing brace, a `let` or a
`return`. Another skip from there does nothing. -/
theorem recovery_skips (s : State σ) : ∃ ts t, s.Ahead ts ∧
    perform (.recovery 0) s = .ok () t ∧ t = State.advance^[ts.length] s ∧
    t.journal = s.journal ∧
    (∀ us, us <+: ts → 0 ≤ unclosed us) ∧
    (∀ us u vs, ts = us ++ u :: vs → unclosed us = 0 →
      u.kind ∉ [Kind.rightBrace, .letWord, .returnWord] ∧ (u.kind = .semicolon → vs = [])) ∧
    t.Over (unclosed ts) ∧
    (∀ us u vs, ts = us ++ u :: vs → ¬(State.advance^[us.length] s).Over (unclosed us)) ∧
    perform (.recovery 0) t = .ok () t := by
  obtain ⟨ts, hts, hrun⟩ : ∃ ts, s.Skips 0 ts ∧ _ := exists_perform_recovery s 0
  -- all that is said of the tokens follows from where the skip ends
  have hover := hts.ends
  rw [Int.zero_add] at hover
  refine ⟨ts, _, hts.ahead, hrun, rfl, State.journal_iterate_advance _ s, ?_, ?_, hover, ?_,
    perform_recovery_of_over hover.again⟩
  · -- no more braces closed than opened
    rintro us ⟨vs, rfl⟩
    exact hts.unclosed_nonneg
  · -- nothing outside of them that ends a skip
    rintro us u vs rfl houter
    exact hts.outside houter
  · -- not over before
    intro us u vs hsplit
    have hbefore := hts.before us u vs hsplit
    rwa [Int.zero_add] at hbefore

/-- The word between the braces is skipped, and so is the semicolon there. -/
theorem recovery_skips_braces :
    let word := Token.unplaced .letWord "let"
    let semicolon := Token.unplaced .semicolon ";"
    let braced := [.unplaced .leftBrace "\x7b", word, semicolon, .unplaced .rightBrace "\x7d"]
    let s : State (List Token) := .start (.unplaced .comma "," :: braced ++ [semicolon, word]) true
    ∃ t, perform (.recovery 0) s = .ok () t ∧ t.current = semicolon ∧ t.peek = word ∧
      t.journal = s.journal ∧ perform (.recovery 0) t = .ok () t := by
  intro word semicolon braced s
  obtain ⟨ts, t, -, hrun, -, hjournal, -, -, -, -, hagain⟩ := recovery_skips s
  have hfive : perform (.recovery 0) s = .ok () (State.advance^[5] s) := rfl
  obtain ⟨-, rfl⟩ := EStateM.Result.ok.inj (hfive.symm.trans hrun)
  exact ⟨_, hrun, rfl, rfl, hjournal, hagain⟩

end Pratt
