import Pratt.Proofs.Layout

/-!
# Pratt — a registration concerns its own kind

Rules can be registered and removed for any kind. What is done so for one kind makes no difference
to a program in which there is no token of that kind (`registration_local`): the tables are only
ever looked up at tokens that are in the window. This holds of every rule that might be registered,
also of those that would lead to a fault or to no end, and whatever is wrong with the program.

`RuleTable.SameBut` compares two tables at all kinds but one, and it is kept up by registering and
removing at that kind. The run with other tables goes along with one under those of the language,
token by token (`Parse.lockstep_tables`), as long as the tokens to come avoid the kind
(`Window.Avoids`).
-/

namespace Pratt

/-! ## Tables that differ at one kind -/

namespace RuleTable

/-- The tables have the same rule at every kind but this one. -/
def SameBut (k : Kind) (t t' : RuleTable) : Prop :=
  ∀ j, j ≠ k → t.find? j = t'.find? j

namespace SameBut

variable {k : Kind} {t t' : RuleTable}

theorem refl (k : Kind) (t : RuleTable) : t.SameBut k t :=
  fun _ _ => rfl

/-- Registering at the kind itself leaves all others the same. -/
theorem insert (h : t.SameBut k t') (r : Rule) : (t.insert k r).SameBut k t' := by
  intro j hj
  rw [find?_insert, if_neg hj]
  exact h j hj

/-- Removing the rule that is registered at the kind leaves all others the same. -/
theorem erase (h : t.SameBut k t') : (t.erase k).SameBut k t' := by
  intro j hj
  rw [find?_erase, if_neg hj]
  exact h j hj

end SameBut

end RuleTable

/-! ## Windows without tokens of a kind -/

variable {σ : Type} [TokenSource σ]

namespace Window

/-- None of the tokens that the window sees or will see is of the kind. -/
def Avoids (w : Window σ) (k : Kind) : Prop :=
  ∀ i, (w.nth i).kind ≠ k

/-- Windows that see no token of a kind see none further on. -/
theorem Avoids.advance {w : Window σ} {k : Kind} (h : w.Avoids k) : w.advance.Avoids k :=
  fun i => h (i + 1)

/-- Behind a list there is nothing but the end of the input. -/
theorem avoids_filled {ts : List Token} {k : Kind} (hts : ∀ t ∈ ts, t.kind ≠ k)
    (hk : k ≠ .eof) : (filled ts).Avoids k := by
  intro i
  rw [nth_filled, List.getD_eq_getElem?_getD]
  cases hi : ts[i]? with
  | none => exact hk.symm
  | some t => exact hts t (List.mem_of_getElem? hi)

end Window

/-! ## The same state with other tables -/

/-- The state with these tables in place of its own. -/
def State.withTables (s : State σ) (starting continuing : RuleTable) : State σ :=
  { s with starting, continuing }

/-- The second parser is in the state of the first, which has the tables of the language, but for
tables of its own. These differ at one kind only, and no token to come is of that kind. -/
structure OtherTables (k : Kind) (starting continuing : RuleTable) (s t : State σ) : Prop where
  standard : s.Standard
  same : t = s.withTables starting continuing
  avoids : s.view.window.Avoids k

namespace Parse

variable {k : Kind} {starting continuing : RuleTable}

/-- No rule sees the tables at the kind. -/
theorem lockstep_tables (hstarting : starting.SameBut k .starting)
    (hcontinuing : continuing.SameBut k .continuing) :
    Lockstep .identity fun (_ : Unit) (s t : State σ) =>
      OtherTables k starting continuing s t where
  sees := by
    rintro - s _ ⟨hs, rfl, havoids⟩
    -- the tables are looked up at the current token and at the one ahead
    refine .of_same rfl rfl ?_ ?_
    · rw [hs.1]
      exact hstarting _ (havoids 0)
    · rw [hs.2]
      exact hcontinuing _ (havoids 1)
  advance := by
    rintro - s _ ⟨hs, rfl, havoids⟩
    exact ⟨hs, rfl, havoids.advance⟩
  record := by
    rintro - s _ ⟨hs, rfl, havoids⟩ d
    exact ⟨hs, rfl, havoids⟩
  traced r h i := by
    refine alongside_traced_of_same ?_ ?_ ?_ (h i)
    · rintro s _ ⟨-, rfl, -⟩
      rfl
    · rintro s _ ⟨hs, rfl, havoids⟩
      exact ⟨hs, rfl, havoids⟩
    · rintro s _ ⟨hs, rfl, havoids⟩
      exact ⟨hs, rfl, havoids⟩

/-- Any goal comes to the same under the other tables, which are still in place afterwards. -/
theorem outcome_withTables [LawfulTokenSource σ] (hstarting : starting.SameBut k .starting)
    (hcontinuing : continuing.SameBut k .continuing) {s : State σ} (hs : s.Standard)
    (havoids : s.view.window.Avoids k) (g : Goal) :
    (perform g).outcome (s.withTables starting continuing) =
      (((perform g).outcome s).1, ((perform g).outcome s).2.withTables starting continuing) := by
  obtain ⟨r, t, t', ht, ht', -, rfl, -⟩ := (lockstep_tables hstarting hcontinuing).exists_outcome
    (i := ()) (t := s.withTables starting continuing) ⟨hs, rfl, havoids⟩ hs rfl g
  rw [ht, ht']

end Parse

open Parse

/-- Two parsers whose tables are those of the language but at one kind, which is not that of the end
of the input, parse any list of tokens without that kind alike, whatever rules they have or lack
there: with the same tree or fault, the same journal and the same window in the end. All of it is as
with the tables of the language, so that no rule leads on without end. -/
theorem registration_local {k : Kind} (hk : k ≠ .eof) {ts : List Token}
    (hts : ∀ t ∈ ts, t.kind ≠ k) (tracing : Bool)
    {starting continuing starting' continuing' : RuleTable}
    (hstarting : starting.SameBut k .starting) (hcontinuing : continuing.SameBut k .continuing)
    (hstarting' : starting'.SameBut k .starting)
    (hcontinuing' : continuing'.SameBut k .continuing) :
    ∃ r s, r ≠ .error .endlessRules ∧ parseProgram ts tracing = (r, s) ∧
      (perform .program).outcome ((State.start ts tracing).withTables starting continuing) =
        (r, s.withTables starting continuing) ∧
      (perform .program).outcome ((State.start ts tracing).withTables starting' continuing') =
        (r, s.withTables starting' continuing') := by
  have hstart : (State.start ts tracing).Standard := ⟨rfl, rfl⟩
  -- the kind is met nowhere, neither in the list nor behind it
  have havoids : (State.start ts tracing).view.window.Avoids k := Window.avoids_filled hts hk
  exact ⟨_, _, outcome_ne_exhausted hstart .program, rfl,
    outcome_withTables hstarting hcontinuing hstart havoids .program,
    outcome_withTables hstarting' hcontinuing' hstart havoids .program⟩

/-- Two parsers, neither of which could parse a product, on a program with an error and without a
product: one has a rule that would be at fault, and both lack the right one. -/
theorem registration_local_asterisk :
    let ts := [Token.unplaced .letWord "let", .unplaced .plus "+", .unplaced .int "1"]
    let faulty := RuleTable.starting.insert .asterisk .callExpression
    let other := RuleTable.continuing.insert .asterisk .expressionList
    let fewer := RuleTable.continuing.erase .asterisk
    (∃ s, (perform .program).outcome
        ((State.start [Token.unplaced .asterisk "*"] true).withTables faulty fewer) =
          (.error (.missingArgument .callExpression), s)) ∧
      ∃ s : State (List Token), s.diagnostics.length = 1 ∧
        (perform .program).outcome ((State.start ts true).withTables faulty fewer) =
          (.ok (.program []), s.withTables faulty fewer) ∧
        (perform .program).outcome ((State.start ts true).withTables .starting other) =
          (.ok (.program []), s.withTables .starting other) := by
  intro ts faulty other fewer
  -- a product does use the rule that is at fault
  refine ⟨⟨_, Prod.ext rfl rfl⟩, ?_⟩
  have hts : ∀ t ∈ ts, t.kind ≠ .asterisk := by decide
  obtain ⟨r, s, -, hrun, hfewer, hother⟩ := registration_local (k := .asterisk) (by decide) hts true
    ((RuleTable.SameBut.refl _ _).insert .callExpression) (RuleTable.SameBut.refl _ _).erase
    (RuleTable.SameBut.refl _ _) ((RuleTable.SameBut.refl _ _).insert .expressionList)
  have htree : (parseProgram ts true).1 = .ok (.program []) := rfl
  have hdiagnostics : (parseProgram ts true).2.diagnostics.length = 1 := by decide +kernel
  rw [hrun] at htree hdiagnostics
  obtain rfl : r = .ok (.program []) := htree
  exact ⟨s, hdiagnostics, hfewer, hother⟩

end Pratt
