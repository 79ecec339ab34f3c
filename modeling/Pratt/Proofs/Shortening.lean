import Pratt.Proofs.Integers
import Pratt.Proofs.Layout
import Pratt.Proofs.Shape
import Pratt.Proofs.Warrants

/-!
# Pratt — overlong integers made shorter

The text of an integer may be too long to be converted, and then the parse ends in a fault, from
whatever depth of the rules. A shorter text that is out of range is only reported. So the parse of
the tokens with each overlong text replaced by a short one shows what the fault hides: how the parse
would have gone on, and that nothing was different up to there.

* `Token.shorten` — the token with an overlong text replaced by the first number out of range, and
  `shortening` is the respelling that does so everywhere.
* `Parse.Outlasts` — an action on shortened tokens ends as that on the tokens themselves does,
  unless this one stops at an overlong integer; then the other has reported what this one has, the
  integer next, and perhaps more.
* `Parse.outlasts_run`, `Parse.outlasts_perform` — every run on shortened tokens outlasts the run on
  the tokens themselves.
-/

namespace Pratt

/-! ## Shortened tokens -/

namespace Token

/-- The token is an integer with too many digits to be converted. -/
def Overlong (t : Token) : Prop :=
  t.kind = .int ∧ Numeral.Overlong t.literal.toList

instance (t : Token) : Decidable t.Overlong :=
  inferInstanceAs (Decidable (_ ∧ _ ∧ _))

/-- The token, where an overlong integer is replaced by the first one that is out of range. -/
def shorten (t : Token) : Token :=
  if t.Overlong then { t with literal := "9223372036854775808" } else t

variable {t : Token}

/-- An overlong text is one that is found to be too long. -/
theorem Overlong.read (h : t.Overlong) :
    Numeral.read t.literal.toList = .oversized t.literal.length :=
  Numeral.read_eq_oversized_iff.2 ⟨h.2.1, h.2.2, rfl⟩

/-- An overlong text gives way to the one that reports the same. -/
theorem shorten_of_overlong (h : t.Overlong) :
    t.shorten = { t with literal := "9223372036854775808" } :=
  if_pos h

/-- Any other token stays as it is. -/
theorem shorten_of_not_overlong (h : ¬t.Overlong) : t.shorten = t :=
  if_neg h

/-- No token but an integer is shortened. -/
theorem shorten_of_ne (h : t.kind ≠ .int) : t.shorten = t :=
  shorten_of_not_overlong fun hlong => h hlong.1

/-- The kind of a token stays. -/
theorem kind_shorten (t : Token) : t.shorten.kind = t.kind := by
  unfold shorten
  split <;> rfl

/-- The place of a token stays. -/
theorem location_shorten (t : Token) : t.shorten.location = t.location := by
  unfold shorten
  split <;> rfl

/-- What an overlong text is replaced by is reported, and is no fault. -/
theorem read_shorten (h : t.Overlong) : Numeral.read t.shorten.literal.toList = .unreadable := by
  rw [shorten_of_overlong h]
  show Numeral.read "9223372036854775808".toList = .unreadable
  decide +kernel

/-- No shortened token is found to be too long. -/
theorem read_shorten_ne_oversized (hk : t.kind = .int) (digits : Nat) :
    Numeral.read t.shorten.literal.toList ≠ .oversized digits := by
  by_cases hlong : t.Overlong
  · rw [read_shorten hlong]
    exact nofun
  · intro hread
    rw [shorten_of_not_overlong hlong] at hread
    obtain ⟨numeral, long, -⟩ := Numeral.read_eq_oversized_iff.1 hread
    exact hlong ⟨hk, numeral, long⟩

/-- A token is as long at any other place. -/
theorem overlong_relocate {f : Token → Location} : (t.relocate f).Overlong ↔ t.Overlong :=
  Iff.rfl

/-- A token can be shortened before or after it is put at another place. -/
theorem shorten_relocate (l : Location) :
    (t.relocate fun _ => l).shorten = t.shorten.relocate fun _ => l := by
  by_cases hlong : t.Overlong
  · rw [shorten_of_overlong hlong, shorten_of_overlong (overlong_relocate.2 hlong)]
    rfl
  · rw [shorten_of_not_overlong hlong, shorten_of_not_overlong (mt overlong_relocate.1 hlong)]

end Token

/-- Overlong integers replaced by short ones that are out of range. -/
def shortening : Respelling where
  token := Token.shorten
  kind := Token.kind_shorten

/-! ## The parser on shortened tokens -/

namespace Parse

variable {σ τ α β γ δ : Type}

/-- The state in which a run ends. -/
def finalState : EStateM.Result Fault (State σ) α → State σ
  | .ok _ s => s
  | .error _ s => s

variable [TokenSource σ] [TokenSource τ]

/-- The second run ends as the first one does, with shortened tokens. -/
inductive Shortened (V : α → β) :
    EStateM.Result Fault (State σ) α → EStateM.Result Fault (State τ) β → Prop where
  | ok {v : α} {s : State σ} {t : State τ} (related : shortening.Relates s t) :
      Shortened V (.ok v s) (.ok (V v) t)
  | error {e : Fault} {s : State σ} {t : State τ} (related : shortening.Relates s t) :
      Shortened V (.error e s) (.error e t)

/-- The run stopped at an overlong integer, after it had reported all of these but the last, which
says so of the shortened integer. -/
def StopsBefore (ds : List Diagnostic) (x : EStateM.Result Fault (State σ) α) : Prop :=
  ∃ s, x = .error (.oversizedInteger s.current.literal.length) s ∧ s.current.Overlong ∧
    s.diagnostics.map shortening.diagnostic ++ [⟨s.current.shorten, .notInteger⟩] <+: ds

/-- From related states the second action takes back no diagnostic. It ends as some run `x` with
other tokens does, and that is the run of the first action, unless that one stops at an overlong
integer and the second one goes on to report it. -/
def Outlasts (V : α → β) (a : Parse σ α) (b : Parse τ β) : Prop :=
  ∀ s t, shortening.Relates s t → t.diagnostics <+: (finalState (b t)).diagnostics ∧
    ∃ x, Shortened V x (b t) ∧ (a s = x ∨ StopsBefore (finalState (b t)).diagnostics (a s))

omit [TokenSource σ] in
/-- More may be reported later on. -/
theorem StopsBefore.mono {ds ds' : List Diagnostic} {x : EStateM.Result Fault (State σ) α}
    (h : StopsBefore ds x) (hle : ds <+: ds') : StopsBefore ds' x := by
  obtain ⟨s, hx, hlong, hreported⟩ := h
  exact ⟨s, hx, hlong, hreported.trans hle⟩

namespace Outlasts

/-! ### Basic actions -/

/-- A given value is given as its counterpart. -/
theorem pure {V : α → β} {v : α} {w : β} (value : V v = w) :
    Outlasts V (Pure.pure v : Parse σ α) (Pure.pure w : Parse τ β) := by
  intro s t h
  subst value
  exact ⟨List.prefix_rfl, .ok v s, .ok h, .inl rfl⟩

/-- The same fault is raised by both. -/
theorem throw {V : α → β} (e : Fault) :
    Outlasts V (MonadExcept.throw e : Parse σ α) (MonadExcept.throw e : Parse τ β) :=
  fun s _ h => ⟨List.prefix_rfl, .error e s, .error h, .inl rfl⟩

/-- A report of a token has a counterpart, about the shortened one. -/
theorem report (token : Token) (cause : Cause) :
    Outlasts id (report token cause : Parse σ Unit)
      (report (shortening.token token) cause : Parse τ Unit) := by
  intro s t h
  refine ⟨?_, .ok () _, .ok (h.record ⟨token, cause⟩), .inl rfl⟩
  rw [report_eq]
  show t.diagnostics <+: (t.record (.diagnostic ⟨shortening.token token, cause⟩)).diagnostics
  rw [State.diagnostics_record]
  exact List.prefix_append _ _

/-- Both move on. -/
theorem advance : Outlasts id (advance : Parse σ Unit) (advance : Parse τ Unit) :=
  fun s _ h => ⟨List.prefix_rfl, .ok () s.advance, .ok h.advance, .inl rfl⟩

/-- Where the first action stopped there is nothing that it would go on with. -/
theorem bind {V : α → β} {W : γ → δ} {a : Parse σ α} {b : Parse τ β} {k : α → Parse σ γ}
    {l : β → Parse τ δ} (first : Outlasts V a b) (later : ∀ v, Outlasts W (k v) (l (V v))) :
    Outlasts W (a >>= k) (b >>= l) := by
  intro s t h
  obtain ⟨grows, x, ends, hx⟩ := first s t h
  show t.diagnostics <+: (finalState (EStateM.bind b l t)).diagnostics ∧
    ∃ x, Shortened W x (EStateM.bind b l t) ∧ (EStateM.bind a k s = x ∨
      StopsBefore (finalState (EStateM.bind b l t)).diagnostics (EStateM.bind a k s))
  unfold EStateM.bind
  -- on how the second run ends, since the first may have stopped before
  generalize b t = y at grows ends hx ⊢
  cases ends with
  | @ok v s' t' related =>
    obtain ⟨grows', x', ends', hx'⟩ := later v s' t' related
    refine ⟨grows.trans grows', x', ends', ?_⟩
    rcases hx with heq | ⟨u, hstop, hlong, hreported⟩
    · rw [heq]
      exact hx'
    · rw [hstop]
      exact .inr ⟨u, rfl, hlong, hreported.trans grows'⟩
  | @error e s' t' related =>
    refine ⟨grows, .error e s', .error related, ?_⟩
    rcases hx with heq | ⟨u, hstop, hlong, hreported⟩
    · rw [heq]
      exact .inl rfl
    · rw [hstop]
      exact .inr ⟨u, rfl, hlong, hreported⟩

/-- The trace of the first parser makes no difference. -/
theorem traced_left {V : α → β} {a : Parse σ α} {b : Parse τ β} (r : Rule)
    (h : Outlasts V a b) : Outlasts V (Parse.traced r a) b := by
  intro s t hst
  by_cases htrace : (s.tracing && r.isTraced) = true
  · rw [traced_of_shown htrace]
    obtain ⟨grows, x, ends, hx⟩ := h (s.enter r) t (hst.trace_left r).1
    generalize b t = y at grows ends hx ⊢
    -- a run that stopped is one that ended in a fault
    rcases hx with heq | ⟨u, hstop, hlong, hreported⟩
    · rw [heq]
      cases ends with
      | ok related => exact ⟨grows, _, .ok (related.trace_left r).2, .inl rfl⟩
      | error related => exact ⟨grows, _, .error (related.trace_left r).2, .inl rfl⟩
    · rw [hstop]
      refine ⟨grows, x, ends, .inr ⟨u.leave r, rfl, hlong, ?_⟩⟩
      rw [State.diagnostics_leave]
      exact hreported
  · rw [traced_of_not_shown htrace]
    exact h s t hst

/-- The trace of the second parser makes no difference. -/
theorem traced_right {V : α → β} {a : Parse σ α} {b : Parse τ β} (r : Rule)
    (h : Outlasts V a b) : Outlasts V a (Parse.traced r b) := by
  intro s t hst
  by_cases htrace : (t.tracing && r.isTraced) = true
  · rw [traced_of_shown htrace]
    -- the entries of the second run are no diagnostics, so nothing is compared with them
    obtain ⟨grows, x, ends, hx⟩ := h s (t.enter r) (hst.trace_right r).1
    rw [State.diagnostics_enter] at grows
    generalize b (t.enter r) = y at grows ends hx ⊢
    cases ends with
    | @ok v s' t' related =>
      have hleave := State.diagnostics_leave t' r
      exact ⟨hleave.symm ▸ grows, _, .ok (related.trace_right r).2,
        hx.imp id fun hstop => hstop.mono (hleave.symm ▸ List.prefix_rfl)⟩
    | @error e s' t' related =>
      have hleave := State.diagnostics_leave t' r
      exact ⟨hleave.symm ▸ grows, _, .error (related.trace_right r).2,
        hx.imp id fun hstop => hstop.mono (hleave.symm ▸ List.prefix_rfl)⟩
  · rw [traced_of_not_shown htrace]
    exact h s t hst

/-- What one rule does is traced on both sides. -/
theorem traced {V : α → β} {a : Parse σ α} {b : Parse τ β} (r : Rule) (h : Outlasts V a b) :
    Outlasts V (Parse.traced r a) (Parse.traced r b) :=
  (h.traced_left r).traced_right r

/-- A goal is traced as its rule is. -/
theorem tracedGoal {V : α → β} {a : Parse σ α} {b : Parse τ β} (g : Goal) (h : Outlasts V a b) :
    Outlasts V (tracedGoal g a) (tracedGoal (shortening.goal g) b) := by
  rw [tracedGoal_goal]
  unfold Parse.tracedGoal
  cases g.rule? with
  | none => exact h
  | some r => exact h.traced r

/-! ### The rules -/

/-- Actions that are put together alike outlast each other if the goals that they lead to do. -/
theorem of_parallel {p : Recur σ} {q : Recur τ}
    (sub : ∀ g, Outlasts (shortening.result g) (p g) (q (shortening.goal g))) {V : α → β}
    {a : Parse σ α} {b : Parse τ β} (h : Parallel shortening p q V a b) : Outlasts V a b := by
  -- on how the actions are put together
  induction h with
  | pure value => exact pure value
  | throw e => exact throw e
  | bind first later ih ih' => exact ih.bind ih'
  | get seen ih => exact fun s t hst => ih s t hst.sees s t hst
  | report token cause => exact report token cause
  | advance => exact advance
  | traced r action ih => exact ih.traced r
  | pursue g => exact sub g

/-- The one rule that reads a text. What is not overlong is read as before; an overlong integer is
where the first parser stops and the second one reports the shortened integer. -/
theorem integerLiteral :
    Outlasts shortening.child (integerLiteral : Parse σ (Option Node))
      (integerLiteral : Parse τ (Option Node)) := by
  intro s t h
  have hcurrent : t.current = s.current.shorten := h.tokens 0
  have reported := h.record ⟨s.current, .notInteger⟩
  have hdiagnostics : (t.record (.diagnostic (shortening.diagnostic ⟨s.current, .notInteger⟩))
      ).diagnostics = t.diagnostics ++ [⟨s.current.shorten, .notInteger⟩] :=
    State.diagnostics_record _ _
  have grows : t.diagnostics <+: (t.record (.diagnostic (shortening.diagnostic
      ⟨s.current, .notInteger⟩))).diagnostics := hdiagnostics ▸ List.prefix_append _ _
  -- on an overlong text the first run stops, and the second reports what stands in its place
  by_cases hlong : s.current.Overlong
  · rw [integerLiteral_eq, integerLiteral_eq, hcurrent, Token.read_shorten hlong, hlong.read]
    refine ⟨grows, .ok none _, .ok reported, .inr ⟨s, rfl, hlong, ?_⟩⟩
    rw [← h.diagnostics]
    exact hdiagnostics ▸ List.prefix_rfl
  · have hshort : s.current.shorten = s.current := Token.shorten_of_not_overlong hlong
    have hnode : ∀ v, shortening.child (some (.integerLiteral s.current v)) =
        some (.integerLiteral s.current v) :=
      fun v => congrArg (fun u => some (Node.integerLiteral (some u) v)) hshort
    rw [show shortening.diagnostic ⟨s.current, .notInteger⟩ = ⟨s.current, .notInteger⟩ from
      congrArg (Diagnostic.mk · _) hshort] at reported grows
    rw [integerLiteral_eq, integerLiteral_eq, hcurrent, hshort]
    cases Numeral.read s.current.literal.toList with
    | integer v =>
      have ended := Shortened.ok (V := shortening.child) (v := some (.integerLiteral s.current v)) h
      rw [hnode] at ended
      exact ⟨List.prefix_rfl, _, ended, .inl rfl⟩
    | oversized digits => exact ⟨List.prefix_rfl, _, .error h, .inl rfl⟩
    | unreadable => exact ⟨grows, _, .ok reported, .inl rfl⟩

/-- Every rule on shortened tokens outlasts that on the tokens themselves, if the goals that it
leads to do. -/
theorem step {p : Recur σ} {q : Recur τ}
    (sub : ∀ g, Outlasts (shortening.result g) (p g) (q (shortening.goal g))) (g : Goal) :
    Outlasts (shortening.result g) (step p g) (step q (shortening.goal g)) := by
  by_cases hg : g = .integerLiteral
  · subst hg
    exact integerLiteral
  · exact of_parallel sub (.step g fun h => absurd h hg)

end Outlasts

/-- A run on shortened tokens does what a run on the tokens themselves does, and goes on where that
one stops. -/
theorem outlasts_run (fuel : Nat) (g : Goal) :
    Outlasts (shortening.result g) (run fuel g : Parse σ g.Result)
      (run fuel (shortening.goal g) : Parse τ (shortening.goal g).Result) := by
  induction fuel generalizing g with
  | zero => exact .throw .endlessRules
  | succ fuel ih => exact (Outlasts.step ih g).tracedGoal g

/-- So it is with the fuel that each of the two has to be given. -/
theorem outlasts_perform [LawfulTokenSource σ] [LawfulTokenSource τ] (g : Goal) :
    Outlasts (shortening.result g) (perform g : Parse σ g.Result)
      (perform (shortening.goal g) : Parse τ (shortening.goal g).Result) := by
  intro s t h
  -- with fuel that is enough for both
  have hle := (cost_le_enough g s).trans (Nat.le_max_left (enough s) (enough t))
  have hle' := (cost_le_enough (shortening.goal g) t).trans
    (Nat.le_max_right (enough s) (enough t))
  have ends := outlasts_run (max (enough s) (enough t)) g s t h
  rwa [← perform_eq_run h.standard hle, ← perform_eq_run h.standard' hle'] at ends

end Parse

/-! ## What is reported of shortened tokens -/

/-- What cannot be read is not overlong. -/
theorem Diagnostic.Warranted.not_overlong {d : Diagnostic} (h : d.Warranted)
    (hcause : d.cause = .notInteger) : ¬d.token.Overlong := by
  intro hlong
  unfold Diagnostic.Warranted at h
  rw [hcause, hlong.read] at h
  cases h

/-- A diagnostic with a reason has the same message for the shortened token, as that is the token
itself where its text is shown. -/
theorem message_shorten {d : Diagnostic} (h : d.Warranted) :
    (shortening.diagnostic d).message = d.message := by
  obtain ⟨t, cause⟩ := d
  cases cause with
  | expected wanted | noStart | unattainable wanted =>
    simp only [Diagnostic.message, Respelling.diagnostic, shortening.kind]
  | notInteger =>
    exact congrArg (fun u => Diagnostic.message ⟨u, .notInteger⟩)
      (Token.shorten_of_not_overlong (h.not_overlong rfl))

/-- Diagnostics with a reason have the same messages for the shortened tokens. -/
theorem map_message_shorten {ds : List Diagnostic} (h : ∀ d ∈ ds, d.Warranted) :
    (ds.map shortening.diagnostic).map Diagnostic.message = ds.map Diagnostic.message := by
  rw [List.map_map]
  exact List.map_congr_left fun d hd => message_shorten (h d hd)

/-! ## Trees of shortened tokens -/

namespace Respelling

open Node

variable {φ : Respelling}

/-- A child keeps its content if the node that it is does. -/
theorem withoutTokensChild_child {v : Option Node}
    (h : ∀ n ∈ v, (φ.node n).withoutTokens = n.withoutTokens) :
    withoutTokensChild (φ.child v) = withoutTokensChild v := by
  cases v with
  | none => rfl
  | some n => exact congrArg some (h n rfl)

/-- Nodes keep their content if each of them does. -/
theorem withoutTokensEach_each {ns : List Node}
    (h : ∀ n ∈ ns, (φ.node n).withoutTokens = n.withoutTokens) :
    withoutTokensEach (φ.each ns) = withoutTokensEach ns := by
  rw [φ.each_eq_map, withoutTokensEach_eq_map, withoutTokensEach_eq_map, List.map_map]
  exact List.map_congr_left h

/-- Children that are all present keep their content if each of them does. -/
theorem withoutTokensChildren_children {ns : List Node}
    (h : ∀ n ∈ ns, (φ.node n).withoutTokens = n.withoutTokens) :
    withoutTokensChildren (φ.children (ns.map some)) = withoutTokensChildren (ns.map some) := by
  rw [φ.children_map_some, withoutTokensChildren_eq_map, withoutTokensChildren_eq_map, List.map_map,
    List.map_map, φ.each_eq_map, List.map_map]
  exact List.map_congr_left fun n hn => congrArg some (h n hn)

end Respelling

/-- The texts in a tree are not those of integers, so no content of it is shortened. -/
theorem Shaped.withoutTokens_shorten {place : Place} {n : Node} (h : Shaped place n) :
    (shortening.node n).withoutTokens = n.withoutTokens := by
  have literal : ∀ {t : Token}, t.kind ≠ .int → (shortening.token t).literal = t.literal :=
    fun hk => congrArg Token.literal (Token.shorten_of_ne hk)
  have identifier : ∀ {t : Token}, t.kind = .ident →
      (shortening.node (.identifier t t.literal)).withoutTokens =
        (Node.identifier t t.literal).withoutTokens := by
    intro t ht
    rw [shortening.node_identifier, Node.withoutTokens, literal (by rw [ht]; nofun)]
    rfl
  -- only integers are shortened, and their texts are in their tokens alone
  open Node Respelling in
  induction h with
  | identifier isName => exact identifier isName
  | integerLiteral isNumber reads => rfl
  | boolean isWord => rfl
  | @prefixExpression operator right isOperator operand ih =>
    have hk : operator.kind ≠ .int := by
      intro hk
      rw [hk] at isOperator
      exact absurd isOperator (by decide)
    rw [shortening.node_prefixExpression, withoutTokens, withoutTokens, literal hk,
      withoutTokensChild_child (by simpa using ih)]
  | @infixExpression operator left right isOperator before behind ihleft ihright =>
    have hk : operator.kind ≠ .int := by
      intro hk
      rw [hk] at isOperator
      exact absurd isOperator (by decide)
    rw [shortening.node_infixExpression, withoutTokens, withoutTokens, literal hk,
      withoutTokensChild_child (by simpa using ihleft),
      withoutTokensChild_child (by simpa using ihright)]
  | ifExpression isWord asked first second ihasked ihfirst ihsecond =>
    rw [node, withoutTokens, withoutTokens, withoutTokensChild_child (by simpa using ihasked),
      withoutTokensChild_child (by simpa using ihfirst), withoutTokensChild_child ihsecond]
  | @functionLiteral word parameters body isWord areNames inside ih =>
    have names : ∀ n ∈ parameters.map fun (t : Token) => Node.identifier t t.literal,
        (shortening.node n).withoutTokens = n.withoutTokens := by
      intro n hn
      obtain ⟨t, ht, rfl⟩ := List.mem_map.1 hn
      exact identifier (areNames t ht)
    rw [node, withoutTokens, withoutTokens, withoutTokensEach_each names,
      withoutTokensChild_child (by simpa using ih)]
  | callExpression opens called given ihcalled ihgiven =>
    rw [node, withoutTokens, withoutTokens, withoutTokensChild_child (by simpa using ihcalled),
      withoutTokensChildren_children ihgiven]
  | @letStatement closer word name value isWord isName inside ih =>
    rw [node, withoutTokens, withoutTokens,
      withoutTokensChild_child (by simpa using identifier isName), withoutTokensChild_child ih]
  | returnStatement isWord inside ih | expressionStatement starts inside ih =>
    rw [node, withoutTokens, withoutTokens, withoutTokensChild_child ih]
  | blockStatement isBrace inside ih =>
    rw [node, withoutTokens, withoutTokens, withoutTokensEach_each ih]

end Pratt
