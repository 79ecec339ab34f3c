import Pratt.Parser.Session
import Pratt.Proofs.Lockstep

/-!
# Pratt — what tracing adds

Two parsers in the same state, one of them tracing and the other one not, get the same requests,
one after the other. They do the same, and the journal of the second one is that of the first
without the lines of rules. These lines come in pairs which are nested in each other (`Bracketed`),
each four blanks further in than the pair around it, and after a request as many rules are under way
as before it. All of this is true whether the request gives something or ends in a fault, wherever
in the rules the fault came from.

* `Parse.lockstep_since`: what the two parsers have in common since any two states in which they
  were, kept up by all rules.
* `Parse.Blind`: the action comes to the same for both. Goals are (`Parse.blind_perform`), and so
  are commands that leave the tables of rules alone (`Command.blind`).
* `QuietCopy.map_untraced_session`, `QuietCopy.nested_session`: one blind request after the other.
* `tracing_transparent` for goals, where besides a rule has its own lines around all others, and
  `commands_transparent` for sessions by hand.
-/

namespace Pratt

variable {σ : Type}

/-! ## The lines of rules -/

/-- The line for the start of a rule, with four blanks in front for each of the rules around it. -/
def beginLine (depth : Nat) (r : Rule) : String :=
  String.ofList (List.replicate (4 * depth) ' ') ++ "BEGIN " ++ r.name

/-- The line for the end of a rule. -/
def endLine (depth : Nat) (r : Rule) : String :=
  String.ofList (List.replicate (4 * depth) ' ') ++ "END " ++ r.name

/-- The lines that the entries for the starts and ends of rules make. -/
def ruleLines (entries : List Event) : List String :=
  (entries.filter (·.diagnostic?.isNone)).map Event.line

/-- The lines are those of rules that start and end in turn with `depth` rules around them, and of
others in between that start and end within them. -/
inductive Bracketed : (depth : Nat) → List String → Prop where
  | nil {depth : Nat} : Bracketed depth []
  | rule {depth : Nat} {inside later : List String} (r : Rule)
      (inner : Bracketed (depth + 1) inside) (others : Bracketed depth later) :
      Bracketed depth (beginLine depth r :: (inside ++ endLine depth r :: later))

/-- Bracketed lines may follow each other at the same depth. -/
theorem Bracketed.append {depth : Nat} {xs ys : List String} (hx : Bracketed depth xs)
    (hy : Bracketed depth ys) : Bracketed depth (xs ++ ys) := by
  induction hx with
  | nil => exact hy
  | rule r inner _ _ ih =>
    rw [List.cons_append, List.append_assoc, List.cons_append]
    exact .rule r inner (ih hy)

/-- The lines of two stretches are those of the one and then of the other. -/
theorem ruleLines_append (es es' : List Event) :
    ruleLines (es ++ es') = ruleLines es ++ ruleLines es' := by
  rw [ruleLines, List.filter_append, List.map_append]
  rfl

/-! ## Two parsers, one of which traces -/

/-- The first parser traces and the second one does not. What they see and what they have found
wrong is the same. -/
structure QuietCopy (s t : State σ) : Prop where
  standard : s.Standard
  standard' : t.Standard
  view : s.view = t.view
  traces : s.tracing = true
  quiet : t.tracing = false

/-- What was added to the journals since the first two states, in which as many rules were under way
as are now: the lines of rules come in pairs, and the second parser has all entries but theirs. -/
structure Since (s₀ t₀ s t : State σ) : Prop where
  copy : QuietCopy s t
  depth : s.depth = s₀.depth
  depth' : t.depth = t₀.depth
  entries : ∃ es, s.journal.toList = s₀.journal.toList ++ es ∧
    t.journal.toList = t₀.journal.toList ++ es.filter (·.diagnostic?.isSome) ∧
    Bracketed s₀.depth (ruleLines es)

namespace Since

variable {s₀ t₀ s t : State σ}

/-- Nothing has happened yet. -/
theorem refl (h : QuietCopy s t) : Since s t s t where
  copy := h
  depth := rfl
  depth' := rfl
  entries := ⟨[], (List.append_nil _).symm, (List.append_nil _).symm, .nil⟩

/-- What happened up to a point and what happened from there is what happened in all. -/
theorem trans {s' t' : State σ} (h : Since s₀ t₀ s t) (h' : Since s t s' t') :
    Since s₀ t₀ s' t' := by
  obtain ⟨es, hjournal, hquiet, hlines⟩ := h.entries
  obtain ⟨es', hjournal', hquiet', hlines'⟩ := h'.entries
  rw [h.depth] at hlines'
  refine ⟨h'.copy, h'.depth.trans h.depth, h'.depth'.trans h.depth', es ++ es', ?_, ?_, ?_⟩
  · rw [hjournal', hjournal, List.append_assoc]
  · rw [hquiet', hquiet, List.filter_append, List.append_assoc]
  · rw [ruleLines_append]
    exact hlines.append hlines'

/-- Where a rule was entered and is left, its own lines are around those of the rules within. -/
theorem exists_ruleLines {r : Rule} (h : Since (s₀.enter r) t₀ s t) :
    ∃ inside es, Bracketed (s₀.depth + 1) inside ∧
      ruleLines es = beginLine s₀.depth r :: (inside ++ [endLine s₀.depth r]) ∧
      (s.leave r).journal.toList = s₀.journal.toList ++ es ∧
      t.journal.toList = t₀.journal.toList ++ es.filter (·.diagnostic?.isSome) := by
  obtain ⟨es, hjournal, hquiet, hinside⟩ := h.entries
  have hdepth : s.depth = s₀.depth + 1 := h.depth
  -- the depth at the end of the rule is that at its start, so the two lines are indented alike
  have houter : s.depth - 1 = s₀.depth := by omega
  refine ⟨ruleLines es, .enter s₀.depth r :: es ++ [.leave s₀.depth r], hinside, ?_, ?_, ?_⟩
  · rw [ruleLines_append]
    rfl
  · show (s.journal.push (.leave (s.depth - 1) r)).toList = _
    rw [houter, Array.toList_push, hjournal]
    show (s₀.journal.push (.enter s₀.depth r)).toList ++ es ++ [.leave s₀.depth r] = _
    rw [Array.toList_push, List.append_assoc, List.append_assoc]
    rfl
  · rw [hquiet, List.filter_append]
    show _ = _ ++ (es.filter _ ++ [])
    rw [List.append_nil]

/-- Around what happened inside of a rule its two entries are put. -/
theorem leave {r : Rule} (h : Since (s₀.enter r) t₀ s t) : Since s₀ t₀ (s.leave r) t := by
  obtain ⟨inside, es, hinside, hlines, hjournal, hquiet⟩ := h.exists_ruleLines
  have hdepth : s.depth = s₀.depth + 1 := h.depth
  refine ⟨⟨h.copy.standard, h.copy.standard', ?_, h.copy.traces, h.copy.quiet⟩, ?_, h.depth', es,
    hjournal, hquiet, ?_⟩
  · rw [State.view_leave]
    exact h.copy.view
  · show s.depth - 1 = s₀.depth
    omega
  · rw [hlines]
    exact .rule r hinside .nil

/-- Both windows are moved on. -/
theorem advance [TokenSource σ] (h : Since s₀ t₀ s t) : Since s₀ t₀ s.advance t.advance where
  copy := ⟨h.copy.standard, h.copy.standard', congrArg View.advance h.copy.view, h.copy.traces,
    h.copy.quiet⟩
  depth := h.depth
  depth' := h.depth'
  entries := h.entries

/-- Both report the same. -/
theorem record (h : Since s₀ t₀ s t) (d : Diagnostic) :
    Since s₀ t₀ (s.record (.diagnostic d)) (t.record (.diagnostic d)) := by
  obtain ⟨es, hjournal, hquiet, hlines⟩ := h.entries
  refine ⟨⟨h.copy.standard, h.copy.standard', ?_, h.copy.traces, h.copy.quiet⟩, h.depth, h.depth',
    es ++ [.diagnostic d], ?_, ?_, ?_⟩
  · rw [State.view_record s d.token d.cause, h.copy.view, State.view_record t d.token d.cause]
  · rw [State.record, Array.toList_push, hjournal, List.append_assoc]
  · rw [State.record, Array.toList_push, hquiet, List.filter_append, List.append_assoc]
    rfl
  · -- a diagnostic is no line of a rule
    rw [ruleLines_append]
    exact hlines.append .nil

end Since

/-- An entry on entering a rule does not show in the quiet copy. -/
theorem QuietCopy.enter {s t : State σ} (h : QuietCopy s t) (r : Rule) :
    QuietCopy (s.enter r) t where
  standard := h.standard
  standard' := h.standard'
  view := (State.view_enter s r).trans h.view
  traces := h.traces
  quiet := h.quiet

namespace Parse

/-- A traced action ends as the action does, and its rule is left behind it. -/
theorem outcome_traced {α : Type} {r : Rule} {a : Parse σ α} {s : State σ}
    (htrace : (s.tracing && r.isTraced) = true) : (traced r a).outcome s =
      ((a.outcome (s.enter r)).1, (a.outcome (s.enter r)).2.leave r) := by
  unfold outcome
  rw [traced_of_shown htrace]
  cases a (s.enter r) <;> rfl

variable [TokenSource σ]

/-- What two parsers that differ in tracing have had in common since any states is kept up by all
rules. -/
theorem lockstep_since : Lockstep .identity fun i : State σ × State σ => Since i.1 i.2 where
  sees h := .of_window h.copy.standard h.copy.standard' (congrArg View.window h.copy.view)
  advance := Since.advance
  record := Since.record
  traced := by
    intro α a b r hab i s t hst
    rw [traced_of_not_tracing hst.copy.quiet]
    -- inside of the rule everything is counted from its start
    exact alongside_traced_left (fun {s t} h => ⟨Since (s.enter r) t, .refl (h.copy.enter r),
      hab (s.enter r, t), fun h' => h.trans h'.leave⟩) (hab i) s t hst

end Parse

/-! ## One request -/

section Requests

variable {α β : Type} {a : Parse σ α} {s t : State σ}

/-- The report without the lines of rules among what was added to the journal. -/
def Report.untraced (r : Report σ α) : Report σ α :=
  { r with events := r.events.filter (·.diagnostic?.isSome) }

/-- What was asked for with `depth` rules under way ends with as many, and the lines of rules that
it added come in pairs. -/
structure Report.Nested (r : Report σ α) (depth : Nat) : Prop where
  underWay : r.depth = depth
  paired : Bracketed depth (ruleLines r.events)

/-- A report is on what was added behind the journal so far. -/
theorem Parse.reported_eq {r : Except Fault α} {s' : State σ} {es : List Event}
    (hends : a.outcome s = (r, s')) (hjournal : s'.journal.toList = s.journal.toList ++ es) :
    a.reported s = (⟨r, es, s'.view, s'.depth⟩, s') := by
  have hadded : s'.journal.toList.drop s.journal.size = es := by
    rw [hjournal]
    exact List.drop_left
  unfold reported
  rw [hends, ← hadded]

/-- Whether the parser traces makes no difference to what the action comes to. -/
def Parse.Blind (a : Parse σ α) : Prop :=
  ∀ s t : State σ, QuietCopy s t →
    ∃ r s' t', a.outcome s = (r, s') ∧ a.outcome t = (r, t') ∧ Since s t s' t'

/-- The two reports on a blind action differ in the lines of rules, which are nested. -/
theorem Parse.Blind.reported (ha : a.Blind) (h : QuietCopy s t) (hdepth : s.depth = t.depth) :
    ∃ r s' t', a.reported s = (r, s') ∧ a.reported t = (r.untraced, t') ∧ r.Nested s.depth ∧
      Since s t s' t' := by
  obtain ⟨r, s', t', hs, ht, since⟩ := ha s t h
  obtain ⟨es, hjournal, hquiet, hlines⟩ := since.entries
  refine ⟨_, s', t', reported_eq hs hjournal, ?_, ⟨since.depth, hlines⟩, since⟩
  rw [reported_eq ht hquiet, ← since.copy.view, since.depth', ← hdepth, ← since.depth]
  rfl

/-- What is made of the result afterwards does not depend on tracing either. -/
theorem Parse.Blind.map (ha : a.Blind) (f : α → β) : Blind (σ := σ) (do return f (← a)) := by
  intro s t h
  obtain ⟨r, s', t', hs, ht, since⟩ := ha s t h
  have hmap : ∀ u : State σ, (do return f (← a) : Parse σ β).outcome u =
      ((a.outcome u).1.map f, (a.outcome u).2) := by
    intro u
    show outcome (EStateM.bind a _) u = _
    unfold outcome EStateM.bind
    cases a u <;> rfl
  exact ⟨r.map f, s', t', by rw [hmap, hs], by rw [hmap, ht], since⟩

/-- What is only looked at is the same. -/
theorem Parse.blind_looking {f : State σ → β} (h : ∀ s t, QuietCopy s t → f s = f t) :
    Blind (σ := σ) (do return f (← get)) :=
  fun s t hst => ⟨.ok (f s), s, t, rfl, by rw [h s t hst]; rfl, .refl hst⟩

/-- Expecting a token comes to the same. -/
theorem Parse.blind_expect? [TokenSource σ] (wanted : Kind) :
    (expect? wanted : Parse σ (Option Token)).Blind := by
  intro s t h
  have hpeek : s.peek = t.peek := congrArg (·.window.peek) h.view
  -- both parsers have the same token ahead
  by_cases hk : s.peek.kind = wanted
  · have hs := expect?_of_eq hk
    have ht := expect?_of_eq (hpeek ▸ hk)
    exact ⟨.ok (some s.peek), s.advance, t.advance, by rw [outcome, hs],
      by rw [outcome, ht, hpeek], (Since.refl h).advance⟩
  · have hs := expect?_of_ne hk
    have ht := expect?_of_ne (hpeek ▸ hk)
    rw [← hpeek] at ht
    exact ⟨.ok none, s.record _, t.record _, by rw [outcome, hs], by rw [outcome, ht],
      (Since.refl h).record _⟩

end Requests

variable [TokenSource σ]

section Goals

variable [LawfulTokenSource σ] {s t : State σ}

/-- Pursuing a goal comes to the same, faults included. -/
theorem Parse.blind_perform (g : Goal) : (perform g : Parse σ g.Result).Blind := by
  intro s t h
  have hsource : s.source = t.source := congrArg (·.window.source) h.view
  have henough : enough s = enough t := by
    unfold enough
    rw [hsource]
  exact lockstep_since.exists_outcome (i := (s, t)) (.refl h) h.standard henough g

/-- The call of a rule that a trace shows enters it at once and leaves it last. -/
theorem QuietCopy.exists_leave (h : QuietCopy s t) {g : Goal} {r : Rule} (hr : g.rule? = some r)
    (shown : r.isTraced = true) :
    ∃ s' t', ((Parse.perform g).outcome s).2 = s'.leave r ∧ Since (s.enter r) t s' t' := by
  obtain ⟨fuel, hfuel⟩ : ∃ fuel, Parse.enough s = fuel + 1 :=
    ⟨Parse.enough s - 1, by unfold Parse.enough; omega⟩
  have ends := Parse.lockstep_since.step_same
    (fun i g => Parse.lockstep_since.run_same (Nat.le_refl fuel) i g) (s.enter r, t) g
    (s.enter r) t (.refl (h.enter r))
  have htrace : (s.tracing && r.isTraced) = true := by rw [h.traces, shown]; rfl
  have hrun : (Parse.run (Parse.enough s) g : Parse σ g.Result) =
      Parse.traced r (Parse.step (Parse.run fuel) g) := by
    rw [hfuel, Parse.run_succ]
    unfold Parse.tracedGoal
    rw [hr]
  -- the rule does not run out of fuel, or the call would
  have fueled : ∀ s', Parse.step (Parse.run fuel) g (s.enter r) ≠ .error .endlessRules s' := by
    intro s' hstep
    refine Parse.run_ne_exhausted h.standard (Parse.cost_le_enough g s) (s'.leave r) ?_
    rw [hrun, Parse.traced_of_shown htrace, hstep]
    rfl
  obtain ⟨_, s', t', hinside, -, since⟩ := ends.exists_outcome fueled
  refine ⟨s', t', ?_, since⟩
  rw [Parse.outcome_perform, hrun, Parse.outcome_traced htrace, hinside]

/-- A rule that a trace shows has its own lines around all others of its call. -/
theorem QuietCopy.ownLines (h : QuietCopy s t) {g : Goal} {r : Rule} (hr : g.rule? = some r)
    (shown : r.isTraced = true) :
    ∃ inside, Bracketed (s.depth + 1) inside ∧ ruleLines ((Parse.perform g).reported s).1.events =
      beginLine s.depth r :: (inside ++ [endLine s.depth r]) := by
  obtain ⟨s', t', hleave, since⟩ := h.exists_leave hr shown
  obtain ⟨inside, es, hinside, hown, hjournal, -⟩ := since.exists_ruleLines
  rw [← hleave] at hjournal
  refine ⟨inside, hinside, ?_⟩
  rw [Parse.reported_eq rfl hjournal, hown]

end Goals

/-! ## One request after the other -/

section Sessions

variable {ι : Type} {R : ι → Type} {perform : (i : ι) → Parse σ (R i)} {s t : State σ}

/-- The call without what it traced. -/
def Call.untraced (c : Call σ R) : Call σ R :=
  { c with report := c.report.untraced }

omit [TokenSource σ] in
/-- Blind requests come to the same one after the other, but for the lines of rules. -/
theorem QuietCopy.map_untraced_session (h : QuietCopy s t) (hdepth : s.depth = t.depth)
    {is : List ι} (hblind : ∀ i ∈ is, (perform i).Blind) :
    (session perform is s).map Call.untraced = session perform is t := by
  -- on the requests, each from the state in which the one before it left the parser
  induction is generalizing s t with
  | nil => rfl
  | cons i is ih =>
    obtain ⟨hi, his⟩ := List.forall_mem_cons.1 hblind
    obtain ⟨r, s', t', hs, ht, -, since⟩ := hi.reported h hdepth
    have hdepth' : s'.depth = t'.depth := by rw [since.depth, since.depth', hdepth]
    simp only [session, hs, ht, List.map_cons, ih since.copy hdepth' his]
    rfl

omit [TokenSource σ] in
/-- Each request is made of a parser that traces and has a quiet copy, with as many rules under way
as there were for the first one. -/
theorem QuietCopy.of_mem_session (h : QuietCopy s t) (hdepth : s.depth = t.depth) {is : List ι}
    (hblind : ∀ i ∈ is, (perform i).Blind) {c : Call σ R} (hc : c ∈ session perform is s) :
    c.request ∈ is ∧ ∃ s' t', QuietCopy s' t' ∧ s'.depth = s.depth ∧ t'.depth = s.depth ∧
      ((perform c.request).reported s').1 = c.report := by
  induction is generalizing s t with
  | nil => cases hc
  | cons i is ih =>
    obtain ⟨hi, his⟩ := List.forall_mem_cons.1 hblind
    obtain ⟨r, s', t', hs, -, -, since⟩ := hi.reported h hdepth
    simp only [session, hs, List.mem_cons] at hc
    -- it is the first call, or one of those behind it
    rcases hc with rfl | hc
    · exact ⟨List.mem_cons_self, s, t, h, rfl, hdepth.symm, by rw [hs]⟩
    · have hdepth' : s'.depth = t'.depth := by rw [since.depth, since.depth', hdepth]
      have hlater := ih since.copy hdepth' his hc
      rw [since.depth] at hlater
      exact ⟨List.mem_cons_of_mem i hlater.1, hlater.2⟩

omit [TokenSource σ] in
/-- The lines of rules are nested in every one of the reports. -/
theorem QuietCopy.nested_session (h : QuietCopy s t) (hdepth : s.depth = t.depth) {is : List ι}
    (hblind : ∀ i ∈ is, (perform i).Blind) :
    ∀ c ∈ session perform is s, c.report.Nested s.depth := by
  intro c hc
  obtain ⟨hmem, s', t', hcopy, hs', ht', hreport⟩ := h.of_mem_session hdepth hblind hc
  obtain ⟨r, u, u', hr, -, hnested, -⟩ :=
    (hblind c.request hmem).reported hcopy (hs'.trans ht'.symm)
  rw [← hreport, hr, ← hs']
  exact hnested

end Sessions

/-! ## Sessions by hand -/

/-- The command leaves the rules in the tables alone. -/
def Command.KeepsTables : Command → Prop
  | .registerStarting _ _ | .registerContinuing _ _ | .removeStarting _
  | .removeContinuing _ => False
  | _ => True

/-- Commands that leave the tables alone come to the same. -/
theorem Command.blind [LawfulTokenSource σ] {c : Command} (hc : c.KeepsTables) :
    (c.perform : Parse σ Reply).Blind := by
  cases c with
  | pursue g => exact (Parse.blind_perform g).map g.reply
  | diagnostics =>
    exact Parse.blind_looking fun s t h =>
      congrArg (fun v : View σ => Reply.diagnostics v.diagnostics) h.view
  | clearCopy => exact fun s t h => ⟨_, _, _, rfl, rfl, .refl h⟩
  | advance => exact fun s t h => ⟨_, _, _, rfl, rfl, (Since.refl h).advance⟩
  | recover => exact (Parse.blind_perform (.recovery 0)).map fun _ => Reply.nothing
  | expect wanted => exact (Parse.blind_expect? wanted).map fun t => Reply.flag t.isSome
  | currentIs k =>
    exact Parse.blind_looking fun s t h =>
      congrArg (fun v : View σ => Reply.flag (v.window.current.kind = k)) h.view
  | peekIs k =>
    exact Parse.blind_looking fun s t h =>
      congrArg (fun v : View σ => Reply.flag (v.window.peek.kind = k)) h.view
  | currentLevel =>
    exact Parse.blind_looking fun s t h =>
      congrArg (fun v : View σ => Reply.level v.window.current.kind.level) h.view
  | peekLevel =>
    exact Parse.blind_looking fun s t h =>
      congrArg (fun v : View σ => Reply.level v.window.peek.kind.level) h.view
  | registered =>
    refine Parse.blind_looking fun s t h => ?_
    rw [h.standard.1, h.standard.2, h.standard'.1, h.standard'.2]
  | registerStarting | registerContinuing | removeStarting | removeContinuing => exact hc.elim

/-- A session by hand that leaves the tables alone comes to the same whether the parser traces or
not, and the lines of rules are nested in the report on each of its commands. -/
theorem commands_transparent [LawfulTokenSource σ] (s : State σ) (hs : s.Standard)
    {cs : List Command} (hcs : ∀ c ∈ cs, c.KeepsTables) :
    (session Command.perform cs { s with tracing := true }).map Call.untraced =
        session Command.perform cs { s with tracing := false } ∧
      ∀ c ∈ session Command.perform cs { s with tracing := true }, c.report.Nested s.depth := by
  have hcopy : QuietCopy { s with tracing := true } { s with tracing := false } :=
    ⟨hs, hs, rfl, rfl, rfl⟩
  have hblind : ∀ c ∈ cs, (Command.perform c : Parse σ Reply).Blind :=
    fun c hc => Command.blind (hcs c hc)
  exact ⟨hcopy.map_untraced_session rfl hblind, hcopy.nested_session rfl hblind⟩

/-! ## Calls -/

/-- A call that was made with `depth` rules under way ends with as many. The lines of rules that it
added come in pairs, and a rule that a trace shows has its own lines around all others. -/
structure Call.Nested (c : Call σ Goal.Result) (depth : Nat) : Prop
    extends c.report.Nested depth where
  own : ∀ r, c.request.rule? = some r → r.isTraced = true →
    ∃ inside, Bracketed (depth + 1) inside ∧
      ruleLines c.report.events = beginLine depth r :: (inside ++ [endLine depth r])

/-- Whether a parser traces makes no difference to what its calls come to: to what they give or the
fault in which they end, to what they see afterwards and to what they find wrong. The journal of one
that does not trace is that of one that does without the lines of rules. And these come in pairs,
one within the other, and leave as many rules under way as there were, be it that the call ended in
a fault. -/
theorem tracing_transparent [LawfulTokenSource σ] (s : State σ) (hs : s.Standard)
    (gs : List Goal) :
    (calls gs { s with tracing := true }).map Call.untraced = calls gs { s with tracing := false } ∧
      ∀ c ∈ calls gs { s with tracing := true }, c.Nested s.depth := by
  have hcopy : QuietCopy { s with tracing := true } { s with tracing := false } :=
    ⟨hs, hs, rfl, rfl, rfl⟩
  have hblind : ∀ g ∈ gs, (Parse.perform g : Parse σ g.Result).Blind :=
    fun g _ => Parse.blind_perform g
  refine ⟨hcopy.map_untraced_session rfl hblind, fun c hc =>
    ⟨hcopy.nested_session rfl hblind c hc, fun r hr shown => ?_⟩⟩
  obtain ⟨-, s', t', hcopy', hdepth, -, hreport⟩ := hcopy.of_mem_session rfl hblind hc
  have hown := hcopy'.ownLines hr shown
  rwa [hreport, hdepth] at hown

/-- A parenthesis that is not closed, and then what follows it: the rules that were entered for the
first call are all left before the second one, which is nested no deeper. -/
theorem tracing_of_openParenthesis :
    let s : State (List Token) :=
      .start [.unplaced .leftParen "(", .unplaced .int "5", .unplaced .semicolon ";"] false
    let gs : List Goal := [.groupedExpression, .integerLiteral]
    (calls gs { s with tracing := true }).map Call.untraced = calls gs { s with tracing := false } ∧
      (∀ c ∈ calls gs { s with tracing := true }, c.Nested 0) ∧
      (calls gs { s with tracing := true }).map (fun c => c.report.events.map Event.line) =
        [["BEGIN parse_grouped_expression", "    BEGIN parse_expression",
            "        BEGIN parse_integer_literal", "        END parse_integer_literal",
            "    END parse_expression",
            "line 0, col 0: expected next token to be RPAREN, got SEMICOLON instead",
            "END parse_grouped_expression"],
          ["BEGIN parse_integer_literal", "END parse_integer_literal"]] := by
  intro s gs
  obtain ⟨hsame, hnested⟩ := tracing_transparent s ⟨rfl, rfl⟩ gs
  refine ⟨hsame, hnested, ?_⟩
  decide +kernel

end Pratt
