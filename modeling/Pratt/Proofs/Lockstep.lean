import Pratt.Proofs.Composition
import Pratt.Proofs.Fuel

/-!
# Pratt — two parsers in lockstep

All rules are composed alike, so what two parsers have in common is kept by every rule if the basic
actions keep it (`Lockstep`): the two runs end with the same result or in the same fault, and in
related states again (`Lockstep.step`). The tokens of the second parser may be others than those of
the first, of the same kinds and with the same texts; the results then differ in that and in nothing
else. The relation may depend on a parameter, which a traced rule may change for what is inside of
it.

`Alongside` leaves one way out: the first run may run out of fuel where the second does not. Hence
a run with less fuel is alongside one with more (`Lockstep.run`), and when neither runs out they
are the same (`run_eq_run`).

Three relations are kept up by all rules, whatever the source:

* what a parser was given as its source is replaced by something that gives the same tokens
  (`SourceMap.lockstep`);
* both parsers are in the same state (`lockstep_together`), so that pursuing a goal is using its
  rule once and pursuing the goals that the rule leads to, with no fuel to be seen
  (`perform_eq_step`);
* one of the parsers has reported something before (`lockstep_later`), so that a parse does not
  depend on what came before it (`Achieves.of_perform`).
-/

namespace Pratt

variable {σ τ α β γ ι : Type}

namespace Parse

variable {R : State σ → State τ → Prop}

/-- Two runs end with the same result or in the same fault, in related states. A first run that ran
out of fuel is alike any other. -/
inductive Alike (R : State σ → State τ → Prop) :
    EStateM.Result Fault (State σ) α → EStateM.Result Fault (State τ) α → Prop where
  | ok {v : α} {s : State σ} {t : State τ} (h : R s t) : Alike R (.ok v s) (.ok v t)
  | error {e : Fault} {s : State σ} {t : State τ} (h : R s t) : Alike R (.error e s) (.error e t)
  | exhausted {s : State σ} {r : EStateM.Result Fault (State τ) α} :
      Alike R (.error .endlessRules s) r

/-- From related states the two actions end alike. -/
def Alongside (R : State σ → State τ → Prop) (a : Parse σ α) (b : Parse τ α) : Prop :=
  ∀ s t, R s t → Alike R (a s) (b t)

/-- Where runs end alike and the first one did not run out of fuel, the result of the second one is
what `V` makes of that of the first one, or its fault is the same. -/
theorem Alike.exists_outcome_map {a : Parse σ α} {b : Parse τ β} {V : α → β} {s : State σ}
    {t : State τ} (ends : Alike R ((V <$> a) s) (b t))
    (fueled : ∀ s', a s ≠ .error .endlessRules s') :
    ∃ r s' t', a.outcome s = (r, s') ∧ b.outcome t = (r.map V, t') ∧ R s' t' := by
  change Alike R (EStateM.map V a s) (b t) at ends
  unfold EStateM.map at ends
  unfold outcome
  -- one case for each way in which two runs end alike; the last one needs the first run to lack
  -- fuel
  generalize a s = x at ends fueled ⊢
  generalize b t = y at ends ⊢
  cases x with
  | ok v s' =>
    cases ends with
    | ok h => exact ⟨_, _, _, rfl, rfl, h⟩
  | error e s' =>
    cases ends with
    | error h => exact ⟨_, _, _, rfl, rfl, h⟩
    | exhausted => exact absurd rfl (fueled _)

/-- Where runs end alike with the same results, the second one has the outcome of the first. -/
theorem Alike.exists_outcome {a : Parse σ α} {b : Parse τ α} {s : State σ} {t : State τ}
    (ends : Alike R (a s) (b t)) (fueled : ∀ s', a s ≠ .error .endlessRules s') :
    ∃ r s' t', a.outcome s = (r, s') ∧ b.outcome t = (r, t') ∧ R s' t' := by
  rw [← id_map a] at ends
  obtain ⟨r, s', t', ha, hb, h⟩ := ends.exists_outcome_map fueled
  refine ⟨r, s', t', ha, ?_, h⟩
  cases r <;> exact hb

/-! ## Sequencing -/

/-- Runs that end alike still do with something done to the states behind them that keeps these
related. -/
theorem Alike.afterwards {R' : State σ → State τ → Prop} {f : State σ → State σ}
    {g : State τ → State τ} {x : EStateM.Result Fault (State σ) α}
    {y : EStateM.Result Fault (State τ) α} (ends : Alike R x y)
    (keep : ∀ {s t}, R s t → R' (f s) (g t)) :
    Alike R' (Parse.afterwards f x) (Parse.afterwards g y) := by
  cases ends with
  | ok h => exact .ok (keep h)
  | error h => exact .error (keep h)
  | exhausted => exact .exhausted

/-- Giving the same value keeps what is common. -/
theorem Alongside.pure (v : α) : Alongside R (Pure.pure v) (Pure.pure v) :=
  fun _ _ h => .ok h

/-- Raising the same fault keeps what is common. -/
theorem Alongside.throw (e : Fault) :
    Alongside R (MonadExcept.throw e : Parse σ α) (MonadExcept.throw e) :=
  fun _ _ h => .error h

/-- What comes next may take the second result, which `V` makes from the first one. -/
theorem Alongside.bind_map {a : Parse σ α} {b : Parse τ β} {V : α → β} {k : α → Parse σ γ}
    {l : β → Parse τ γ} (h : Alongside R (V <$> a) b) (hk : ∀ v, Alongside R (k v) (l (V v))) :
    Alongside R (a >>= k) (b >>= l) := by
  intro s t hst
  have ends : Alike R (EStateM.map V a s) (b t) := h s t hst
  show Alike R (EStateM.bind a k s) (EStateM.bind b l t)
  unfold EStateM.map at ends
  unfold EStateM.bind
  -- what comes next is only run behind a result, which both have or neither
  cases ha : a s with
  | ok v s' =>
    rw [ha] at ends
    cases hb : b t with
    | ok w t' =>
      rw [hb] at ends
      cases ends with
      | ok h' => exact hk v s' t' h'
    | error e t' =>
      rw [hb] at ends
      cases ends
  | error e s' =>
    rw [ha] at ends
    cases hb : b t with
    | ok w t' =>
      rw [hb] at ends
      cases ends
      exact .exhausted
    | error e' t' =>
      rw [hb] at ends
      cases ends with
      | error h' => exact .error h'
      | exhausted => exact .exhausted

/-- What comes next may take the result that both have. -/
theorem Alongside.bind {a : Parse σ α} {b : Parse τ α} {k : α → Parse σ β} {l : α → Parse τ β}
    (h : Alongside R a b) (hk : ∀ v, Alongside R (k v) (l v)) :
    Alongside R (a >>= k) (b >>= l) := by
  rw [← id_map a] at h
  exact h.bind_map hk

/-- What depends on the states may depend on what is alike in them. -/
theorem Alongside.get {k : State σ → Parse σ α} {l : State τ → Parse τ α}
    (h : ∀ s t, R s t → Alongside R (k s) (l t)) :
    Alongside R (MonadState.get >>= k) (MonadState.get >>= l) :=
  fun s t hst => h s t hst s t hst

/-! ## Relations that rules keep up -/

/-- The result of a traced action is made into another one inside or outside of the trace. -/
theorem map_traced (V : α → β) (r : Rule) (a : Parse σ α) :
    V <$> traced r a = traced r (V <$> a) := by
  funext s
  show EStateM.map V (traced r a) s = traced r (EStateM.map V a) s
  unfold EStateM.map traced
  by_cases htrace : (s.tracing && r.isTraced) = true
  · simp only [if_pos htrace]
    cases a (s.enter r) <;> rfl
  · simp only [if_neg htrace]

/-- The result of a goal may be changed inside or outside of its trace. -/
theorem map_tracedGoal (V : α → β) (g : Goal) (a : Parse σ α) :
    V <$> tracedGoal g a = tracedGoal g (V <$> a) := by
  unfold tracedGoal
  cases g.rule? with
  | none => rfl
  | some r => exact map_traced V r a

/-- A goal is traced as it is with other tokens in it. -/
theorem tracedGoal_goal (φ : Respelling) (g : Goal) (a : Parse σ α) :
    tracedGoal (φ.goal g) a = tracedGoal g a := by
  unfold tracedGoal
  rw [φ.rule?_goal]

variable [TokenSource σ] [TokenSource τ]

/-- What relations between the states of two parsers have to keep up, where the tokens of the second
one stand for those of the first. A traced rule starts anew: what is inside of it may be related
otherwise than what is around it. -/
structure Lockstep (φ : Respelling) (R : ι → State σ → State τ → Prop) : Prop where
  sees : ∀ {i s t}, R i s t → Sees φ s t
  advance : ∀ {i s t}, R i s t → R i s.advance t.advance
  record : ∀ {i s t}, R i s t → ∀ d : Diagnostic,
    R i (s.record (.diagnostic d)) (t.record (.diagnostic (φ.diagnostic d)))
  traced : ∀ {α : Type} {a : Parse σ α} {b : Parse τ α} (r : Rule),
    (∀ i, Alongside (R i) a b) → ∀ i, Alongside (R i) (traced r a) (traced r b)

namespace Lockstep

variable {φ : Respelling} {R : ι → State σ → State τ → Prop} {p : Recur σ} {q : Recur τ}

/-- Actions that are put together alike end alike, if the goals that they lead to do. -/
theorem parallel (hR : Lockstep φ R)
    (sub : ∀ i g, Alongside (R i) (φ.result g <$> p g) (q (φ.goal g))) {V : α → β}
    {a : Parse σ α} {b : Parse τ β} (h : Parallel φ p q V a b) (i : ι) :
    Alongside (R i) (V <$> a) b := by
  -- on how the actions are put together
  induction h generalizing i with
  | pure value =>
    rw [map_pure, value]
    exact .pure _
  | throw e => exact .throw e
  | bind first later ih ih' =>
    rw [map_bind]
    exact (ih i).bind_map fun v => ih' v i
  | get seen ih =>
    rw [map_bind]
    exact .get fun s t hst => ih s t (hR.sees hst) i
  | report token cause => exact fun _ _ hst => .ok (hR.record hst ⟨token, cause⟩)
  | advance => exact fun _ _ hst => .ok (hR.advance hst)
  | traced r action ih =>
    rw [map_traced]
    exact hR.traced r ih i
  | pursue g => exact sub i g

/-- Every rule keeps the relations up, if the goals that it leads to do. No text may be changed, as
integers are read. -/
theorem step (hR : Lockstep φ R) (hφ : φ.Verbatim)
    (sub : ∀ i g, Alongside (R i) (φ.result g <$> p g) (q (φ.goal g))) (i : ι)
    (g : Goal) :
    Alongside (R i) (φ.result g <$> Parse.step p g) (Parse.step q (φ.goal g)) :=
  hR.parallel sub (.step g fun _ => hφ) i

/-- A goal that is traced on both sides keeps the relations up if its rule does. -/
theorem tracedGoal (hR : Lockstep φ R) (g : Goal) {a : Parse σ α} {b : Parse τ α}
    (h : ∀ i, Alongside (R i) a b) (i : ι) :
    Alongside (R i) (Parse.tracedGoal g a) (Parse.tracedGoal g b) := by
  unfold Parse.tracedGoal
  cases g.rule? with
  | none => exact h i
  | some r => exact hR.traced r h i

/-- A run with less fuel is alongside one with more. -/
theorem run (hR : Lockstep φ R) (hφ : φ.Verbatim) {fuel fuel' : Nat} (hle : fuel ≤ fuel') (i : ι)
    (g : Goal) :
    Alongside (R i) (φ.result g <$> Parse.run fuel g) (Parse.run fuel' (φ.goal g)) := by
  induction fuel generalizing fuel' i g with
  | zero => exact fun _ _ _ => .exhausted
  | succ fuel ih =>
    obtain ⟨more, rfl⟩ : ∃ more, fuel' = more + 1 := ⟨fuel' - 1, by omega⟩
    have sub := fun i g => ih (Nat.le_of_succ_le_succ hle) i g
    rw [run_succ, run_succ, map_tracedGoal, tracedGoal_goal]
    exact hR.tracedGoal g (fun i => hR.step hφ sub i g) i

/-! ### The same tokens -/

section Same

variable (hR : Lockstep .identity R)
include hR

omit [TokenSource σ] [TokenSource τ] hR in
/-- Goals whose tokens stay what they are are the goals themselves, and give the same. -/
theorem respelled_of_same {i : ι} {g : Goal} (h : Alongside (R i) (p g) (q g)) :
    Alongside (R i) (Respelling.identity.result g <$> p g) (q (Respelling.identity.goal g)) := by
  rwa [Respelling.goal_identity_iff g fun h V => Alongside (R i) (V <$> p g) (q h), id_map]

/-- Actions that are put together alike and give a tree. -/
theorem parallel_same (sub : ∀ i g, Alongside (R i) (p g) (q g)) {a : Parse σ (Option Node)}
    {b : Parse τ (Option Node)} (h : Parallel .identity p q Respelling.identity.child a b) (i : ι) :
    Alongside (R i) a b := by
  have hchild : Respelling.identity.child = id := funext Respelling.child_identity
  have hparallel := hR.parallel (fun i g => respelled_of_same (sub i g)) h i
  rwa [hchild, id_map] at hparallel

/-- Where the tokens are the same, the goals and their results are. -/
theorem step_same (sub : ∀ i g, Alongside (R i) (p g) (q g)) (i : ι) (g : Goal) :
    Alongside (R i) (Parse.step p g) (Parse.step q g) := by
  have hstep := hR.step Respelling.verbatim_identity (fun i g => respelled_of_same (sub i g)) i g
  rwa [Respelling.goal_identity_iff g fun h V =>
    Alongside (R i) (V <$> Parse.step p g) (Parse.step q h), id_map] at hstep

/-- A run with less fuel is alongside one with more, over the same tokens. -/
theorem run_same {fuel fuel' : Nat} (hle : fuel ≤ fuel') (i : ι) (g : Goal) :
    Alongside (R i) (Parse.run fuel g) (Parse.run fuel' g) := by
  have hrun := hR.run Respelling.verbatim_identity hle i g
  rwa [Respelling.goal_identity_iff g fun h V =>
    Alongside (R i) (V <$> Parse.run fuel g) (Parse.run fuel' h), id_map] at hrun

end Same

end Lockstep

omit [TokenSource σ] in
/-- What a rule sees under the tables of the language is the window. -/
theorem Sees.of_window {s t : State σ} (hs : s.Standard) (ht : t.Standard)
    (hwindow : s.view.window = t.view.window) : Sees .identity s t := by
  refine .of_same (congrArg Window.current hwindow.symm) (congrArg Window.peek hwindow.symm) ?_ ?_
  · rw [hs.1, ht.1]
  · rw [hs.2, ht.2]

/-! ## Traces -/

omit [TokenSource σ] [TokenSource τ] in
/-- Parsers that trace alike. -/
theorem alongside_traced_of_same {a : Parse σ α} {b : Parse τ α} {r : Rule}
    (tracing : ∀ {s t}, R s t → s.tracing = t.tracing)
    (enter : ∀ {s t}, R s t → R (s.enter r) (t.enter r))
    (leave : ∀ {s t}, R s t → R (s.leave r) (t.leave r)) (h : Alongside R a b) :
    Alongside R (traced r a) (traced r b) := by
  intro s t hst
  by_cases htrace : (t.tracing && r.isTraced) = true
  · rw [traced_of_shown ((tracing hst).symm ▸ htrace), traced_of_shown htrace]
    exact (h _ _ (enter hst)).afterwards leave
  · rw [traced_of_not_shown ((tracing hst).symm ▸ htrace), traced_of_not_shown htrace]
    exact h s t hst

omit [TokenSource σ] [TokenSource τ] in
/-- A trace on the one side only. What it surrounds may be related otherwise than what is around
it. -/
theorem alongside_traced_left {a : Parse σ α} {b : Parse τ α} {r : Rule}
    (inside : ∀ {s t}, R s t → ∃ R', R' (s.enter r) t ∧ Alongside R' a b ∧
      ∀ {s' t'}, R' s' t' → R (s'.leave r) t') (h : Alongside R a b) :
    Alongside R (traced r a) b := by
  intro s t hst
  by_cases htrace : (s.tracing && r.isTraced) = true
  · obtain ⟨R', henter, hab, leave⟩ := inside hst
    -- behind the action, something is recorded on the one side and nothing on the other
    rw [traced_of_shown htrace, ← afterwards_id (b t)]
    exact (hab _ _ henter).afterwards leave
  · rw [traced_of_not_shown htrace]
    exact h s t hst

omit [TokenSource σ] [TokenSource τ] in
/-- Parsers whose traces are not compared. -/
theorem alongside_traced_of_unseen {a : Parse σ α} {b : Parse τ α} {r : Rule}
    (enter : ∀ {s t}, R s t → R (s.enter r) t ∧ R s (t.enter r))
    (leave : ∀ {s t}, R s t → R (s.leave r) t ∧ R s (t.leave r)) (h : Alongside R a b) :
    Alongside R (traced r a) (traced r b) := by
  -- first the trace of one side, then that of the other
  have left : Alongside R (traced r a) b :=
    alongside_traced_left (fun hst => ⟨R, (enter hst).1, h, fun h' => (leave h').1⟩) h
  intro s t hst
  by_cases htrace : (t.tracing && r.isTraced) = true
  · rw [traced_of_shown htrace, ← afterwards_id (traced r a s)]
    exact (left _ _ (enter hst).2).afterwards fun h' => (leave h').2
  · rw [traced_of_not_shown htrace]
    exact left s t hst

end Parse

/-! ## Another source -/

/-- The state with what becomes of its source in the place of the source. -/
def State.mapSource (f : σ → τ) (s : State σ) : State τ :=
  { s with source := f s.source }

variable [TokenSource σ] [TokenSource τ]

/-- What becomes of a source gives the same tokens. -/
structure SourceMap (f : σ → τ) : Prop where
  next : ∀ source, TokenSource.next (f source) =
    ((TokenSource.next source).1, f (TokenSource.next source).2)
  remaining : ∀ source, TokenSource.remaining (f source) = TokenSource.remaining source

/-- A source may stand for itself. -/
theorem SourceMap.id : SourceMap (id : σ → σ) :=
  ⟨fun _ => rfl, fun _ => rfl⟩

namespace SourceMap

variable {f : σ → τ} (hf : SourceMap f)
include hf

/-- Moving on pulls the same token from what the source is replaced by. -/
theorem mapSource_advance (s : State σ) : s.advance.mapSource f = (s.mapSource f).advance := by
  simp only [State.mapSource, State.advance, hf.next]

/-- A new parser over the one source is a new parser over the other one. -/
theorem mapSource_start (source : σ) (tracing : Bool) :
    (State.start source tracing).mapSource f = State.start (f source) tracing := by
  simp only [State.start, hf.mapSource_advance]
  rfl

/-- Both have the same fuel to go. -/
theorem enough_mapSource (s : State σ) : Parse.enough (s.mapSource f) = Parse.enough s := by
  simp only [Parse.enough, State.mapSource, hf.remaining]

/-- Which source the tokens come from makes no difference. -/
theorem lockstep : Parse.Lockstep .identity
    fun (_ : Unit) (t : State τ) (s : State σ) => t = s.mapSource f where
  sees := by rintro _ _ s rfl; exact .of_same rfl rfl rfl rfl
  advance := by rintro _ _ s rfl; exact (hf.mapSource_advance s).symm
  record := by rintro _ _ s rfl d; rfl
  traced r h i := Parse.alongside_traced_of_same (by rintro _ s rfl; rfl) (by rintro _ s rfl; rfl)
    (by rintro _ s rfl; rfl) (h i)

end SourceMap

/-! ## Without running out of fuel -/

namespace Parse

section Fueled

variable [LawfulTokenSource σ] {fuel fuel' : Nat} {g : Goal} {s : State σ}

/-- With the fuel that a goal costs, a run is not exhausted. -/
theorem run_ne_exhausted (hs : s.Standard) (hcost : g.cost s.view.window ≤ fuel) (s' : State σ) :
    run fuel g s ≠ .error .endlessRules s' := by
  intro hrun
  have ends := ensures_run_cost hcost s hs rfl
  rw [hrun] at ends
  exact ends.2 rfl

/-- Fuel that is not used makes no difference. -/
theorem run_eq_run_of_le (hs : s.Standard) (hcost : g.cost s.view.window ≤ fuel)
    (hle : fuel ≤ fuel') : run fuel g s = run fuel' g s := by
  have ends := (SourceMap.id (σ := σ)).lockstep.run_same hle () g s s rfl
  have fueled := run_ne_exhausted hs hcost
  generalize run fuel g s = x at ends fueled ⊢
  generalize run fuel' g s = y at ends fueled ⊢
  cases ends with
  | ok h => rw [h]; rfl
  | error h => rw [h]; rfl
  | exhausted => exact absurd rfl (fueled _)

/-- Fuel beyond what a goal costs makes no difference. -/
theorem run_eq_run (hs : s.Standard) (hcost : g.cost s.view.window ≤ fuel)
    (hcost' : g.cost s.view.window ≤ fuel') : run fuel g s = run fuel' g s := by
  rcases Nat.le_total fuel fuel' with hle | hle
  · exact run_eq_run_of_le hs hcost hle
  · exact (run_eq_run_of_le hs hcost' hle).symm

/-- A call is a run with any fuel that suffices. -/
theorem perform_eq_run (hs : s.Standard) (hcost : g.cost s.view.window ≤ fuel) :
    perform g s = run fuel g s :=
  run_eq_run hs (cost_le_enough g s) hcost

end Fueled

/-- A call has the outcome of a run with the fuel that it takes. -/
theorem outcome_perform (g : Goal) (s : State σ) :
    (perform g).outcome s = (run (enough s) g).outcome s := by
  unfold outcome perform
  rfl

/-- From related states that leave as much to read, a goal comes to the same. -/
theorem Lockstep.exists_outcome [LawfulTokenSource σ] {R : ι → State σ → State τ → Prop}
    (hR : Lockstep .identity R) {i : ι} {s : State σ} {t : State τ} (h : R i s t)
    (hs : s.Standard) (henough : enough s = enough t) (g : Goal) :
    ∃ r s' t', (perform g).outcome s = (r, s') ∧ (perform g).outcome t = (r, t') ∧ R i s' t' := by
  rw [outcome_perform, outcome_perform]
  exact (hR.run_same (Nat.le_of_eq henough) i g s t h).exists_outcome
    (run_ne_exhausted hs (cost_le_enough g s))

omit [TokenSource σ] in
/-- A run ends as another one does that it stays alongside, with any source in the place of its own,
if the fuel is enough for it. -/
theorem outcome_of_alongside [LawfulTokenSource τ] {f : σ → τ} {g : Goal} {fuel : Nat}
    {a : Parse σ g.Result} {s : State σ} (hs : s.Standard)
    (hcost : g.cost (s.mapSource f).view.window ≤ fuel)
    (h : Alongside (fun (t : State τ) (s : State σ) => t = s.mapSource f) (run fuel g) a) :
    (run fuel g).outcome (s.mapSource f) = ((a.outcome s).1, (a.outcome s).2.mapSource f) := by
  have fueled := run_ne_exhausted (s := s.mapSource f) hs hcost
  obtain ⟨r, _, s', hrun, ha, rfl⟩ := (h _ s rfl).exists_outcome fueled
  rw [hrun, ha]

end Parse

/-- A program is parsed alike, whatever its tokens come from. -/
theorem parseProgram_mapSource [LawfulTokenSource τ] {f : σ → τ} (hf : SourceMap f) (source : σ)
    (tracing : Bool) :
    parseProgram (f source) tracing =
      ((parseProgram source tracing).1, (parseProgram source tracing).2.mapSource f) := by
  have henough := hf.enough_mapSource (State.start source tracing)
  have hcost := Parse.cost_le_enough .program ((State.start source tracing).mapSource f)
  have h := Parse.outcome_of_alongside (s := State.start source tracing) ⟨rfl, rfl⟩ hcost
    (hf.lockstep.run_same (Nat.le_of_eq henough) () .program)
  rw [hf.mapSource_start] at h
  unfold parseProgram
  rw [Parse.outcome_perform, Parse.outcome_perform]
  exact h

/-! ## One step of a goal -/

namespace Parse

/-- Both are in the same state, with the tables of the language. -/
def Together (s t : State σ) : Prop :=
  t = s ∧ s.Standard

omit [TokenSource σ] in
/-- Two runs that end alike in the same state are the same, unless the first one ran out of fuel. -/
theorem Alike.eq {x y : EStateM.Result Fault (State σ) α} (h : Alike Together x y)
    (fueled : ∀ s, x ≠ .error .endlessRules s) : x = y := by
  cases h with
  | ok h => rw [h.1]
  | error h => rw [h.1]
  | exhausted => exact absurd rfl (fueled _)

/-- Being in the same state is kept up by all rules. -/
theorem lockstep_together : Lockstep .identity fun (_ : Unit) => Together (σ := σ) where
  sees := by
    rintro - s _ ⟨rfl, -⟩
    exact .of_same rfl rfl rfl rfl
  advance := by
    rintro - s _ ⟨rfl, hs⟩
    exact ⟨rfl, hs⟩
  record := by
    rintro - s _ ⟨rfl, hs⟩ d
    exact ⟨rfl, hs⟩
  traced r h i := by
    -- one state is the other, so both trace or neither does
    refine alongside_traced_of_same ?_ ?_ ?_ (h i)
    · rintro s _ ⟨rfl, -⟩
      rfl
    · rintro s _ ⟨rfl, hs⟩
      exact ⟨rfl, hs⟩
    · rintro s _ ⟨rfl, hs⟩
      exact ⟨rfl, hs⟩

variable [LawfulTokenSource σ]

/-- A run with any amount of fuel is alongside one with enough. -/
theorem alongside_perform (fuel : Nat) (g : Goal) :
    Alongside Together (run fuel g : Parse σ g.Result) (perform g) := by
  intro s t hst
  obtain ⟨rfl, ht⟩ := hst
  rcases Nat.le_total fuel (enough t) with hle | hle
  · exact lockstep_together.run_same hle () g t t ⟨rfl, ht⟩
  · -- fuel beyond what is enough changes nothing
    have hrun : perform g t = run fuel g t := run_eq_run_of_le ht (cost_le_enough g t) hle
    rw [hrun]
    exact lockstep_together.run_same (Nat.le_refl fuel) () g t t ⟨rfl, ht⟩

/-- A call does not run out of fuel. -/
theorem perform_ne_exhausted {s : State σ} (hs : s.Standard) (g : Goal) (s' : State σ) :
    perform g s ≠ .error .endlessRules s' :=
  run_ne_exhausted hs (cost_le_enough g s) s'

/-- So a call ends with a result, or in a fault of the rules. -/
theorem outcome_ne_exhausted {s : State σ} (hs : s.Standard) (g : Goal) :
    ((perform g).outcome s).1 ≠ .error .endlessRules := by
  unfold outcome
  cases hrun : perform g s with
  | ok v t => exact nofun
  | error e t =>
    intro he
    cases he
    exact perform_ne_exhausted hs g t hrun

/-- To pursue a goal is to use its rule once and to pursue the goals that the rule leads to. -/
theorem perform_eq_step {s : State σ} (hs : s.Standard) (g : Goal) :
    perform g s = tracedGoal g (step perform g) s := by
  have hunfold : perform g s = tracedGoal g (step (run (enough s)) g) s :=
    perform_eq_run hs (Nat.le_succ_of_le (cost_le_enough g s))
  have sub : ∀ (_ : Unit) (g : Goal),
      Alongside Together (run (enough s) g : Parse σ g.Result) (perform g) :=
    fun _ g => alongside_perform (enough s) g
  have ends := lockstep_together.tracedGoal g
    (fun i => lockstep_together.step_same sub i g) () s s ⟨rfl, hs⟩
  rw [← hunfold] at ends
  exact ends.eq (perform_ne_exhausted hs g)

end Parse

/-! ## Earlier diagnostics -/

/-- The parsers see the same, and the first one has reported these diagnostics before what the
second one has reported. -/
def State.Later (ds : List Diagnostic) (s t : State σ) : Prop :=
  s.Standard ∧ t.Standard ∧ s.view = ⟨t.view.window, ds ++ t.diagnostics⟩

namespace Parse

/-- What was reported before makes no difference. -/
theorem lockstep_later (ds : List Diagnostic) :
    Lockstep .identity fun (_ : Unit) => State.Later (σ := σ) ds where
  sees := by
    rintro - s t ⟨hs, ht, hview⟩
    -- diagnostics are no part of what a rule sees
    refine .of_window hs ht ?_
    rw [hview]
  advance := by
    rintro - s t ⟨hs, ht, hview⟩
    refine ⟨hs, ht, ?_⟩
    rw [State.view_advance, hview]
    rfl
  record := by
    rintro - s t ⟨hs, ht, hview⟩ d
    refine ⟨hs, ht, ?_⟩
    rw [State.view_record, State.diagnostics_record, hview]
    exact congrArg (View.mk _) (List.append_assoc ..)
  traced r h i := by
    refine alongside_traced_of_unseen ?_ ?_ (h i)
    · rintro s t ⟨hs, ht, hview⟩
      refine ⟨⟨hs, ht, ?_⟩, hs, ht, ?_⟩
      · rw [State.view_enter, hview]
      · rw [hview, State.view_enter, State.diagnostics_enter]
    · rintro s t ⟨hs, ht, hview⟩
      refine ⟨⟨hs, ht, ?_⟩, hs, ht, ?_⟩
      · rw [State.view_leave, hview]
      · rw [hview, State.view_leave, State.diagnostics_leave]

/-- What is known of one amount of fuel is known of every other, unless that runs out. -/
theorem run_of_perform [LawfulTokenSource σ] {g : Goal} {v : g.Result} {t t' : State σ}
    (ht : t.Standard) (hrun : perform g t = .ok v t') (fuel : Nat) :
    (∃ u, run fuel g t = .error .endlessRules u) ∨ run fuel g t = .ok v t' := by
  have henough : run (enough t) g t = .ok v t' := hrun
  rcases Nat.le_total fuel (enough t) with hle | hle
  · have ends := (SourceMap.id (σ := σ)).lockstep.run_same hle () g t t rfl
    rw [henough] at ends
    generalize run fuel g t = x at ends ⊢
    cases ends with
    | ok h => exact .inr (by rw [h]; rfl)
    | exhausted => exact .inl ⟨_, rfl⟩
  · exact .inr ((run_eq_run_of_le ht (cost_le_enough g t) hle).symm.trans henough)

/-- A goal that was pursued once is pursued alike wherever the same is seen, with other diagnostics
before. -/
theorem Achieves.of_perform [LawfulTokenSource σ] {g : Goal} {v : g.Result} {t t' : State σ}
    (ht : t.Standard) (hrun : Parse.perform g t = .ok v t') (ds : List Diagnostic) :
    Achieves g ⟨t.view.window, ds ++ t.diagnostics⟩
      (fun w y => w = v ∧ y = ⟨t'.view.window, ds ++ t'.diagnostics⟩) fun _ _ => False := by
  intro fuel s hs hview
  -- the run with less fuel is compared with the one that had enough
  have ends := (lockstep_later ds).run_same (Nat.le_refl fuel) () g s t ⟨hs, ht, hview⟩
  have standard := ensures_run_follows fuel g _ s hs hview
  rcases run_of_perform ht hrun fuel with ⟨u, hu⟩ | hok
  · rw [hu] at ends
    generalize run fuel g s = x at standard ends ⊢
    cases ends with
    | error _ | exhausted => exact ⟨standard.1, fun hne => absurd rfl hne⟩
  · rw [hok] at ends
    generalize run fuel g s = x at standard ends ⊢
    cases ends with
    | ok h => exact ⟨standard.1, rfl, h.2.2⟩
    | exhausted => exact ⟨standard.1, fun hne => absurd rfl hne⟩

end Parse

end Pratt
