import Pratt.Proofs.Lockstep

/-!
# Pratt — recovery from a spoilt `let`

A `let` without a name or without the sign behind it gives no statement. One diagnostic says what
is missing, and what is left of the statement is skipped. Where the skip ends does not depend on
where it starts, which is on the word or on the name: braces are skipped as a unit, whatever stands
in them, and outside of them it ends behind the first semicolon, or else in front of what closes a
block or begins a statement with a word.

The skip counts braces as it moves onto them, so it is followed along `Nested` lists, in which they
match (`achieves_recovery_of_nested`, by induction on the nesting with the rest of the skip behind
it). What it comes to is that a spoilt `let` adds a diagnostic and nothing else to the statements
behind it (`Spoilt.achieves_statements`, `perform_statements_of_spoilt`).
-/

namespace Pratt

/-! ## Spoilt statements -/

/-- Braces match in the tokens, the end of the input is not among them, and outside of the braces
there is none of the barred kinds. -/
inductive Nested : List Kind → List Token → Prop where
  | nil {barred : List Kind} : Nested barred []
  | token {barred : List Kind} {t : Token} {ts : List Token}
    (other : t.kind ∉ [Kind.eof, .leftBrace, .rightBrace]) (allowed : t.kind ∉ barred)
    (later : Nested barred ts) : Nested barred (t :: ts)
  | braces {barred : List Kind} {opening closing : Token} {us ts : List Token}
    (opens : opening.kind = .leftBrace) (closes : closing.kind = .rightBrace)
    (inside : Nested [] us) (later : Nested barred ts) :
    Nested barred (opening :: (us ++ closing :: ts))

/-- The word of a `let` statement and tokens behind it that do not begin with a name and the sign.
They go on at most to where the statement is over. -/
structure Spoilt (word : Token) (us : List Token) : Prop where
  word : word.kind = .letWord
  nested : Nested [.semicolon, .letWord, .returnWord] us
  unassigned : ¬∃ name sign later, us = name :: sign :: later ∧ name.kind = .ident ∧
    sign.kind = .assign

variable {σ : Type} [TokenSource σ]

/-- Where parsing goes on behind a statement that could not be parsed and is followed by what the
window is on. -/
def Window.resumed (w : Window σ) : Window σ :=
  if w.current.kind = .semicolon then w.advance else w

/-- What is wrong at the word of a `let` that has not both a name and a sign. -/
def Window.letFault (w : Window σ) : Diagnostic :=
  if w.peek.kind = .ident then ⟨w.advance.peek, .expected .assign⟩ else ⟨w.peek, .expected .ident⟩

namespace Parse

variable {ds : List Diagnostic} {depth : Nat}

/-! ## The skip -/

/-- A token on which a skip that is inside this many braces does not end. -/
def Skippable (depth : Nat) (t : Token) : Prop :=
  t.kind ≠ .eof ∧ (depth = 0 → t.kind ≠ .semicolon)

/-- The skip moves on, unless the next token is one that it stops in front of. -/
theorem achieves_recovery_of_advance {w : Window σ} {after : Nat} {Q : Unit → View σ → Prop}
    {E : Fault → View σ → Prop} (hcurrent : Skippable depth w.current) (hpeek : w.peek.kind ≠ .eof)
    (hword : depth = 0 → w.peek.kind ∉ [Kind.rightBrace, .letWord, .returnWord])
    (hafter : w.peek.kind.depthAfter depth = after)
    (h : Achieves (.recovery after) ⟨w.advance, ds⟩ Q E) :
    Achieves (.recovery depth) ⟨w, ds⟩ Q E := by
  subst hafter
  refine .of_step fun fuel => ensures_recovery (fun hstop => ?_) fun _ _ _ => h fuel
  rcases hstop with heof | heof | ⟨houter, hsemicolon | hstopper⟩
  · exact absurd heof hcurrent.1
  · exact absurd heof hpeek
  · exact absurd hsemicolon (hcurrent.2 houter)
  · exact absurd hstopper (hword houter)

/-- Where a skip may stop it stops at once. -/
theorem achieves_recovery_of_stop {w : Window σ}
    (hstop : w.current.kind = .semicolon ∨
      w.peek.kind ∈ [Kind.rightBrace, .letWord, .returnWord, .eof]) :
    Achieves (.recovery 0) ⟨w, ds⟩ (fun _ y => y = ⟨w, ds⟩) fun _ _ => False := by
  refine .of_step fun fuel => ensures_recovery (fun _ => rfl) fun _ hpeek hmore => ?_
  -- at the end of the input it stops for another reason
  refine absurd ⟨rfl, hstop.imp_right fun hmem => ?_⟩ hmore
  simpa [show w.peek.kind ≠ .eof from hpeek] using hmem

/-- A skip over tokens in which braces match comes out at the depth at which it was before them. -/
theorem achieves_recovery_of_nested {barred : List Kind} {us : List Token} {w z : Window σ}
    {Q : Unit → View σ → Prop} {E : Fault → View σ → Prop} (hus : Nested barred us)
    (hbarred : depth = 0 → barred = [.semicolon, .letWord, .returnWord])
    (hcurrent : Skippable depth w.current) (hreads : w.advance.Reads us z)
    (later : ∀ v : Window σ, v.advance = z → Skippable depth v.current →
      Achieves (.recovery depth) ⟨v, ds⟩ Q E) :
    Achieves (.recovery depth) ⟨w, ds⟩ Q E := by
  induction hus generalizing depth w z with
  | nil => exact later w hreads hcurrent
  | token other allowed _ ih =>
    obtain ⟨hpeek, hreads⟩ := hreads
    rw [Window.current_advance] at hpeek
    -- outside of all braces the kinds that end a skip are the barred ones
    have houtside := fun houter => hbarred houter ▸ allowed
    refine achieves_recovery_of_advance hcurrent ?_ (fun houter => ?_) ?_
      (ih hbarred ⟨?_, fun houter => ?_⟩ hreads later)
    · rw [hpeek]
      exact fun heof => other (by simp [heof])
    · have := houtside houter
      simp_all
    · rw [hpeek]
      exact Kind.depthAfter_of_ne (fun hopening => other (by simp [hopening]))
        fun hclosing => other (by simp [hclosing])
    · rw [Window.current_advance, hpeek]
      exact fun heof => other (by simp [heof])
    · have := houtside houter
      simp_all
  | braces opens closes _ _ ihInside ihLater =>
    obtain ⟨hpeek, hreads⟩ := hreads
    obtain ⟨v, hinside, hclosing, hlater⟩ := Window.reads_append.1 hreads
    have hopens : w.peek.kind = .leftBrace := (congrArg Token.kind hpeek).trans opens
    have hcloses : v.current.kind = .rightBrace := (congrArg Token.kind hclosing).trans closes
    have inner : depth + 1 ≠ 0 := depth.succ_ne_zero
    -- onto the opening brace, and along what stands between the braces
    refine achieves_recovery_of_advance hcurrent (by simp [hopens]) (fun _ => by simp [hopens])
      (congrArg (Kind.depthAfter depth) hopens) ?_
    refine ihInside (fun houter => absurd houter inner)
      ⟨by simp [hopens], fun houter => absurd houter inner⟩ hinside fun u hu hskippable => ?_
    -- onto the closing brace, and along what stands behind it
    have hnext : u.peek.kind = .rightBrace := by rw [← Window.current_advance, hu, hcloses]
    refine achieves_recovery_of_advance hskippable (by simp [hnext])
      (fun houter => absurd houter inner) (congrArg (Kind.depthAfter (depth + 1)) hnext) ?_
    rw [hu]
    exact ihLater hbarred ⟨by simp [hcloses], fun _ => by simp [hcloses]⟩ hlater later

/-- The skip over the rest of a statement ends with the next move onto what parsing goes on at. -/
theorem achieves_recovery_of_reads {us : List Token} {w z : Window σ}
    (hus : Nested [.semicolon, .letWord, .returnWord] us) (hcurrent : Skippable 0 w.current)
    (hreads : w.advance.Reads us z)
    (hz : z.current.kind ∈ [Kind.semicolon, .letWord, .returnWord, .rightBrace, .eof]) :
    Achieves (.recovery 0) ⟨w, ds⟩ (fun _ y => y.advance = ⟨z.resumed, ds⟩) fun _ _ => False := by
  refine achieves_recovery_of_nested hus (fun _ => rfl) hcurrent hreads fun v hv hskippable => ?_
  have hpeek : v.peek = z.current := by rw [← Window.current_advance, hv]
  unfold Window.resumed
  by_cases hsemicolon : z.current.kind = .semicolon
  -- the semicolon is moved onto, and then left by the next move
  · have hnext : v.peek.kind = .semicolon := (congrArg Token.kind hpeek).trans hsemicolon
    rw [if_pos hsemicolon]
    refine achieves_recovery_of_advance hskippable (by simp [hnext]) (fun _ => by simp [hnext])
      (congrArg (Kind.depthAfter 0) hnext) ?_
    rw [hv]
    refine (achieves_recovery_of_stop (.inl hsemicolon)).imp_result fun _ y hy => ?_
    rw [hy]
    rfl
  · rw [if_neg hsemicolon]
    refine (achieves_recovery_of_stop (.inr ?_)).imp_result fun _ y hy => ?_
    · rw [hpeek]
      have table : ∀ k ∈ [Kind.semicolon, .letWord, .returnWord, .rightBrace, .eof],
          k ≠ .semicolon → k ∈ [Kind.rightBrace, .letWord, .returnWord, .eof] := by decide
      exact table _ hz hsemicolon
    · rw [hy]
      exact congrArg (View.mk · ds) hv

/-! ## The statement -/

/-- Nothing is given and one thing is reported, and from where that leaves the window the skip and
one more move lead to `z`. -/
def Abandons (x : View σ) (d : Diagnostic) (z : Window σ) (v : Option Node) (y : View σ) : Prop :=
  v = none ∧ y.diagnostics = x.diagnostics ++ [d] ∧
    Achieves (.recovery 0) y (fun _ u => u.advance = ⟨z, x.diagnostics ++ [d]⟩) fun _ _ => False

end Parse

namespace Spoilt

open Parse

variable {word : Token} {us : List Token} {x : View σ} {z : Window σ} (h : Spoilt word us)
  (hreads : x.window.Reads (word :: us) z)
  (hz : z.current.kind ∈ [Kind.semicolon, .letWord, .returnWord, .rightBrace, .eof])
include h

omit [TokenSource σ] in
/-- Behind a name that begins a spoilt statement braces match too. -/
theorem nested_tail {name : Token} {later : List Token} (hus : us = name :: later)
    (hname : name.kind = .ident) : Nested [.semicolon, .letWord, .returnWord] later := by
  have hnested := h.nested
  rw [hus] at hnested
  cases hnested with
  | token _ _ hlater => exact hlater
  | braces opens => exact absurd (opens.symm.trans hname) (by decide)

include hreads hz

theorem achieves_letStatement :
    Achieves .letStatement x (Abandons x x.window.letFault z.resumed) fun _ _ => False := by
  obtain ⟨hcurrent, hreads⟩ := hreads
  have hletWord : x.current.kind = .letWord := (congrArg Token.kind hcurrent).trans h.word
  -- what is behind the statement is neither a name nor the sign
  have table : ∀ k ∈ [Kind.semicolon, .letWord, .returnWord, .rightBrace, .eof],
      k ≠ .ident ∧ k ≠ .assign := by decide
  obtain ⟨hident, hassign⟩ := table _ hz
  refine .of_step fun fuel => ensures_letStatement (fun hname => ?_) (fun hname hsign => ?_)
    fun hname hsign => ?_
  -- without a name the skip starts on the word
  · rw [Window.letFault, if_neg hname]
    refine ⟨rfl, rfl, achieves_recovery_of_reads h.nested ⟨?_, fun _ => ?_⟩ hreads hz⟩
    · simp [hletWord]
    · simp [hletWord]
  -- without the sign it starts on the name
  · rw [Window.letFault, if_pos hname]
    have hnamed : x.window.advance.current.kind = .ident := hname
    cases us with
    | nil =>
      rw [show x.window.advance = z from hreads] at hnamed
      exact absurd hnamed hident
    | cons name later =>
      obtain ⟨hfirst, hreads⟩ := hreads
      rw [hfirst] at hnamed
      refine ⟨rfl, rfl, achieves_recovery_of_reads (h.nested_tail rfl hnamed) ⟨?_, fun _ => ?_⟩
        hreads hz⟩
      · simp [hname]
      · simp [hname]
  -- with both it would not be spoilt
  · have hnamed : x.window.advance.current.kind = .ident := hname
    have hsigned : x.window.advance.advance.current.kind = .assign := hsign
    match us with
    | [] =>
      rw [show x.window.advance = z from hreads] at hnamed
      exact absurd hnamed hident
    | [name] =>
      rw [show x.window.advance.advance = z from hreads.2] at hsigned
      exact absurd hsigned hassign
    | name :: sign :: later =>
      rw [hreads.1] at hnamed
      rw [hreads.2.1] at hsigned
      exact absurd ⟨name, sign, later, rfl, hnamed, hsigned⟩ h.unassigned

/-- The word says that the statement is a `let`. -/
theorem achieves_statement :
    Achieves .statement x (Abandons x x.window.letFault z.resumed) fun _ _ => False := by
  have hletWord : x.current.kind = .letWord := (congrArg Token.kind hreads.1).trans h.word
  refine .of_step fun fuel => ensures_statement
    (fun _ => h.achieves_letStatement hreads hz fuel) (fun hreturn => ?_) fun hother _ => ?_
  · exact absurd (hletWord.symm.trans hreturn) (by decide)
  · exact absurd hletWord hother

omit hz in
/-- A list of statements does not end at the word. -/
theorem not_closed {closer : Kind} (hcloser : closer ≠ .letWord) :
    ¬(x.current.kind = closer ∨ x.current.kind = .eof) := by
  have hletWord : x.current.kind = .letWord := (congrArg Token.kind hreads.1).trans h.word
  rw [hletWord]
  rintro (hclosed | hclosed)
  · exact hcloser hclosed.symm
  · exact absurd hclosed (by decide)

/-- What the statements behind a spoilt `let` come to, they come to with it, with one more
diagnostic before. -/
theorem achieves_statements {closer : Kind} {Q : List Node → View σ → Prop}
    {E : Fault → View σ → Prop} (hcloser : closer ≠ .letWord)
    (later : Achieves (.statements closer) ⟨z.resumed, x.diagnostics ++ [x.window.letFault]⟩ Q E) :
    Achieves (.statements closer) x Q E := by
  refine .of_step fun fuel => ensures_statements
    (fun hclosed => absurd hclosed (h.not_closed hreads hcloser)) fun _ => ?_
  refine (h.achieves_statement hreads hz fuel).imp (fun v y hy => ?_) fun e _ hE hne =>
    (hE hne).elim
  obtain ⟨hv, -, hskip⟩ := hy
  refine ⟨fun n hn => absurd (hv.symm.trans hn) (by simp), fun _ => ?_⟩
  refine (hskip fuel).imp (fun _ u hu => ?_) fun e _ hE hne => (hE hne).elim
  rw [hu]
  exact later fuel

end Spoilt

/-! ## Inside a list of statements -/

namespace Parse

variable [LawfulTokenSource σ] {s t u : State σ}

omit [LawfulTokenSource σ] in
/-- Behind a statement that was abandoned the list goes on where the skip leads, one token
further. -/
theorem statements_of_none {parse : Recur σ} {closer : Kind}
    (hopen : ¬(s.current.kind = closer ∨ s.current.kind = .eof))
    (hstatement : parse .statement s = .ok none t) (hskip : parse (.recovery 0) t = .ok () u) :
    statements parse closer s = parse (.statements closer) u.advance := by
  show (if s.current.kind = closer ∨ s.current.kind = .eof then _ else _ : Parse σ _) s = _
  rw [if_neg hopen]
  exact (bind_eq_of_ok hstatement).trans (bind_eq_of_ok hskip)

/-- Behind a statement that gives nothing and the skip over the rest of it, the list goes on. -/
theorem perform_statements_of_none {closer : Kind} (hs : s.Standard)
    (hopen : ¬(s.current.kind = closer ∨ s.current.kind = .eof))
    (hstatement : perform .statement s = .ok none t)
    (hskip : perform (.recovery 0) t = .ok () u) :
    perform (.statements closer) s = perform (.statements closer) u.advance := by
  rw [perform_eq_step hs]
  exact statements_of_none hopen hstatement hskip

/-- A list of statements goes on behind a spoilt `let`, with one more diagnostic and nothing else
of it left. -/
theorem perform_statements_of_spoilt {word : Token} {us : List Token} {z : Window σ}
    {closer : Kind} (h : Spoilt word us) (hs : s.Standard)
    (hreads : s.view.window.Reads (word :: us) z)
    (hz : z.current.kind ∈ [Kind.semicolon, .letWord, .returnWord, .rightBrace, .eof])
    (hcloser : closer ≠ .letWord) :
    ∃ t u, perform .statement s = .ok none t ∧
      t.diagnostics = s.diagnostics ++ [s.view.window.letFault] ∧
      perform (.recovery 0) t = .ok () u ∧ u.advance.Standard ∧
      u.advance.view = ⟨z.resumed, s.diagnostics ++ [s.view.window.letFault]⟩ ∧
      perform (.statements closer) s = perform (.statements closer) u.advance := by
  obtain ⟨v, t, hstatement, ht, rfl, hdiagnostics, hskips⟩ :=
    (h.achieves_statement hreads hz).exists_perform hs
  -- the skip that follows goes as far as the tokens inside the statement do
  obtain ⟨u, hskip, hu, hview⟩ : ∃ u, perform (.recovery 0) t = .ok () u ∧ u.Standard ∧
      u.view.advance = ⟨z.resumed, s.diagnostics ++ [s.view.window.letFault]⟩ :=
    have ⟨_, u, hskip⟩ := hskips.exists_perform ht
    ⟨u, hskip⟩
  exact ⟨t, u, hstatement, hdiagnostics, hskip, hu, hview,
    perform_statements_of_none hs (h.not_closed hreads hcloser) hstatement hskip⟩

end Parse

/-! ## Whole programs -/

section Programs

variable [LawfulTokenSource σ] {tracing : Bool} {tree : Node} {s : State σ}

open Parse

omit [TokenSource σ] [LawfulTokenSource σ] in
/-- A traced action gives what the action gives from a state that shows the same. -/
theorem exists_eq_ok_of_traced {α : Type} {r : Rule} {a : Parse σ α} {v : α} {t : State σ}
    (hs : s.Standard) (hrun : traced r a s = .ok v t) :
    ∃ s' t', s'.Standard ∧ s'.view = s.view ∧ a s' = .ok v t' ∧ t'.view = t.view := by
  by_cases htrace : (s.tracing && r.isTraced) = true
  · rw [traced_of_shown htrace] at hrun
    -- the action ran between two entries, which no view shows
    cases ha : a (s.enter r) with
    | ok w t' =>
      rw [ha] at hrun
      cases hrun
      exact ⟨s.enter r, t', hs, s.view_enter r, ha, (t'.view_leave r).symm⟩
    | error e t' =>
      rw [ha] at hrun
      cases hrun
  · rw [traced_of_not_shown htrace] at hrun
    exact ⟨s, t, hs, rfl, hrun, rfl⟩

/-- A parsed program is the list of statements that comes out of a state which shows the start of the
source. -/
theorem exists_statements_of_parseProgram {source : σ}
    (hrun : parseProgram source tracing = (.ok tree, s)) :
    ∃ ns t u, t.Standard ∧ t.view = View.start source ∧
      perform (.statements .eof) t = .ok ns u ∧ tree = .program ns ∧ u.view = s.view := by
  have hperform : perform .program (State.start source tracing) = .ok tree s := eq_ok_of_outcome hrun
  have htraced : traced .program (program perform) (State.start source tracing) = .ok tree s :=
    (perform_eq_step ⟨rfl, rfl⟩ .program).symm.trans hperform
  obtain ⟨t, u, ht, hview, hprogram, hu⟩ := exists_eq_ok_of_traced ⟨rfl, rfl⟩ htraced
  -- the program is the list of its statements
  have hbind : EStateM.bind (perform (.statements .eof)) _ t = .ok tree u := hprogram
  unfold EStateM.bind at hbind
  cases hstatements : perform (.statements .eof) t with
  | ok ns u' =>
    rw [hstatements] at hbind
    cases hbind
    exact ⟨ns, t, u, ht, hview, hstatements, rfl, hu⟩
  | error e v =>
    rw [hstatements] at hbind
    cases hbind

/-- A spoilt `let` in front of a program leaves the tree as it is, and adds one diagnostic. -/
theorem parseProgram_of_spoilt {word : Token} {us : List Token} {z : Window σ} {source rest : σ}
    (h : Spoilt word us) (hreads : (View.start source).window.Reads (word :: us) z)
    (hz : z.current.kind ∈ [Kind.semicolon, .letWord, .returnWord, .rightBrace, .eof])
    (hrest : z.resumed = (View.start rest).window)
    (hrun : parseProgram rest tracing = (.ok tree, s)) :
    ∃ d s', parseProgram source tracing = (.ok tree, s') ∧ s'.diagnostics = d :: s.diagnostics := by
  obtain ⟨ns, t, u, ht, hstart, hstatements, rfl, hu⟩ := exists_statements_of_parseProgram hrun
  have hnone : t.diagnostics = [] := congrArg View.diagnostics hstart
  -- the statements of the rest do not depend on the diagnostic before them
  have later := Achieves.of_perform ht hstatements [(View.start source).window.letFault]
  rw [hstart, hnone, List.append_nil, ← hrest] at later
  have achieves : Achieves .program (View.start source) (fun tree y => tree = .program ns ∧
      y.diagnostics = (View.start source).window.letFault :: s.diagnostics) fun _ _ => False := by
    refine .of_step fun fuel => ensures_program ?_
    refine h.achieves_statements hreads hz (by decide) ?_ fuel
    refine later.imp_result fun ns' y hy => ?_
    obtain ⟨rfl, rfl⟩ := hy
    refine ⟨rfl, ?_⟩
    show _ :: u.view.diagnostics = _
    rw [hu]
    rfl
  rcases achieves.parseProgram tracing with ⟨_, s', hrun', rfl, hdiagnostics⟩ | ⟨_, _, _, hE⟩
  · exact ⟨_, s', hrun', hdiagnostics⟩
  · exact hE.elim

end Programs

/-- A spoilt `let` reports one thing and gives no statement, and the statements go on right behind
its semicolon, or else at what stops the skip. So in front of a program it leaves the tree as it is
and puts one diagnostic before the others. -/
theorem recovery_from_spoilt_let {word : Token} {us : List Token} (h : Spoilt word us) :
    (∀ {σ : Type} [TokenSource σ] [LawfulTokenSource σ] (s : State σ) (z : Window σ)
        (closer : Kind), closer = .eof ∨ closer = .rightBrace → s.Standard →
      s.view.window.Reads (word :: us) z →
      z.current.kind ∈ [Kind.semicolon, .letWord, .returnWord, .rightBrace, .eof] →
      ∃ d t u, Parse.perform .statement s = .ok none t ∧ t.diagnostics = s.diagnostics ++ [d] ∧
        Parse.perform (.recovery 0) t = .ok () u ∧ u.advance.Standard ∧
        u.advance.view = ⟨z.resumed, s.diagnostics ++ [d]⟩ ∧
        Parse.perform (.statements closer) s = Parse.perform (.statements closer) u.advance) ∧
    (∀ (semicolon : Token) (rest : List Token) (tree : Node) (s : State (List Token))
        (tracing : Bool), semicolon.kind = .semicolon →
      parseProgram rest tracing = (.ok tree, s) →
      ∃ d s', parseProgram (word :: us ++ semicolon :: rest) tracing = (.ok tree, s') ∧
        s'.diagnostics = d :: s.diagnostics) ∧
    ∀ (rest : List Token) (tree : Node) (s : State (List Token)) (tracing : Bool),
      (∀ t ∈ rest.head?, t.kind = .letWord ∨ t.kind = .returnWord) →
      parseProgram rest tracing = (.ok tree, s) →
      ∃ d s', parseProgram (word :: us ++ rest) tracing = (.ok tree, s') ∧
        s'.diagnostics = d :: s.diagnostics := by
  refine ⟨fun s z closer hcloser hs hreads hz => ?_, fun semicolon rest tree s tracing hk hrun => ?_,
    fun rest tree s tracing hhead hrun => ?_⟩
  · have hne : closer ≠ .letWord := by rcases hcloser with rfl | rfl <;> decide
    exact ⟨_, Parse.perform_statements_of_spoilt h hs hreads hz hne⟩
  -- a statement with its semicolon
  · have hreads : (View.start (word :: us ++ semicolon :: rest)).window.Reads (word :: us)
        (.ofList (semicolon :: rest)) := by
      rw [View.start_ofList]
      exact Window.reads_ofList ..
    have hcurrent : (Window.ofList (semicolon :: rest)).current.kind = .semicolon := by simp [hk]
    refine parseProgram_of_spoilt h hreads (by simp [hk]) ?_ hrun
    rw [Window.resumed, if_pos hcurrent, Window.advance_ofList, View.start_ofList]
    rfl
  -- a statement without one, in front of another one or of nothing
  · have hreads : (View.start (word :: us ++ rest)).window.Reads (word :: us) (.ofList rest) := by
      rw [View.start_ofList]
      exact Window.reads_ofList ..
    have hcurrent : (Window.ofList rest).current.kind ∈ [Kind.letWord, .returnWord, .eof] := by
      cases rest with
      | nil => simp [Token.endOfInput, Token.unplaced]
      | cons t rest =>
        rcases hhead t rfl with hletWord | hreturnWord
        · simp [hletWord]
        · simp [hreturnWord]
    have table : ∀ k ∈ [Kind.letWord, .returnWord, .eof], k ≠ .semicolon ∧
        k ∈ [Kind.semicolon, .letWord, .returnWord, .rightBrace, .eof] := by decide
    refine parseProgram_of_spoilt h hreads (table _ hcurrent).2 ?_ hrun
    rw [Window.resumed, if_neg (table _ hcurrent).1, View.start_ofList]

/-- Of `let { let ; } ;` in front of `a`, nothing but a diagnostic is left. -/
theorem recovery_from_bracedLet :
    let word := Token.unplaced .letWord "let"
    let semicolon := Token.unplaced .semicolon ";"
    let braced := [.unplaced .leftBrace "\x7b", word, semicolon, .unplaced .rightBrace "\x7d"]
    let rest := [Token.unplaced .ident "a"]
    Spoilt word braced ∧ ∃ tree s d s', parseProgram rest false = (.ok tree, s) ∧
      parseProgram (word :: braced ++ semicolon :: rest) false = (.ok tree, s') ∧
      s'.diagnostics = d :: s.diagnostics := by
  intro word semicolon braced rest
  have spoilt : Spoilt word braced := by
    refine ⟨rfl, ?_, ?_⟩
    · have inside : Nested [] [word, semicolon] :=
        .token (by decide) (by decide) (.token (by decide) (by decide) .nil)
      exact .braces rfl rfl inside .nil
    · rintro ⟨name, sign, later, hbraced, hname, -⟩
      obtain ⟨rfl, -⟩ := List.cons.inj hbraced
      exact absurd hname (by decide)
  let a := Token.unplaced .ident "a"
  have hrun : parseProgram rest false =
      (.ok (.program [.expressionStatement a (some (.identifier a "a"))]),
        (parseProgram rest false).2) := Prod.ext rfl rfl
  obtain ⟨d, s', hwhole, hs'⟩ :=
    (recovery_from_spoilt_let spoilt).2.1 semicolon rest _ _ false rfl hrun
  exact ⟨spoilt, _, _, d, s', hrun, hwhole, hs'⟩

end Pratt
