import Pratt.Proofs.Faults
import Pratt.Proofs.Recovery
import Pratt.Proofs.Soundness

/-!
# Pratt — one program behind another

A list of tokens that is parsed without a diagnostic can be put in front of any other list, whatever
is wrong with that one: its statements come first, and the rest is parsed as it is by itself. What
is behind a statement is looked at only to see whether it is a part of it. So it is enough that the
other list does not start with a token that goes on with a statement (`Kind.joining`), or that the
last statement is closed by its semicolon, behind which nothing is a part of it.

Whether it is closed shows in the last token, because no expression and no block ends in a semicolon
(`Derives.ends`). Where nothing joins the statements, the parser reads them, and then the list of
statements goes on from the window behind them with nothing reported
(`Parse.goesOnBehind_of_derives`). What comes of that is what comes of a new parser
(`Parse.Achieves.of_perform`).

* `parseProgram_append`: the statements of both lists, and the diagnostics of the second.
-/

namespace Pratt

/-! ## How the tokens of a symbol end -/

/-- There are tokens, and the last one is no semicolon. -/
def EndsOpen (ts : List Token) : Prop :=
  ∃ us t, ts = us ++ [t] ∧ t.kind ≠ .semicolon

namespace EndsOpen

variable {ts : List Token}

/-- A single token that is no semicolon ends open. -/
theorem one {t : Token} {k : Kind} (ht : t.kind = k) (hk : k ≠ .semicolon) : EndsOpen [t] :=
  ⟨[], t, rfl, fun hclosed => hk (ht.symm.trans hclosed)⟩

/-- What stands in front does not matter. -/
theorem behind (h : EndsOpen ts) (us : List Token) : EndsOpen (us ++ ts) := by
  obtain ⟨vs, t, rfl, ht⟩ := h
  exact ⟨us ++ vs, t, (List.append_assoc ..).symm, ht⟩

theorem cons (h : EndsOpen ts) (t : Token) : EndsOpen (t :: ts) :=
  h.behind [t]

/-- What ends open does not end with a semicolon. -/
theorem last_ne (h : EndsOpen ts) : ¬∀ t ∈ ts.getLast?, t.kind = .semicolon := by
  obtain ⟨us, t, rfl, ht⟩ := h
  intro hclosed
  exact ht (hclosed t (by simp))

end EndsOpen

/-- How the tokens of a symbol end. -/
def Symbol.Ends : Symbol → List Token → Prop
  | .expression _ _, ts | .block, ts => EndsOpen ts
  | .statement e, ts => e ≠ .semicolon → EndsOpen ts
  | _, _ => True

/-- The tokens of each symbol end as their last part does, by induction on the derivation. -/
theorem Derives.ends {a : Symbol} {ts : List Token} {tree : a.Tree} (h : Derives a ts tree) :
    a.Ends ts := by
  induction h with
  -- what ends a derivation is what ends its last part
  | letStatement _ _ _ _ ih => exact fun _ => ((ih.cons _).cons _).cons _
  | returnStatement _ _ ih => exact fun _ => ih.cons _
  | expressionStatement _ ih => exact fun _ => ih
  | closedStatement => exact fun he => absurd rfl he
  | block _ _ closing => exact ((EndsOpen.one closing nofun).behind _).cons _
  | loosened _ _ ih => exact ih
  | infixExpression _ _ _ _ _ ih => exact (ih.cons _).behind _
  | prefixExpression _ _ ih => exact ih.cons _
  | callExpression _ _ _ closing => exact (((EndsOpen.one closing nofun).behind _).cons _).behind _
  | identifier name => exact EndsOpen.one name nofun
  | integerLiteral number => exact EndsOpen.one number nofun
  | trueWord word => exact EndsOpen.one word nofun
  | falseWord word => exact EndsOpen.one word nofun
  | group _ _ closing => exact ((EndsOpen.one closing nofun).behind _).cons _
  | conditional _ _ _ _ _ _ ih => exact (((ih.cons _).behind _).cons _).cons _
  | alternative _ _ _ _ _ _ _ _ _ ih =>
    exact (((((ih.cons _).behind _).cons _).behind _).cons _).cons _
  | functionLiteral _ _ _ _ _ _ ih => exact (((ih.cons _).behind _).cons _).cons _
  | _ => trivial

/-! ## Statements in front of others -/

variable {σ : Type} [TokenSource σ]

namespace Parse

/-- Where the tokens are those of some statements and what is behind them does not join the last
one, the statements are the first of a list that goes on behind them. -/
def GoesOnBehind (σ : Type) [TokenSource σ] : (a : Symbol) → List Token → a.Tree → Prop
  | .statements, ts, ns => ∀ (closer : Kind) (x : View σ) (w : Window σ)
      (Q : List Node → View σ → Prop) (E : Fault → View σ → Prop), x.window.Reads ts w →
      (EndsOpen ts → w.current.kind ∉ Kind.joining) → closer = .eof ∨ closer = .rightBrace →
      Achieves (.statements closer) ⟨w, x.diagnostics⟩ (fun ms y => Q (ns ++ ms) y) E →
      Achieves (.statements closer) x Q E
  | _, _, _ => True

/-- The statements of a program are read first, and the list goes on with whatever stands behind
them. -/
theorem goesOnBehind_of_derives {a : Symbol} {ts : List Token} {tree : a.Tree}
    (h : Derives a ts tree) : GoesOnBehind σ a ts tree := by
  induction h with
  | noStatements =>
    intro closer x w Q E hreads _ _ later
    obtain rfl := hreads
    exact later
  | @moreStatements ts us e n ns first rest apart _ ih =>
    intro closer x w Q E hreads hbehind hcloser later
    obtain ⟨v, hts, hus⟩ := Window.reads_append.1 hreads
    -- behind the first statement there is another one, or what is behind all of them
    have hjoins : e ≠ .semicolon → v.current.kind ∉ Kind.joining := by
      intro he
      refine notMem_joining_of_reads hus rest.starts (apart he) ?_
      rintro rfl
      rw [List.append_nil] at hbehind
      exact hbehind (first.ends he)
    obtain ⟨hstops, hsemicolon⟩ := Ending.stops_of_notMem_joining hjoins
    refine .moreStatements (serves_of_derives first) first.starts hts hstops hsemicolon hcloser ?_
    have hrest : EndsOpen us → w.current.kind ∉ Kind.joining := fun hopen =>
      hbehind (hopen.behind ts)
    exact ih closer ⟨v, x.diagnostics⟩ w _ E hus hrest hcloser later
  | _ => trivial

end Parse

/-! ## Lists of tokens -/

/-- What a list without an end of the input is read as, up to the end of the input, is the whole of
it. -/
theorem eq_of_reads_start {ts us : List Token} {w : Window (List Token)}
    (hts : ∀ t ∈ ts, t.kind ≠ .eof) (hreads : (View.start ts).window.Reads us w)
    (hus : ∀ u ∈ us, u.kind ≠ .eof) (hw : w.current.kind = .eof) : ts = us := by
  rw [View.start_ofList] at hreads
  obtain ⟨rest, rfl, rfl⟩ := Window.exists_append_of_reads_ofList hreads hus
  cases rest with
  | nil => exact List.append_nil us
  | cons t rest =>
    rw [Window.current_ofList] at hw
    exact absurd hw (hts t (by simp))

/-- If a list of tokens is parsed without a diagnostic, another list may be put behind it that does
not start with a token which joins a statement, or any list behind a semicolon. Then its statements
are the first of the whole, the others are those that the other list has by itself, and what is
reported is what is reported of that one. -/
theorem parseProgram_append {ts us : List Token} {tracing : Bool} {tree : Node}
    {s : State (List Token)} (hts : ∀ t ∈ ts, t.kind ≠ .eof)
    (hshort : ∀ u ∈ us, u.kind = .int → Numeral.isNumeral u.literal.toList = true →
      u.literal.toList.length ≤ Numeral.mostDigits)
    (hrun : parseProgram ts tracing = (.ok tree, s)) (hs : s.diagnostics = [])
    (hjoin : (∀ t ∈ ts.getLast?, t.kind = .semicolon) ∨ ∀ u ∈ us.head?, u.kind ∉ Kind.joining) :
    ∃ ns ms t t', tree = .program ns ∧ parseProgram us tracing = (.ok (.program ms), t) ∧
      parseProgram (ts ++ us) tracing = (.ok (.program (ns ++ ms)), t') ∧
      t'.diagnostics = t.diagnostics := by
  -- the first list is a program of the grammar
  obtain ⟨vs, w, hreads, htree, hw⟩ := exists_derives_of_diagnostics_eq_nil hrun hs
  obtain rfl := eq_of_reads_start hts hreads htree.ne_eof hw
  cases htree with
  | @program _ ns body =>
    -- the second one has a tree, which is made from a state like that behind the first list
    obtain ⟨tree, t, hlater⟩ := exists_tree_of_parseProgram
      (fun u hu hk => Numeral.read_ne_oversized (hshort u hu hk)) tracing
    obtain ⟨ms, t₀, t₁, ht₀, hstart, hstatements, rfl, ht₁⟩ :=
      exists_statements_of_parseProgram hlater
    have hwindow : t₀.view.window = .ofList us := by rw [hstart, View.start_ofList]
    have hnone : t₀.diagnostics = [] := congrArg View.diagnostics hstart
    have later := Parse.Achieves.of_perform ht₀ hstatements []
    rw [hwindow, hnone] at later
    -- nothing behind the first list is a part of its last statement
    have hbehind : EndsOpen ts → (Window.ofList us).current.kind ∉ Kind.joining := by
      intro hopen
      have hhead := hjoin.resolve_left hopen.last_ne
      rw [Window.current_ofList]
      cases us with
      | nil => decide
      | cons u us => exact hhead u rfl
    have whole : Parse.Achieves .program (View.start (ts ++ us))
        (fun v y => v = .program (ns ++ ms) ∧ y.diagnostics = t.diagnostics) Sound := by
      refine .of_step fun fuel => Parse.ensures_program ?_
      rw [View.start_ofList]
      refine Parse.goesOnBehind_of_derives body .eof _ _ _ _ (Window.reads_ofList ts us) hbehind
        (.inl rfl) (later.imp_result fun ms' y hy => ?_) fuel
      obtain ⟨rfl, rfl⟩ := hy
      exact ⟨rfl, congrArg View.diagnostics ht₁⟩
    rcases whole.parseProgram tracing with ⟨_, t', hboth, rfl, ht'⟩ | ⟨_, _, _, hfault⟩
    · exact ⟨ns, ms, t, t', rfl, hlater, hboth, ht'⟩
    · exact hfault.elim

/-- A conditional without an alternative, and behind it a list with a spoilt `let` in it. -/
theorem parseProgram_append_conditional :
    let word := Token.unplaced .ifWord "if"
    let name := Token.unplaced .ident "a"
    let first := [word, .unplaced .leftParen "(", name, .unplaced .rightParen ")",
      .unplaced .leftBrace "\x7b", .unplaced .rightBrace "\x7d"]
    let second := [name, .unplaced .letWord "let", .unplaced .semicolon ";", name]
    ∃ n ms t t', parseProgram first false = (.ok (.program [n]), (parseProgram first false).2) ∧
      parseProgram second false = (.ok (.program ms), t) ∧ t.diagnostics.length = 1 ∧
      parseProgram (first ++ second) false = (.ok (.program (n :: ms)), t') ∧
      t'.diagnostics = t.diagnostics := by
  intro word name first second
  have hrun : parseProgram first false = (.ok (.program [_]), (parseProgram first false).2) :=
    Prod.ext rfl rfl
  have hjoin : ∀ u ∈ second.head?, u.kind ∉ Kind.joining := by decide
  obtain ⟨ns, ms, t, t', hns, hlater, hboth, hdiagnostics⟩ :=
    parseProgram_append (by decide) (by decide) hrun rfl (.inr hjoin)
  cases hns
  have hone : (parseProgram second false).2.diagnostics.length = 1 := rfl
  rw [hlater] at hone
  exact ⟨_, ms, t, t', hrun, hlater, hone, hboth, hdiagnostics⟩

end Pratt
