import Mathlib.Data.List.GetD
import Pratt.Proofs.Relocation
import Pratt.Proofs.SourceOrder

/-!
# Pratt — locations take no part in parsing

Two parsers whose sources give the same tokens, but for the places where these stand, find the same
trees and report the same, but for the places of the tokens in them. So what a program is parsed to
depends on the kinds and texts of its tokens alone, in whatever way these come (`Delivers`): they
may be read from a text on demand, or from a list that was made of the text before, and the text may
be laid out in any way.

* `Respelling.Relates`: the tokens of one parser stand for those of another one, and so does what
  the two have reported.
* `Parse.lockstep_relates`: every rule keeps the two parsers together, if no text is changed.
* `Cursor.delivers_scanAll`: a text delivers what `tokenize` gives, and so does the list itself.
* `parse_of_layout`: sources that deliver the same are parsed alike.
-/

namespace Pratt

variable {σ τ : Type} [TokenSource σ] [TokenSource τ] {φ : Respelling}

/-! ## Tokens that stand for others -/

/-- The second parser sees the tokens that stand for those which the first one sees, and what it has
reported stands for what the first one has. The traces are not compared. -/
structure Respelling.Relates (φ : Respelling) (s : State σ) (t : State τ) : Prop where
  standard : s.Standard
  standard' : t.Standard
  tokens : ∀ i, t.view.window.nth i = φ.token (s.view.window.nth i)
  diagnostics : t.diagnostics = s.diagnostics.map φ.diagnostic

namespace Respelling.Relates

variable {s : State σ} {t : State τ}

/-- Under the tables of the language no rule quotes a tree. -/
theorem sees (h : φ.Relates s t) : Parse.Sees φ s t where
  current := h.tokens 0
  peek := h.tokens 1
  starting := by rw [h.standard.1, h.standard'.1]
  continuing := by rw [h.standard.2, h.standard'.2]
  rendered hrule := by
    rw [h.standard.2] at hrule
    rcases RuleTable.find?_continuing_eq_some hrule with ⟨-, h⟩ | ⟨-, h⟩ <;> cases h

/-- Both windows move on. -/
theorem advance (h : φ.Relates s t) : φ.Relates s.advance t.advance :=
  ⟨h.standard, h.standard', fun i => h.tokens (i + 1), h.diagnostics⟩

/-- Both parsers report the same, each of its own token. -/
theorem record (h : φ.Relates s t) (d : Diagnostic) :
    φ.Relates (s.record (.diagnostic d)) (t.record (.diagnostic (φ.diagnostic d))) := by
  refine ⟨h.standard, h.standard', h.tokens, ?_⟩
  rw [State.diagnostics_record, State.diagnostics_record, h.diagnostics, List.map_append]
  rfl

/-- What a trace says of the first parser does not count. -/
theorem trace_left (h : φ.Relates s t) (r : Rule) :
    φ.Relates (s.enter r) t ∧ φ.Relates (s.leave r) t := by
  refine ⟨⟨h.standard, h.standard', h.tokens, ?_⟩, h.standard, h.standard', h.tokens, ?_⟩
  · rw [State.diagnostics_enter, h.diagnostics]
  · rw [State.diagnostics_leave, h.diagnostics]

/-- What a trace says of the second parser does not count. -/
theorem trace_right (h : φ.Relates s t) (r : Rule) :
    φ.Relates s (t.enter r) ∧ φ.Relates s (t.leave r) := by
  refine ⟨⟨h.standard, h.standard', h.tokens, ?_⟩, h.standard, h.standard', h.tokens, ?_⟩
  · rw [State.diagnostics_enter, h.diagnostics]
  · rw [State.diagnostics_leave, h.diagnostics]

end Respelling.Relates

namespace Parse

/-- Tokens that stand for others are parsed as these are, at every step. -/
theorem lockstep_relates :
    Lockstep φ fun (_ : Unit) (s : State σ) (t : State τ) => φ.Relates s t where
  sees h := h.sees
  advance h := h.advance
  record h d := h.record d
  traced r h i := alongside_traced_of_unseen
    (fun h => ⟨(h.trace_left r).1, (h.trace_right r).1⟩)
    (fun h => ⟨(h.trace_left r).2, (h.trace_right r).2⟩) (h i)

/-- A goal comes to the same, with its own tokens, however much fuel each of the sources has to be
given. -/
theorem exists_outcome_respelled [LawfulTokenSource σ] [LawfulTokenSource τ] (hφ : φ.Verbatim)
    {s : State σ} {t : State τ} (h : φ.Relates s t) (g : Goal) :
    ∃ r s' t', (perform g).outcome s = (r, s') ∧
      (perform (φ.goal g)).outcome t = (r.map (φ.result g), t') ∧ φ.Relates s' t' := by
  have hfuel := (cost_le_enough (φ.goal g) t).trans (Nat.le_max_right (enough s) (enough t))
  have ends := lockstep_relates.run hφ (Nat.le_max_left (enough s) (enough t)) () g s t h
  rw [← perform_eq_run h.standard' hfuel] at ends
  rw [outcome_perform g]
  exact ends.exists_outcome_map (run_ne_exhausted h.standard (cost_le_enough g s))

end Parse

/-! ## Programs that are parsed alike -/

/-- The two results are the same fault, or trees that are equal and look the same however they are
shown. -/
inductive SameResult : Except Fault Node → Except Fault Node → Prop where
  | fault {e : Fault} : SameResult (.error e) (.error e)
  | tree {m n : Node} (same : (m == n) = true) (rendered : m.render = n.render)
      (described : m.describe = n.describe) (outlined : m.outline = n.outline) :
      SameResult (.ok m) (.ok n)

/-- The two parses come to the same, and what they found wrong is called the same. -/
structure ParsedAlike (a : Except Fault Node × State σ) (b : Except Fault Node × State τ) :
    Prop where
  result : SameResult a.1 b.1
  messages : a.2.diagnostics.map Diagnostic.message = b.2.diagnostics.map Diagnostic.message

/-- The tokens of the source are of these kinds and texts, and behind them there is the end of the
input without end. -/
def Delivers (source : σ) (xs : List Lexeme) : Prop :=
  ∀ i, ((Window.filled source).nth i).lexeme = xs.getD i ⟨.eof, []⟩

/-- The token that a lexeme makes, standing nowhere. -/
def Lexeme.unplaced (x : Lexeme) : Token :=
  .unplaced x.kind (String.ofList x.text)

/-- Where all tokens stand that stand nowhere. -/
abbrev nowhere : Token → Location :=
  fun _ => ⟨0, 0⟩

/-- A token that stands nowhere is its kind and text. -/
theorem Token.relocate_nowhere (t : Token) : t.relocate nowhere = t.lexeme.unplaced := by
  rw [lexeme, Lexeme.unplaced, String.ofList_toList]
  rfl

/-- Results that come to the same with other places are the same. -/
theorem sameResult_of_map_eq (hφ : φ.Verbatim) {r r' : Except Fault Node}
    (h : r.map φ.node = r'.map φ.node) : SameResult r r' := by
  cases r with
  | error e =>
    cases r' with
    | error e' =>
      cases h
      exact .fault
    | ok n => cases h
  | ok m =>
    cases r' with
    | error e' => cases h
    | ok n =>
      -- what does not show the places is the same for both trees
      have hnode : φ.node m = φ.node n := Except.ok.inj h
      refine .tree (hφ.same_of_node_eq hnode) ?_ ?_ ?_
      · rw [← hφ.render_node m, hnode, hφ.render_node]
      · rw [← hφ.describe_node m, hnode, hφ.describe_node]
      · rw [← hφ.outline_node m, hnode, hφ.outline_node]

/-! ## What sources deliver -/

/-- The window over a list moves along it, and finds the end of the input behind it. -/
theorem Window.nth_filled (ts : List Token) (i : Nat) :
    (filled ts).nth i = ts.getD i .endOfInput := by
  induction i generalizing ts with
  | zero => cases ts <;> rfl
  | succ i ih =>
    rw [nth_succ, advance_filled, ih]
    cases ts <;> rfl

/-- A list delivers its tokens. -/
theorem delivers_list (ts : List Token) : Delivers ts (ts.map Token.lexeme) := by
  intro i
  rw [Window.nth_filled]
  exact (List.getD_map ts .endOfInput Token.lexeme).symm

namespace Cursor

/-- Where a cursor finds the end of the input, the token has no text. -/
theorem lexeme_scan_of_eof {c : Cursor} (h : c.scan.1.kind = .eof) :
    c.scan.1.lexeme = ⟨.eof, []⟩ := by
  unfold scan at h ⊢
  dsimp only at h ⊢
  cases hx : lexemeAt? c.skipSpace.rest with
  | none => rfl
  | some x =>
    rw [hx] at h
    exact absurd h (kind_ne_eof_of_lexemeAt? hx)

/-- A text delivers the tokens that are read from it up to its end. -/
theorem delivers_scanAll (c : Cursor) : Delivers c (c.scanAll.1.map Token.lexeme) := by
  intro i
  induction i generalizing c with
  | zero =>
    rw [show (Window.filled c).nth 0 = c.scan.1 from rfl]
    by_cases heof : c.scan.1.kind = .eof
    · rw [scanAll_of_eof heof]
      rfl
    · rw [scanAll_of_ne heof]
      rfl
  | succ i ih =>
    rw [Window.nth_succ, Window.advance_filled]
    show ((Window.filled c.scan.2).nth i).lexeme = _
    rw [ih]
    by_cases heof : c.scan.1.kind = .eof
    · -- the end of the input is found once more, and then again and again
      rw [scanAll_of_eof heof, scanAll_of_eof (scan_of_eof heof), List.map_singleton,
        lexeme_scan_of_eof (scan_of_eof heof)]
      cases i <;> rfl
    · rw [scanAll_of_ne heof]
      rfl

end Cursor

/-! ## Sources -/

/-- Sources that deliver the same are parsed alike. -/
theorem parsedAlike_of_delivers [LawfulTokenSource σ] [LawfulTokenSource τ] {source : σ}
    {source' : τ} {xs : List Lexeme} (h : Delivers source xs) (h' : Delivers source' xs)
    (tracing tracing' : Bool) :
    ParsedAlike (parseProgram source tracing) (parseProgram source' tracing') := by
  -- both are compared with a list of tokens that stand nowhere
  have start : ∀ {ρ : Type} [TokenSource ρ] {source : ρ} (tracing : Bool), Delivers source xs →
      (relocation nowhere).Relates (State.start source tracing)
        (State.start (xs.map Lexeme.unplaced) false) := by
    intro ρ _ source tracing hdelivers
    refine ⟨⟨rfl, rfl⟩, ⟨rfl, rfl⟩, fun i => ?_, rfl⟩
    show (Window.filled (xs.map Lexeme.unplaced)).nth i =
      ((Window.filled source).nth i).relocate nowhere
    rw [Token.relocate_nowhere, hdelivers i, Window.nth_filled]
    exact List.getD_map xs ⟨.eof, []⟩ Lexeme.unplaced
  have verbatim := verbatim_relocation nowhere
  obtain ⟨r, s, t, hends, hlist, hrelates⟩ :=
    Parse.exists_outcome_respelled verbatim (start tracing h) .program
  obtain ⟨r', s', t', hends', hlist', hrelates'⟩ :=
    Parse.exists_outcome_respelled verbatim (start tracing' h') .program
  obtain ⟨hresult, rfl⟩ := Prod.mk.inj (hlist.symm.trans hlist')
  rw [parseProgram, parseProgram, hends, hends']
  refine ⟨sameResult_of_map_eq verbatim hresult, ?_⟩
  show s.diagnostics.map _ = s'.diagnostics.map _
  rw [← verbatim.map_message_diagnostic s.diagnostics, ← hrelates.diagnostics,
    hrelates'.diagnostics, verbatim.map_message_diagnostic]

/-- Where tokens stand takes no part in parsing. Sources of any sort that deliver the same kinds and
texts are parsed alike; a text is parsed alike whether its tokens are read on demand or before; and
so are two texts that fall into the same kinds and texts of tokens, however they are laid out. -/
theorem parse_of_layout :
    (∀ {σ τ : Type} [TokenSource σ] [TokenSource τ] [LawfulTokenSource σ] [LawfulTokenSource τ]
        (source : σ) (source' : τ) (xs : List Lexeme) (tracing tracing' : Bool),
        Delivers source xs → Delivers source' xs →
          ParsedAlike (parseProgram source tracing) (parseProgram source' tracing')) ∧
      (∀ (source : String) (tracing tracing' : Bool),
        ParsedAlike (parseProgram (Cursor.ofString source) tracing)
          (parseProgram (tokenize source) tracing')) ∧
      ∀ (source source' : String) (tracing tracing' : Bool),
        (tokenize source).map Token.lexeme = (tokenize source').map Token.lexeme →
          ParsedAlike (parseProgram (Cursor.ofString source) tracing)
            (parseProgram (Cursor.ofString source') tracing') := by
  refine ⟨?_, ?_, ?_⟩
  · intro σ τ _ _ _ _ source source' xs tracing tracing' h h'
    exact parsedAlike_of_delivers h h' tracing tracing'
  · -- a text and its tokens deliver the same lexemes
    intro source tracing tracing'
    exact parsedAlike_of_delivers (Cursor.delivers_scanAll _) (delivers_list _) tracing tracing'
  · -- two texts with the same lexemes
    intro source source' tracing tracing' h
    have hdelivers := Cursor.delivers_scanAll (Cursor.ofString source)
    change Delivers _ ((tokenize source).map Token.lexeme) at hdelivers
    rw [h] at hdelivers
    exact parsedAlike_of_delivers hdelivers (Cursor.delivers_scanAll _) tracing tracing'

/-- The same tokens in one line, in two lines, and from a list in which they stand nowhere: what is
wrong with them is called the same, and is found at other places. -/
theorem parse_of_brokenLine :
    let line := Cursor.ofString "let x=1;let"
    let lines := Cursor.ofString "let x = 1;\n  let "
    let listed : List Token := [.unplaced .letWord "let", .unplaced .ident "x",
      .unplaced .assign "=", .unplaced .int "1", .unplaced .semicolon ";",
      .unplaced .letWord "let", .endOfInput]
    ParsedAlike (parseProgram line false) (parseProgram listed true) ∧
      ParsedAlike (parseProgram line false) (parseProgram lines true) ∧
      (parseProgram line false).2.diagnostics.map Diagnostic.line =
        ["line 1, col 12: expected next token to be IDENT, got EOF instead"] ∧
      (parseProgram lines true).2.diagnostics.map Diagnostic.line =
        ["line 2, col 7: expected next token to be IDENT, got EOF instead"] := by
  intro line lines listed
  have hlisted : line.scanAll.1.map Token.lexeme = listed.map Token.lexeme := by decide +kernel
  have hline : Delivers line (listed.map Token.lexeme) := hlisted ▸ line.delivers_scanAll
  refine ⟨parse_of_layout.1 line listed _ false true hline (delivers_list listed),
    parse_of_layout.2.2 _ _ false true (by decide +kernel), ?_, ?_⟩
  · decide +kernel
  · decide +kernel

end Pratt
