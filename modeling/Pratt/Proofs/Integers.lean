import Mathlib.Algebra.Group.Nat.Defs
import Mathlib.Algebra.Group.Int.Defs
import Pratt.Proofs.Totality

/-!
# Pratt — integers and their decimal texts

A run of digits stands for an integer of the language exactly if the number that it denotes is small
enough, however many zeros are in front.

* `Numeral.Denotes` — what a text has to be for an integer literal to have a value.
* `padded` — the decimal text of a number behind any number of zeros.
* `integerLiteral_exact` — the rule for integer literals gives that value, or reports the text; and
  a source that is a padded number is one token, which is parsed to the number or rejected.

The rule is looked at in any state of a parser, with any tables. For the source it is enough to know
that printing and reading a number undo each other (`Numeral.value_padded`), since the whole of a
numeral is one lexeme.
-/

namespace Pratt

namespace Numeral

/-- The text is a run of digits for the integer, which is one of the language. -/
def Denotes (text : List Char) (v : Int) : Prop :=
  text ≠ [] ∧ (∀ c ∈ text, c.isDigit = true) ∧ v = value text ∧ v ≤ 2 ^ 63 - 1

/-- The text is a numeral with too many digits to be converted. -/
def Overlong (text : List Char) : Prop :=
  isNumeral text = true ∧ mostDigits < text.length

/-- A text that is not overlong is read as the integer that it denotes, and as no other. -/
theorem read_eq_integer_iff_denotes {text : List Char} (short : ¬Overlong text) {v : Int} :
    read text = .integer v ↔ Denotes text v := by
  -- the greatest integer is written as its value in the table
  have hgreatest : (2 : Int) ^ 63 - 1 = greatest := by decide
  rw [read_eq_integer_iff, isNumeral_iff, Denotes, hgreatest]
  constructor
  · rintro ⟨⟨hne, hdigits⟩, -, hle, hvalue⟩
    exact ⟨hne, hdigits, hvalue, hle⟩
  · rintro ⟨hne, hdigits, hvalue, hle⟩
    have hlength : text.length ≤ mostDigits := by
      have hnot : ¬mostDigits < text.length :=
        fun long => short ⟨isNumeral_iff.2 ⟨hne, hdigits⟩, long⟩
      omega
    exact ⟨⟨hne, hdigits⟩, hlength, hle, hvalue⟩

/-- What is not too long and denotes no integer of the language cannot be read. -/
theorem read_eq_unreadable {text : List Char} (short : ¬Overlong text)
    (h : ∀ v, ¬Denotes text v) : read text = .unreadable := by
  cases hread : read text with
  | integer v => exact absurd ((read_eq_integer_iff_denotes short).1 hread) (h v)
  | oversized digits =>
    obtain ⟨numeral, long, -⟩ := read_eq_oversized_iff.1 hread
    exact absurd ⟨numeral, long⟩ short
  | unreadable => rfl

/-! ## Printed numbers -/

/-- Printing a number and reading it gives the number back. -/
theorem value_toDigits (n : Nat) : value (Nat.toDigits 10 n) = n :=
  Nat.ofDigitChars_ten_toDigits

/-- Zeros in front do not count. -/
theorem value_replicate_append (zeros : Nat) (digits : List Char) :
    value (List.replicate zeros '0' ++ digits) = value digits := by
  -- a zero in front multiplies nothing by ten
  induction zeros with
  | zero => rfl
  | succ zeros ih =>
    rw [List.replicate_succ, List.cons_append]
    exact ih

end Numeral

/-- The decimal text of a number, with zeros in front. -/
def padded (zeros n : Nat) : String :=
  String.ofList (List.replicate zeros '0') ++ toString n

/-- A padded number is its zeros and then its digits. -/
theorem toList_padded (zeros n : Nat) :
    (padded zeros n).toList = List.replicate zeros '0' ++ Nat.toDigits 10 n := by
  rw [padded, String.toList_append, String.toList_ofList, Nat.toString_eq_ofList_toDigits,
    String.toList_ofList]

/-- A padded number is a run of digits. -/
theorem Numeral.isNumeral_padded (zeros n : Nat) : isNumeral (padded zeros n).toList = true := by
  rw [toList_padded, isNumeral_iff]
  have hne : Nat.toDigits 10 n ≠ [] := Nat.toDigits_ne_nil
  refine ⟨fun h => hne (List.append_eq_nil_iff.1 h).2, ?_⟩
  intro c hc
  rcases List.mem_append.1 hc with hzero | hdigit
  · rw [List.eq_of_mem_replicate hzero]
    rfl
  · exact Nat.isDigit_of_mem_toDigits (by decide) (by decide) hdigit

/-- A padded number denotes the number, however many zeros are in front. -/
theorem Numeral.value_padded (zeros n : Nat) : value (padded zeros n).toList = n := by
  rw [toList_padded, value_replicate_append, value_toDigits]

/-- The only token of a source that is the text of an integer, but for the end of the input. -/
def Token.sole (source : String) : Token :=
  ⟨.int, source, .start⟩

/-! ## The rule -/

namespace Parse

variable {σ : Type}

/-- Around an action that always ends in a result, the entries of a trace change neither the result
nor what can be seen of the state. -/
theorem exists_traced_eq {α : Type} {r : Rule} {action : Parse σ α} {a : α} {y : View σ}
    {s : State σ}
    (h : ∀ s', s'.view = s.view → ∃ t, action s' = .ok a t ∧ t.view = y) :
    ∃ t, traced r action s = .ok a t ∧ t.view = y := by
  by_cases htraced : (s.tracing && r.isTraced) = true
  · obtain ⟨t, haction, ht⟩ := h (s.enter r) (State.view_enter s r)
    rw [traced_of_shown htraced, haction]
    exact ⟨t.leave r, rfl, (State.view_leave t r).trans ht⟩
  · rw [traced_of_not_shown htraced]
    exact h s rfl

/-- What can be seen of a state includes its current token. -/
theorem current_of_view {s s' : State σ} (h : s'.view = s.view) : s'.current = s.current :=
  congrArg View.current h

/-- The rule follows the reading of the current text: a value, a fault or a diagnostic. -/
theorem integerLiteral_eq (s : State σ) :
    integerLiteral s = match Numeral.read s.current.literal.toList with
      | .integer v => .ok (some (.integerLiteral s.current v)) s
      | .oversized digits => .error (.oversizedInteger digits) s
      | .unreadable => .ok none (s.record (.diagnostic ⟨s.current, .notInteger⟩)) := by
  show (match Numeral.read s.current.literal.toList with
    | .integer v => pure (some (.integerLiteral s.current v))
    | .oversized digits => throw (.oversizedInteger digits)
    | .unreadable => (do report s.current .notInteger; return none) : Parse σ (Option Node)) s = _
  generalize Numeral.read s.current.literal.toList = reading
  cases reading <;> rfl

variable [TokenSource σ]

/-- The rule calls no other, so it needs no more than one unit of fuel. -/
theorem perform_integerLiteral (s : State σ) :
    perform .integerLiteral s = traced .integerLiteral integerLiteral s := by
  have henough : enough s = (enough s - 1) + 1 := by
    unfold enough
    omega
  unfold perform
  rw [henough, run_succ]
  rfl

/-- An integer that can be read is the result, and nothing else changes. -/
theorem exists_integerLiteral_of_integer {s : State σ} {v : Int}
    (hread : Numeral.read s.current.literal.toList = .integer v) :
    ∃ t, perform .integerLiteral s = .ok (some (.integerLiteral s.current v)) t ∧
      t.view = s.view := by
  rw [perform_integerLiteral]
  refine exists_traced_eq fun s' hs' => ?_
  have hcurrent := current_of_view hs'
  rw [integerLiteral_eq, hcurrent, hread]
  exact ⟨s', rfl, hs'⟩

/-- What cannot be read is reported. -/
theorem exists_integerLiteral_of_unreadable {s : State σ}
    (hread : Numeral.read s.current.literal.toList = .unreadable) :
    ∃ t, perform .integerLiteral s = .ok none t ∧ t.view = s.view.report s.current .notInteger := by
  rw [perform_integerLiteral]
  refine exists_traced_eq fun s' hs' => ?_
  have hcurrent := current_of_view hs'
  rw [integerLiteral_eq, hcurrent, hread]
  exact ⟨_, rfl, by rw [State.view_record, hs']⟩

/-- What the rule does in any state whose current token has no overlong text. -/
theorem integerLiteral_iff {s : State σ} (short : ¬Numeral.Overlong s.current.literal.toList) :
    (∀ v, (∃ t, perform .integerLiteral s = .ok (some (.integerLiteral s.current v)) t ∧
        t.view = s.view) ↔ Numeral.Denotes s.current.literal.toList v) ∧
      ((∀ v, ¬Numeral.Denotes s.current.literal.toList v) →
        ∃ t d, perform .integerLiteral s = .ok none t ∧
          t.view = ⟨s.view.window, s.diagnostics ++ [d]⟩ ∧ d.token = s.current ∧
          d.message = "could not parse " ++ quoted s.current.literal ++ " as integer") := by
  -- the failing case is needed on both sides, to rule it out where there is a value
  have unreadable : (∀ v, ¬Numeral.Denotes s.current.literal.toList v) →
      ∃ t, perform .integerLiteral s = .ok none t ∧
        t.view = s.view.report s.current .notInteger := by
    intro hnone
    exact exists_integerLiteral_of_unreadable (Numeral.read_eq_unreadable short hnone)
  constructor
  · intro v
    constructor
    · rintro ⟨t, hrun, -⟩
      by_cases hsome : ∃ v', Numeral.Denotes s.current.literal.toList v'
      · obtain ⟨v', hv'⟩ := hsome
        have hread := (Numeral.read_eq_integer_iff_denotes short).2 hv'
        obtain ⟨t', hrun', -⟩ := exists_integerLiteral_of_integer hread
        -- one run has one result
        rw [hrun] at hrun'
        cases hrun'
        exact hv'
      · obtain ⟨t', hrun', -⟩ := unreadable (not_exists.1 hsome)
        rw [hrun] at hrun'
        cases hrun'
    · intro hv
      exact exists_integerLiteral_of_integer ((Numeral.read_eq_integer_iff_denotes short).2 hv)
  · intro hnone
    obtain ⟨t, hrun, hview⟩ := unreadable hnone
    exact ⟨t, ⟨s.current, .notInteger⟩, hrun, hview, rfl, rfl⟩

/-! ## A source that is one number -/

variable {x : View σ}

/-- A program of nothing but an integer is one statement with what comes of it as an expression. -/
theorem achieves_program_of_number (hk : x.current.kind = .int) (hpeek : x.peek.kind = .eof)
    {v : Option Node} {ds : List Diagnostic}
    (h : Achieves (.expression 1) x (fun u y => u = v ∧ y = ⟨x.window, ds⟩) fun _ _ => False) :
    Achieves .program x
      (fun tree y => tree = .program [.expressionStatement x.current v] ∧ y.diagnostics = ds)
      fun _ _ => False := by
  have expressionStatement : Achieves .expressionStatement x
      (fun n y => n = .expressionStatement x.current v ∧ y = ⟨x.window, ds⟩) fun _ _ => False := by
    refine .of_step fun fuel => ensures_expressionStatement ((h fuel).imp_result ?_)
    rintro u y ⟨rfl, rfl⟩
    -- no semicolon follows that the statement could take in
    have hsemicolon : x.peek.kind ≠ .semicolon := by
      rw [hpeek]
      decide
    exact ⟨rfl, View.skip_of_ne hsemicolon⟩
  have statement : Achieves .statement x
      (fun n y => n = some (.expressionStatement x.current v) ∧ y = ⟨x.window, ds⟩)
      fun _ _ => False := by
    refine .of_step fun fuel => ensures_statement (fun hlet => ?_) (fun hreturn => ?_) fun _ _ => ?_
    · exact absurd (hk.symm.trans hlet) nofun
    · exact absurd (hk.symm.trans hreturn) nofun
    · refine (expressionStatement fuel).imp_result ?_
      rintro n y ⟨rfl, rfl⟩
      exact ⟨rfl, rfl⟩
  -- behind the number there is the end of the input
  have rest : Achieves (.statements .eof) (⟨x.window.advance, ds⟩ : View σ)
      (fun ns y => ns = [] ∧ y.diagnostics = ds) fun _ _ => False := by
    refine .of_step fun fuel => ensures_statements (fun _ => ⟨rfl, rfl⟩) fun hmore => ?_
    exact absurd (.inl hpeek) hmore
  have statements : Achieves (.statements .eof) x
      (fun ns y => ns = [.expressionStatement x.current v] ∧ y.diagnostics = ds)
      fun _ _ => False := by
    refine .of_step fun fuel => ensures_statements (fun hclosed => ?_) fun _ => ?_
    · exact absurd (hk.symm.trans (or_self_iff.1 hclosed)) nofun
    · refine (statement fuel).imp_result ?_
      rintro n y ⟨rfl, rfl⟩
      refine ⟨fun m hm => ?_, nofun⟩
      cases hm
      refine (rest fuel).imp_result ?_
      rintro ns z ⟨rfl, hz⟩
      exact ⟨rfl, hz⟩
  refine .of_step fun fuel => ensures_program ((statements fuel).imp_result ?_)
  rintro ns y ⟨rfl, hy⟩
  exact ⟨rfl, hy⟩

/-- An integer that nothing goes on with is read as it stands. -/
theorem achieves_expression_of_integer {v : Int} (hk : x.current.kind = .int)
    (hpeek : x.peek.kind = .eof)
    (hread : Numeral.read x.current.literal.toList = .integer v) :
    Achieves (.expression 1) x (fun u y => u = some (.integerLiteral x.current v) ∧ y = x)
      fun _ _ => False := by
  -- the rule cannot find the text unreadable or too long: it reads one way only
  have integer : Achieves .integerLiteral x
      (fun u y => u = some (.integerLiteral x.current v) ∧ y = x) fun _ _ => False := by
    refine .of_step fun fuel => ensures_integerLiteral (fun n hn => ?_) (fun digits hdigits => ?_)
      fun hunreadable => ?_
    · cases hread.symm.trans hn
      exact ⟨rfl, rfl⟩
    · exact absurd (hread.symm.trans hdigits) nofun
    · exact absurd (hread.symm.trans hunreadable) nofun
  have hrule : RuleTable.starting.find? x.current.kind = some .integerLiteral := by
    rw [hk]
    rfl
  refine Achieves.start hrule fun fuel => (integer fuel).imp_result ?_
  rintro u y ⟨rfl, rfl⟩
  refine ⟨nofun, fun left hleft => ?_⟩
  cases hleft
  -- no operator follows, so the number is the whole expression
  have hlevel : y.peek.kind.level ≤ 1 := by
    rw [hpeek]
    decide
  exact Achieves.done hlevel ⟨rfl, rfl⟩

end Parse

namespace Cursor

/-- A numeral is read as one token, with the end of the input behind it. -/
theorem scan_of_isNumeral {text : String} (h : Numeral.isNumeral text.toList = true) :
    (ofString text).scan.1 = .sole text ∧
      (ofString text).scan.2.scan.1.kind = .eof := by
  -- the numeral is the whole text, so its lexeme ends where the text does
  have hrest : (ofString text).rest = text.toList := rest_of_nonneg (Int.le_refl 0)
  have hrest' : (ofString text).rest = (⟨.int, text.toList⟩ : Lexeme).text ++ [] := by
    rw [hrest, List.append_nil]
  have hscan : (ofString text).scan =
      ((ofString text).token ⟨.int, text.toList⟩, (ofString text).past text.toList) := by
    refine scan_of_lexeme hrest' ?_ nofun
    rw [List.append_nil]
    exact lexemeAt?_of_isNumeral h
  rw [hscan]
  refine ⟨?_, kind_scan_of_rest_eq_nil (rest_past hrest')⟩
  rw [token, String.ofList_toList]
  rfl

end Cursor

/-- The tokens of a source that is a numeral. -/
theorem exists_tokenize_of_isNumeral {source : String}
    (h : Numeral.isNumeral source.toList = true) :
    ∃ last, tokenize source = [.sole source, last] ∧ last.kind = .eof := by
  obtain ⟨hfirst, hlast⟩ := Cursor.scan_of_isNumeral h
  refine ⟨(Cursor.ofString source).scan.2.scan.1, ?_, hlast⟩
  -- the number is not the end of the input, so reading goes on to what is
  have hne : (Cursor.ofString source).scan.1.kind ≠ .eof := by
    rw [hfirst]
    exact nofun
  rw [tokenize, Cursor.scanAll_of_ne hne, Cursor.scanAll_of_eof hlast, hfirst]

/-- What comes of a source that is a numeral, by what comes of it as an expression. -/
theorem exists_parseProgram_of_isNumeral {source : String}
    (h : Numeral.isNumeral source.toList = true) {v : Option Node} {ds : List Diagnostic}
    (hexpression : ∀ x : View Cursor, x.current = .sole source → x.peek.kind = .eof →
      x.diagnostics = [] → Parse.Achieves (.expression 1) x
        (fun u y => u = v ∧ y = ⟨x.window, ds⟩) fun _ _ => False) (tracing : Bool) :
    ∃ s, parseProgram (Cursor.ofString source) tracing =
        (.ok (.program [.expressionStatement (Token.sole source) v]), s) ∧ s.diagnostics = ds := by
  obtain ⟨hfirst, hlast⟩ := Cursor.scan_of_isNumeral h
  have hcurrent : (View.start (Cursor.ofString source)).current = .sole source := hfirst
  have hpeek : (View.start (Cursor.ofString source)).peek.kind = .eof := hlast
  have hkind : (View.start (Cursor.ofString source)).current.kind = .int :=
    congrArg Token.kind hcurrent
  -- the one token is current, and behind it is the end of the input
  have program := Parse.achieves_program_of_number hkind hpeek
    (hexpression _ hcurrent hpeek rfl)
  rcases program.parseProgram tracing with ⟨tree, s, hrun, rfl, hds⟩ | ⟨_, _, _, hE⟩
  · rw [hcurrent] at hrun
    exact ⟨s, hrun, hds⟩
  · exact hE.elim

/-- A source that is the text of an integer of the language. -/
theorem exists_parseProgram_of_denotes {source : String} {v : Int}
    (short : ¬Numeral.Overlong source.toList) (h : Numeral.Denotes source.toList v)
    (tracing : Bool) :
    ∃ s, parseProgram (Cursor.ofString source) tracing =
        (.ok (.program [.expressionStatement (Token.sole source)
          (some (.integerLiteral (Token.sole source) v))]), s) ∧ s.diagnostics = [] := by
  have numeral : Numeral.isNumeral source.toList = true := Numeral.isNumeral_iff.2 ⟨h.1, h.2.1⟩
  have hread := (Numeral.read_eq_integer_iff_denotes short).2 h
  refine exists_parseProgram_of_isNumeral numeral ?_ tracing
  intro x hcurrent hpeek hds fuel
  have hkind : x.current.kind = .int := congrArg Token.kind hcurrent
  have hcurrentRead : Numeral.read x.current.literal.toList = .integer v := by
    rw [hcurrent]
    exact hread
  refine (Parse.achieves_expression_of_integer hkind hpeek hcurrentRead fuel).imp_result ?_
  rintro u y ⟨rfl, rfl⟩
  exact ⟨by rw [hcurrent], by rw [← hds]⟩

/-- A source that is a numeral, but not of an integer of the language. -/
theorem exists_parseProgram_of_not_denotes {source : String}
    (short : ¬Numeral.Overlong source.toList)
    (numeral : Numeral.isNumeral source.toList = true)
    (h : ∀ v, ¬Numeral.Denotes source.toList v) (tracing : Bool) :
    ∃ s, parseProgram (Cursor.ofString source) tracing =
        (.ok (.program [.expressionStatement (Token.sole source) none]), s) ∧
      s.diagnostics = [⟨Token.sole source, .notInteger⟩] := by
  have hread := Numeral.read_eq_unreadable short h
  refine exists_parseProgram_of_isNumeral numeral ?_ tracing
  intro x hcurrent _ hds fuel
  have hkind : x.current.kind = .int := congrArg Token.kind hcurrent
  have hcurrentRead : Numeral.read x.current.literal.toList = .unreadable := by
    rw [hcurrent]
    exact hread
  refine (Parse.achieves_expression_of_unreadable 1 hkind hcurrentRead fuel).imp_result ?_
  rintro u y ⟨rfl, rfl⟩
  refine ⟨rfl, ?_⟩
  rw [View.report, hds, hcurrent, List.nil_append]

/-! ## Exactly the integers of the language -/

/-- A padded number denotes itself if it is small enough, and nothing otherwise. -/
theorem Numeral.denotes_padded_iff (zeros n : Nat) {v : Int} :
    Denotes (padded zeros n).toList v ↔ v = n ∧ n < 2 ^ 63 := by
  obtain ⟨hne, hdigits⟩ := isNumeral_iff.1 (isNumeral_padded zeros n)
  rw [Denotes, value_padded]
  constructor
  · rintro ⟨-, -, rfl, hle⟩
    exact ⟨rfl, by omega⟩
  · rintro ⟨rfl, hlt⟩
    exact ⟨hne, hdigits, rfl, by omega⟩

/-- The rule for integer literals gives the integer that the text of the current token denotes and
changes nothing else; where the text denotes none, it gives nothing and reports the text. A number
with any zeros in front is read as one token; the parse gives the number if it is below `2 ^ 63`,
and otherwise the number is reported and a strict parse rejects the source. Texts with too many
digits to be converted are left out. -/
theorem integerLiteral_exact :
    (∀ {σ : Type} [TokenSource σ] (s : State σ),
      let text := s.current.literal.toList
      ¬Numeral.Overlong text →
      (∀ v, (∃ t, Parse.perform .integerLiteral s =
          .ok (some (.integerLiteral s.current v)) t ∧ t.view = s.view) ↔
        Numeral.Denotes text v) ∧
      ((∀ v, ¬Numeral.Denotes text v) →
        ∃ t d, Parse.perform .integerLiteral s = .ok none t ∧
          t.view = ⟨s.view.window, s.diagnostics ++ [d]⟩ ∧ d.token = s.current ∧
          d.message = "could not parse " ++ quoted s.current.literal ++ " as integer")) ∧
    ∀ (zeros n : Nat) (tracing : Bool),
      let source := padded zeros n
      let number := Token.sole source
      source.length ≤ Numeral.mostDigits →
      (∃ last, tokenize source = [number, last] ∧ last.kind = .eof) ∧
      (n < 2 ^ 63 →
        let tree := Node.program [.expressionStatement number (some (.integerLiteral number n))]
        (∃ s, parseProgram (Cursor.ofString source) tracing = (.ok tree, s) ∧ s.diagnostics = []) ∧
          (parse source true tracing).1 = .ok tree) ∧
      (2 ^ 63 ≤ n →
        let tree := Node.program [.expressionStatement number none]
        (∃ s, parseProgram (Cursor.ofString source) tracing = (.ok tree, s) ∧
            s.diagnostics = [⟨number, .notInteger⟩]) ∧
          (parse source true tracing).1 = .error (.rejected ⟨number, .notInteger⟩ [])) := by
  refine ⟨fun s short => Parse.integerLiteral_iff short, ?_⟩
  intro zeros n tracing source number hlength
  have numeral : Numeral.isNumeral source.toList = true := Numeral.isNumeral_padded zeros n
  have short : ¬Numeral.Overlong source.toList := by
    intro hlong
    -- the length was bounded for this
    have hlt : Numeral.mostDigits < source.length := hlong.2
    omega
  refine ⟨exists_tokenize_of_isNumeral numeral, fun hlt => ?_, fun hle => ?_⟩
  · obtain ⟨s, hrun, hds⟩ := exists_parseProgram_of_denotes short
      ((Numeral.denotes_padded_iff zeros n).2 ⟨rfl, hlt⟩) tracing
    refine ⟨⟨s, hrun, hds⟩, ?_⟩
    rw [parse, hrun]
    simp only [hds, verdict]
    rfl
  · have hnone : ∀ v, ¬Numeral.Denotes source.toList v := by
      intro v hv
      have := ((Numeral.denotes_padded_iff zeros n).1 hv).2
      omega
    obtain ⟨s, hrun, hds⟩ := exists_parseProgram_of_not_denotes short numeral hnone tracing
    refine ⟨⟨s, hrun, hds⟩, ?_⟩
    rw [parse, hrun]
    simp only [hds, verdict]
    rfl

/-- Seven behind two zeros is seven, and the integer above the greatest one is rejected also behind
a zero. -/
theorem integerLiteral_exact_boundary :
    let seven : State (List Token) := .start [.unplaced .int "007"] false
    let number := Token.sole "09223372036854775808"
    (∃ t, Parse.perform .integerLiteral seven =
        .ok (some (.integerLiteral (Token.unplaced .int "007") 7)) t ∧ t.view = seven.view) ∧
      padded 1 (2 ^ 63) = number.literal ∧
      (∃ last, tokenize number.literal = [number, last] ∧ last.kind = .eof) ∧
      (parse number.literal true false).1 = .error (.rejected ⟨number, .notInteger⟩ []) := by
  intro seven number
  have hnumber : padded 1 (2 ^ 63) = number.literal := by decide +kernel
  have short : ¬Numeral.Overlong "007".toList := fun h => absurd h.2 (by decide)
  have denotes : Numeral.Denotes "007".toList 7 :=
    ⟨by decide, List.all_eq_true.1 (by decide), by decide, by decide⟩
  obtain ⟨hread, hpadded⟩ := integerLiteral_exact
  have hseven := ((hread seven short).1 7).2 denotes
  obtain ⟨htokens, -, hlarge⟩ := hpadded 1 (2 ^ 63) false (by rw [hnumber]; decide)
  rw [hnumber] at htokens hlarge
  exact ⟨hseven, hnumber, htokens, (hlarge (Nat.le_refl _)).2⟩

end Pratt
