import Pratt.Proofs.Faults
import Pratt.Proofs.Lexing
import Pratt.Proofs.Soundness

/-!
# Pratt — sources that are parsed to a tree

Whatever is wrong with a source becomes a diagnostic, with one exception: the text of an integer may
have so many digits that it is not converted at all, and then the parse ends in a fault. This is the
only one (`Parse.overflowsOnly_run`), so a source without such an integer among its tokens is parsed to a
tree (`exists_tree_of_source`), and one that is nothing but such an integer is not
(`parseProgram_of_long_numeral`).

An integer that can be converted but is too large is a diagnostic like any other
(`achieves_expression_of_unreadable`).

The tokens that a window on a cursor sees are those that the scan of the whole text lists, and then the
end of the input again and again (`Cursor.mem_scanAll_of_reads`).
-/

namespace Pratt

/-! ## The tokens of a source -/

/-- A lexeme is an operator, or its first character says where it ends. -/
theorem operator_or_plain_of_lexemeAt? {text : List Char} {x : Lexeme} (h : lexemeAt? text = some x) :
    (x.text, x.kind) ∈ (Kind.operators.map fun p => (p.1.toList, p.2)) ∨
      ∃ a tail, x = plainLexeme a tail := by
  match text, h with
  | a :: tail, h =>
    rw [lexemeAt?, Option.some.injEq] at h
    -- operators come first, and where there is none the lexeme is a plain one
    cases hop : operatorAt? (a :: tail) with
    | some y =>
      rw [hop, Option.getD_some] at h
      subst h
      exact .inl (mem_operators_of_operatorOf? (operatorOf?_text hop))
    | none =>
      rw [hop, Option.getD_none] at h
      exact .inr ⟨a, tail, h.symm⟩

/-- The end of the input is no lexeme. -/
theorem kind_ne_eof_of_lexemeAt? {text : List Char} {x : Lexeme} (h : lexemeAt? text = some x) :
    x.kind ≠ .eof := by
  have operators : ∀ p ∈ Kind.operators.map fun p => (p.1.toList, p.2), p.2 ≠ .eof := by decide
  have words : ∀ k ∈ Kind.words, k ≠ .eof := by decide
  rcases operator_or_plain_of_lexemeAt? h with hop | ⟨a, tail, rfl⟩
  · exact operators _ hop
  · unfold plainLexeme
    split
    · exact words _ (Kind.ofWord_mem_words _)
    · split <;> exact nofun

/-- The text of an integer is a numeral. -/
theorem isNumeral_of_lexemeAt? {text : List Char} {x : Lexeme} (h : lexemeAt? text = some x)
    (hk : x.kind = .int) : Numeral.isNumeral x.text = true := by
  have operators : ∀ p ∈ Kind.operators.map fun p => (p.1.toList, p.2), p.2 ≠ .int := by decide
  have words : ∀ k ∈ Kind.words, k ≠ .int := by decide
  -- of the lexemes only a run of digits has this kind
  rcases operator_or_plain_of_lexemeAt? h with hop | ⟨a, tail, rfl⟩
  · exact absurd hk (operators _ hop)
  · unfold plainLexeme at hk ⊢
    by_cases hword : isWordStart a = true
    · rw [if_pos hword] at hk
      exact absurd hk (words _ (Kind.ofWord_mem_words _))
    · rw [if_neg hword] at hk ⊢
      by_cases hdigit : a.isDigit = true
      · rw [if_pos hdigit]
        refine Numeral.isNumeral_iff.2 ⟨?_, fun c hc => List.mem_takeWhile_imp hc⟩
        rw [List.takeWhile_cons_of_pos hdigit]
        exact nofun
      · rw [if_neg hdigit] at hk
        cases hk

namespace Cursor

variable {c : Cursor}

/-- At the end of a text there is one token left, which says so. -/
theorem scanAll_of_eof (h : c.scan.1.kind = .eof) : c.scanAll.1 = [c.scan.1] := by
  rw [scanAll]
  simp [h]

/-- Before the end there is a token, and then those behind it. -/
theorem scanAll_of_ne (h : c.scan.1.kind ≠ .eof) :
    c.scanAll.1 = c.scan.1 :: c.scan.2.scanAll.1 := by
  rw [scanAll]
  simp [h]

/-- Behind the end of the input there is the end of the input again. -/
theorem scan_of_eof (h : c.scan.1.kind = .eof) : c.scan.2.scan.1.kind = .eof := by
  unfold scan at h ⊢
  dsimp only at h ⊢
  cases hx : lexemeAt? c.skipSpace.rest with
  | some x =>
    rw [hx] at h
    exact absurd h (kind_ne_eof_of_lexemeAt? hx)
  | none =>
    have hrest : c.skipSpace.skipSpace.rest = [] := by
      rw [rest_skipSpace, lexemeAt?_eq_none_iff.1 hx, List.dropWhile_nil]
    simp only [hrest, lexemeAt?_nil]

/-- The tokens ahead have the kinds that their texts make. -/
theorem lexical_of_mem_scanAll {t : Token} (ht : t ∈ c.scanAll.1) (hk : t.kind ≠ .eof) :
    t.Lexical := by
  induction c using scanAll.induct with
  | case1 c next heof =>
    rw [scanAll_of_eof heof, List.mem_singleton] at ht
    exact absurd heof (ht ▸ hk)
  | case2 c next hne ih =>
    rw [scanAll_of_ne hne, List.mem_cons] at ht
    rcases ht with rfl | hlater
    · exact lexical_scan hk
    · exact ih hlater

/-- What a window on a cursor sees is among the tokens ahead, or is the end of the input. -/
theorem mem_scanAll_of_reads {ts : List Token} {w : Window Cursor}
    (h : (Window.filled c).Reads ts w) : w.current ∈ c.scanAll.1 ∨ w.current.kind = .eof := by
  induction ts generalizing c with
  | nil =>
    obtain rfl := h
    rw [Window.current_filled]
    by_cases heof : c.scan.1.kind = .eof
    · exact .inr heof
    · rw [scanAll_of_ne heof]
      exact .inl List.mem_cons_self
  | cons t ts ih =>
    have hlater := h.2
    rw [Window.advance_filled] at hlater
    rcases ih hlater with hmem | hend
    · by_cases heof : c.scan.1.kind = .eof
      -- there is nothing but the end of the input any more
      · have hnext := scan_of_eof heof
        rw [show (TokenSource.next c).2 = c.scan.2 from rfl, scanAll_of_eof hnext] at hmem
        rw [List.mem_singleton.1 hmem]
        exact .inr hnext
      · rw [scanAll_of_ne heof]
        exact .inl (List.mem_cons_of_mem _ hmem)
    · exact .inr hend

/-- What is read up to the end of the input are the tokens ahead. -/
theorem scanAll_of_reads {ts : List Token} {w : Window Cursor} (h : (Window.filled c).Reads ts w)
    (hts : ∀ t ∈ ts, t.kind ≠ .eof) (hw : w.current.kind = .eof) :
    c.scanAll.1 = ts ++ [w.current] := by
  induction ts generalizing c with
  | nil =>
    obtain rfl := h
    exact scanAll_of_eof hw
  | cons t ts ih =>
    obtain ⟨rfl, hlater⟩ := h
    obtain ⟨ht, hts⟩ := List.forall_mem_cons.1 hts
    rw [Window.advance_filled] at hlater
    rw [scanAll_of_ne ht]
    exact congrArg (c.scan.1 :: ·) (ih hlater hts)

end Cursor

/-! ## Sources without a long integer -/

/-- A source is parsed to a tree, unless one of its tokens is an integer with too many digits. If
nothing is reported its tokens are a program of the grammar. -/
theorem exists_tree_of_source {source : String}
    (hshort : ∀ t ∈ tokenize source, t.kind = .int →
      t.literal.toList.length ≤ Numeral.mostDigits) (tracing : Bool) :
    ∃ tree s, parseProgram (Cursor.ofString source) tracing = (.ok tree, s) ∧
      (s.diagnostics = [] → ∃ ts last, tokenize source = ts ++ [last] ∧ last.kind = .eof ∧
        Derives .program ts tree) := by
  rcases exists_tree_or_oversized (Cursor.ofString source) tracing with
    ⟨tree, s, hrun⟩ | ⟨us, w, digits, hus, hk, hdigits⟩
  · refine ⟨tree, s, hrun, fun hs => ?_⟩
    obtain ⟨ts, w, hts, htree, hw⟩ := exists_derives_of_diagnostics_eq_nil hrun hs
    exact ⟨ts, w.current, Cursor.scanAll_of_reads hts htree.ne_eof hw, hw, htree⟩
  -- what the window is on is a token of the source, or is no integer
  · rcases Cursor.mem_scanAll_of_reads hus with hmem | heof
    · exact absurd hdigits (Numeral.read_ne_oversized (fun _ => hshort _ hmem hk) digits)
    · exact absurd (hk.symm.trans heof) (by decide)

/-! ## Integers that are too large -/

namespace Parse

variable {σ : Type} [TokenSource σ] {x : View σ}

/-- Where an expression starts with an integer that is out of range, this is reported and nothing is
read. -/
theorem achieves_expression_of_unreadable (bound : Int) (hk : x.current.kind = .int)
    (hread : Numeral.read x.current.literal.toList = .unreadable) :
    Achieves (.expression bound) x
      (fun v y => v = none ∧ y = x.report x.current .notInteger) fun _ _ => False := by
  have integer : Achieves .integerLiteral x
      (fun v y => v = none ∧ y = x.report x.current .notInteger) fun _ _ => False := by
    refine .of_step fun fuel => ensures_integerLiteral (fun n hn => ?_) (fun digits hdigits => ?_)
      fun _ => ⟨rfl, rfl⟩
    · exact absurd (hread.symm.trans hn) nofun
    · exact absurd (hread.symm.trans hdigits) nofun
  refine .of_step fun fuel => ensures_expression (ensures_operand_of_find? (r := .integerLiteral)
    (by rw [hk]; rfl) ((integer fuel).imp_result fun v y hv => ?_))
  exact ⟨fun _ => ⟨rfl, hv.2⟩, fun left hleft => absurd (hv.1.symm.trans hleft) nofun⟩

/-- The goal ends in the fault on the spot, and nothing is read or reported. -/
def FaultsAt (g : Goal) (x : View σ) (fault : Fault) : Prop :=
  Achieves g x (fun _ _ => False) fun e y => e = fault ∧ y = x

/-- Where a program starts with an integer that has too many digits, that is the fault. -/
theorem faultsAt_program_of_oversized {digits : Nat} (hk : x.current.kind = .int)
    (hread : Numeral.read x.current.literal.toList = .oversized digits) :
    FaultsAt .program x (.oversizedInteger digits) := by
  -- the fault passes through every rule on the way to the integer
  have integer : FaultsAt .integerLiteral x (.oversizedInteger digits) := by
    refine Achieves.of_step fun fuel => ensures_integerLiteral (fun n hn => ?_)
      (fun digits' hdigits _ => ?_) fun hunreadable => ?_
    · exact absurd (hread.symm.trans hn) nofun
    · cases hread.symm.trans hdigits
      exact ⟨rfl, rfl⟩
    · exact absurd (hread.symm.trans hunreadable) nofun
  have expression : FaultsAt (.expression 1) x (.oversizedInteger digits) :=
    Achieves.of_step fun fuel => ensures_expression (ensures_operand_of_find? (r := .integerLiteral)
      (by rw [hk]; rfl) ((integer fuel).imp_result fun _ _ => False.elim))
  have expressionStatement : FaultsAt .expressionStatement x (.oversizedInteger digits) :=
    Achieves.of_step fun fuel => ensures_expressionStatement
      ((expression fuel).imp_result fun _ _ => False.elim)
  have statement : FaultsAt .statement x (.oversizedInteger digits) := by
    refine Achieves.of_step fun fuel => ensures_statement (fun hlet => ?_) (fun hreturn => ?_)
      fun _ _ => expressionStatement fuel
    · exact absurd (hk.symm.trans hlet) nofun
    · exact absurd (hk.symm.trans hreturn) nofun
  have statements : FaultsAt (.statements .eof) x (.oversizedInteger digits) := by
    refine Achieves.of_step fun fuel => ensures_statements (fun hclosed => ?_)
      fun _ => (statement fuel).imp_result fun _ _ => False.elim
    exact absurd (hk.symm.trans (or_self_iff.1 hclosed)) nofun
  exact Achieves.of_step fun fuel => ensures_program (statements fuel)

end Parse

/-! ## A long integer -/

/-- The whole of a numeral is cut off as one lexeme. -/
theorem lexemeAt?_of_isNumeral {text : List Char} (h : Numeral.isNumeral text = true) :
    lexemeAt? text = some ⟨.int, text⟩ := by
  obtain ⟨hne, hdigits⟩ := Numeral.isNumeral_iff.1 h
  match text, hne with
  | a :: text, _ =>
    have hdigit := hdigits a List.mem_cons_self
    have hop : operatorOf? [a] = none := by
      cases hop : operatorOf? [a] with
      | none => rfl
      | some x =>
        have hchar := isWordChar_eq_false_of_operatorOf? hop
        exact absurd hdigit (by simp [isDigit_eq_false_of_isWordChar hchar])
    have hword : isWordStart a = false :=
      Bool.eq_false_iff.2 fun hstart =>
        absurd hdigit (by simp [isDigit_eq_false_of_isWordStart hstart])
    rw [lexemeAt?, operatorAt?_cons_eq_none_iff.2 hop, Option.getD_none, plainLexeme, hword, hdigit]
    simp [List.takeWhile_eq_self_iff.2 hdigits]

/-- A source that is an integer of too many digits is not parsed to a tree, and nothing is
reported. -/
theorem parseProgram_of_long_numeral {text : List Char} (numeral : Numeral.isNumeral text = true)
    (long : Numeral.mostDigits < text.length) (tracing : Bool) :
    ∃ s, parseProgram (Cursor.ofString (String.ofList text)) tracing =
        (.error (.oversizedInteger text.length), s) ∧ s.diagnostics = [] := by
  let source := Cursor.ofString (String.ofList text)
  have hrest : source.rest = text :=
    (Cursor.rest_of_nonneg (Int.le_refl 0)).trans String.toList_ofList
  -- the text is one lexeme, so the first token is the integer
  have hlexes : Lexes ((⟨.int, text⟩ : Lexeme).text ++ []) [⟨.int, text⟩] := by
    refine .lexeme ?_ (by decide : Kind.int ≠ .illegal) .empty
    rw [List.append_nil]
    exact lexemeAt?_of_isNumeral numeral
  rw [List.append_nil] at hlexes
  obtain ⟨ts, w, hts, -, hlexeme⟩ := Cursor.exists_reads_of_lexes hlexes hrest
  obtain ⟨t, rfl, ht⟩ := List.map_eq_singleton_iff.1 hlexeme
  have hkind : t.kind = .int := congrArg Lexeme.kind ht
  have hliteral : t.literal.toList = text := congrArg Lexeme.text ht
  have hcurrent : (View.start source).current = t := hts.1
  have hread : Numeral.read (View.start source).current.literal.toList = .oversized text.length := by
    rw [hcurrent, hliteral]
    exact Numeral.read_eq_oversized_iff.2 ⟨numeral, long, rfl⟩
  have fault := Parse.faultsAt_program_of_oversized (by rw [hcurrent, hkind]) hread
  rcases fault.parseProgram tracing with ⟨_, _, _, hE⟩ | ⟨e, s, hrun, rfl, hview⟩
  · exact hE.elim
  · exact ⟨s, hrun, congrArg View.diagnostics hview⟩

/-- What is not a tree: the digit one so often that it is too many digits by one. -/
theorem parseProgram_of_manyOnes :
    let source := String.ofList (List.replicate 4301 '1')
    ∃ s, parseProgram (Cursor.ofString source) false = (.error (.oversizedInteger 4301), s) ∧
      s.diagnostics = [] := by
  have numeral : Numeral.isNumeral (List.replicate 4301 '1') = true := by
    refine Numeral.isNumeral_iff.2 ⟨nofun, fun c hc => ?_⟩
    rw [List.eq_of_mem_replicate hc]
    rfl
  have long : Numeral.mostDigits < (List.replicate 4301 '1').length := by
    rw [List.length_replicate]
    decide
  obtain ⟨s, hrun, hs⟩ := parseProgram_of_long_numeral numeral long false
  rw [List.length_replicate] at hrun
  exact ⟨s, hrun, hs⟩

/-! ## What is a diagnostic -/

/-- A source is parsed to a tree if none of its integers has too many digits, and then it is a program
of the grammar if nothing is reported. Where one of its integers is out of range and an expression is
to start with it, exactly that is reported and the window stays. -/
theorem exists_tree_of_short_integers {source : String} (tracing : Bool)
    (short : ∀ t ∈ tokenize source, t.kind = .int →
      t.literal.toList.length ≤ Numeral.mostDigits) :
    (∃ tree s, parseProgram (Cursor.ofString source) tracing = (.ok tree, s) ∧
      (s.diagnostics = [] → ∃ ts last, tokenize source = ts ++ [last] ∧ last.kind = .eof ∧
        Derives .program ts tree)) ∧
    ∀ (s : State Cursor) (bound : Int), s.Standard → s.current ∈ tokenize source →
      s.current.kind = .int → Numeral.greatest < Numeral.value s.current.literal.toList →
      ∃ t d, Parse.perform (.expression bound) s = .ok none t ∧
        t.view = ⟨s.view.window, s.diagnostics ++ [d]⟩ ∧ d.token = s.current ∧
        d.message = "could not parse " ++ quoted s.current.literal ++ " as integer" := by
  refine ⟨exists_tree_of_source short tracing, fun s bound hs hmem hk large => ?_⟩
  have hlexical := Cursor.lexical_of_mem_scanAll hmem (by rw [hk]; decide)
  have numeral : Numeral.isNumeral s.current.literal.toList = true :=
    isNumeral_of_lexemeAt? hlexical hk
  -- it is a numeral that is short enough to be converted, and too great
  have hread : Numeral.read s.current.literal.toList = .unreadable := by
    unfold Numeral.read
    rw [if_pos numeral, if_neg (Nat.not_lt.2 (short _ hmem hk)), if_neg]
    exact fun hrange => absurd hrange.2 (Int.not_le.2 large)
  obtain ⟨v, t, hrun, -, rfl, hview⟩ :=
    (Parse.achieves_expression_of_unreadable (x := s.view) bound hk hread).exists_perform hs
  exact ⟨t, ⟨s.current, .notInteger⟩, hrun, hview, rfl, rfl⟩

/-- The integer above the greatest one is reported, and there is a tree. -/
theorem exists_tree_of_largeInteger :
    (∃ tree s, parseProgram (Cursor.ofString "9223372036854775808") false = (.ok tree, s) ∧
        s.diagnostics ≠ []) ∧
      ∃ t d, Parse.perform (.expression 1)
          (State.start (Cursor.ofString "9223372036854775808") false) = .ok none t ∧
        t.diagnostics = [d] ∧
        d.message = "could not parse " ++ quoted "9223372036854775808" ++ " as integer" := by
  have htokens : tokenize "9223372036854775808" =
      [⟨.int, "9223372036854775808", 1, 1⟩, ⟨.eof, "", 1, 20⟩] := by
    unfold tokenize
    rw [Cursor.scanAll_of_ne (by decide), Cursor.scanAll_of_eof (by decide)]
    rfl
  have hshort : ∀ t ∈ tokenize "9223372036854775808", t.kind = .int →
      t.literal.toList.length ≤ Numeral.mostDigits := by
    rw [htokens]
    decide
  obtain ⟨⟨tree, s, hrun, -⟩, hlarge⟩ := exists_tree_of_short_integers false hshort
  have hreported :
      (parseProgram (Cursor.ofString "9223372036854775808") false).2.diagnostics ≠ [] := nofun
  rw [hrun] at hreported
  refine ⟨⟨tree, s, hrun, hreported⟩, ?_⟩
  have hmem : (State.start (Cursor.ofString "9223372036854775808") false).current ∈
      tokenize "9223372036854775808" := by
    rw [htokens]
    exact List.mem_cons_self
  obtain ⟨t, d, hrun, hview, -, hmessage⟩ := hlarge _ 1 ⟨rfl, rfl⟩ hmem rfl (by decide)
  exact ⟨t, d, hrun, congrArg View.diagnostics hview, hmessage⟩

end Pratt
