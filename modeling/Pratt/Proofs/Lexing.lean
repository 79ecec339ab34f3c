import Mathlib.Data.List.TakeWhile
import Pratt.Proofs.Window

/-!
# Pratt — how a text falls into lexemes

Which lexeme stands at the front of a text depends on one character behind it at
most. `Kind.EndsBefore` says of which characters that is true: the lexeme is cut
off the same in front of any text that starts with such a character
(`lexemeAt?_append`).

So texts can be put together from what each part falls into. `Lexes text xs`
says that a text falls into the lexemes `xs`, and `Spells text xs free` that it
does so, as a part, in front of every text that starts with a character of which
`free` holds.
-/

namespace Pratt

/-! ## What a lexeme does not go on with -/

/-- The kinds of words. -/
def Kind.words : List Kind :=
  .ident :: reservedWords.map (·.2)

/-- A lexeme of this kind does not go on with the character. -/
def Kind.EndsBefore (k : Kind) (c : Char) : Prop :=
  (k ∈ words → isWordChar c = false) ∧ (k = .int → c.isDigit = false) ∧
    (k = .assign ∨ k = .bang → c ≠ '=')

/-- A word has the kind of an identifier or of a reserved word. -/
theorem Kind.ofWord_mem_words (word : String) : ofWord word ∈ words := by
  unfold ofWord
  cases h : reservedWords.lookup word with
  | none => exact List.mem_cons_self
  | some k =>
    obtain ⟨before, after, hsplit, -⟩ := List.lookup_eq_some_iff.1 h
    refine List.mem_cons_of_mem _ ?_
    rw [Option.getD_some, hsplit]
    simp

/-- Words go on with digits, so what they do not go on with is no digit. -/
theorem isDigit_eq_false_of_isWordChar {c : Char} (h : isWordChar c = false) :
    c.isDigit = false := by
  simp only [isWordChar, Char.isAlphanum, Bool.or_eq_false_iff] at h
  exact h.1.2

/-- No word starts with a digit. -/
theorem isDigit_eq_false_of_isWordStart {c : Char} (h : isWordStart c = true) :
    c.isDigit = false := by
  refine Bool.eq_false_iff.2 fun hdigit => ?_
  have hnine : c.toNat ≤ 57 := (Char.isDigit_iff_toNat.1 hdigit).2
  simp only [isWordStart, Bool.or_eq_true, decide_eq_true_eq] at h
  -- digits stand below all letters
  rcases h with hletter | rfl
  · rcases (Bool.or_eq_true c.isUpper c.isLower).mp hletter with hupper | hlower
    · have hbound : 65 ≤ c.toNat := UInt32.le_iff_toNat_le.1 (of_decide_eq_true hupper).1
      omega
    · have hbound : 97 ≤ c.toNat :=
        UInt32.le_iff_toNat_le.1 (of_decide_eq_true (Bool.and_eq_true_iff.1 hlower).1)
      omega
  · exact absurd hdigit (by decide)

/-- A word ends in front of every character that words do not go on with. -/
theorem Kind.endsBefore_of_mem_words {k : Kind} (hk : k ∈ words) {c : Char}
    (hc : isWordChar c = false) : k.EndsBefore c := by
  have table : ∀ k ∈ words, k ≠ .int ∧ k ≠ .assign ∧ k ≠ .bang := by decide
  obtain ⟨hint, hassign, hbang⟩ := table k hk
  exact ⟨fun _ => hc, fun h => absurd h hint, fun h => absurd h (not_or.2 ⟨hassign, hbang⟩)⟩

/-- An operator goes on with an equals sign at most. -/
theorem Kind.endsBefore_of_notMem_words {k : Kind} (hk : k ∉ words) (hint : k ≠ .int) {c : Char}
    (hc : c ≠ '=') : k.EndsBefore c :=
  ⟨fun h => absurd h hk, fun h => absurd h hint, fun _ => hc⟩

/-- The texts of the operators and delimiters, as characters. -/
theorem mem_operators_of_operatorOf? {text : List Char} {x : Lexeme}
    (h : operatorOf? text = some x) :
    (text, x.kind) ∈ Kind.operators.map fun p => (p.1.toList, p.2) := by
  obtain ⟨k, hk, rfl⟩ := Option.map_eq_some_iff.1 h
  obtain ⟨before, after, hsplit, -⟩ := List.lookup_eq_some_iff.1 hk
  rw [hsplit]
  simp

/-- The operators of two characters. -/
theorem eq_of_operatorOf?_pair {a b : Char} {x : Lexeme} (h : operatorOf? [a, b] = some x) :
    (a = '=' ∨ a = '!') ∧ b = '=' := by
  have hmem := mem_operators_of_operatorOf? h
  simp [Kind.operators] at hmem
  grind

/-- The operators and delimiters of one character. -/
def Kind.signs : List (Char × Kind) :=
  [('=', .assign), ('+', .plus), ('-', .minus), ('!', .bang), ('*', .asterisk), ('/', .slash),
   ('<', .less), ('>', .greater), (',', .comma), (';', .semicolon), ('(', .leftParen),
   (')', .rightParen), ('\x7b', .leftBrace), ('\x7d', .rightBrace)]

/-- A single character that is an operator stands in the list of signs. -/
theorem mem_signs_of_operatorOf? {a : Char} {x : Lexeme} (h : operatorOf? [a] = some x) :
    (a, x.kind) ∈ Kind.signs := by
  have hmem := mem_operators_of_operatorOf? h
  simpa [Kind.operators, Kind.signs] using hmem

/-- No operator starts with a character of a word or a number. -/
theorem isWordChar_eq_false_of_operatorOf? {a : Char} {x : Lexeme}
    (h : operatorOf? [a] = some x) : isWordChar a = false := by
  have table : ∀ p ∈ Kind.signs, isWordChar p.1 = false := by decide
  exact table _ (mem_signs_of_operatorOf? h)

/-- The first character of an operator of two is an operator by itself. -/
theorem operatorOf?_pair_eq_none {a : Char} (h : operatorOf? [a] = none) (b : Char) :
    operatorOf? [a, b] = none := by
  -- only `==` and `!=` have two characters, and `=` and `!` are signs
  cases hpair : operatorOf? [a, b] with
  | none => rfl
  | some x =>
    rcases eq_of_operatorOf?_pair hpair with ⟨rfl | rfl, -⟩
    · exact absurd h (by decide)
    · exact absurd h (by decide)

/-- Where a single character is no operator, no operator starts with it. -/
theorem operatorAt?_cons_eq_none_iff {a : Char} {text : List Char} :
    operatorAt? (a :: text) = none ↔ operatorOf? [a] = none := by
  cases text with
  | nil => exact Iff.rfl
  | cons b text =>
    rw [operatorAt?, Option.or_eq_none_iff]
    exact ⟨And.right, fun h => ⟨operatorOf?_pair_eq_none h b, h⟩⟩

/-- An operator is cut off the same in front of more text, unless it is an equals or exclamation
sign and an equals sign follows. -/
theorem operatorAt?_append {x : Lexeme} {rest : List Char} (h : operatorAt? x.text = some x)
    (hrest : ∀ c ∈ rest.head?, x.kind = .assign ∨ x.kind = .bang → c ≠ '=') :
    operatorAt? (x.text ++ rest) = some x := by
  obtain ⟨k, text⟩ := x
  -- of one character or of two
  match text, h with
  | [a], h =>
    cases rest with
    | nil => exact h
    | cons b rest =>
      have hsingle : operatorOf? [a] = some ⟨k, [a]⟩ := h
      -- a longer one would start with a sign that an equals sign makes longer
      have hpair : operatorOf? [a, b] = none := by
        refine Option.eq_none_iff_forall_ne_some.2 fun y hy => ?_
        obtain ⟨ha, hb⟩ := eq_of_operatorOf?_pair hy
        have hmem := mem_signs_of_operatorOf? hsingle
        refine hrest b rfl ?_ hb
        rcases ha with rfl | rfl
        · exact .inl (by simpa [Kind.signs] using hmem)
        · exact .inr (by simpa [Kind.signs] using hmem)
      show (operatorOf? [a, b]).or (operatorOf? [a]) = _
      rw [hpair, hsingle]
      rfl
  -- nothing is longer than two
  | a :: b :: text, h =>
    rcases Option.or_eq_some_iff.1 h with hpair | ⟨-, hsingle⟩
    · have hab : a :: b :: text = [a, b] := text_of_operatorOf? hpair
      rw [hab] at hpair ⊢
      show (operatorOf? [a, b]).or (operatorOf? [a]) = _
      rw [hpair]
      rfl
    · cases text_of_operatorOf? hsingle

/-- All of a text and nothing of what is behind it is of the class. -/
theorem takeWhile_append_eq {isMember : Char → Bool} {text rest : List Char}
    (htext : text.takeWhile isMember = text) (hrest : ∀ c ∈ rest.head?, isMember c = false) :
    (text ++ rest).takeWhile isMember = text := by
  rw [List.takeWhile_append, if_pos (congrArg List.length htext)]
  cases rest with
  | nil => simp
  | cons c rest => simp [hrest c rfl]

/-- A word, a number or an unknown character is cut off the same in front of a text that it does not
go on with. -/
theorem plainLexeme_append {a : Char} {text rest : List Char}
    (h : (plainLexeme a text).text = a :: text)
    (hrest : ∀ c ∈ rest.head?, (plainLexeme a text).kind.EndsBefore c) :
    plainLexeme a (text ++ rest) = plainLexeme a text := by
  unfold plainLexeme at h hrest ⊢
  -- a word and a number are runs, and every other character is a lexeme of its own
  by_cases hword : isWordStart a = true
  · simp only [if_pos hword] at h hrest ⊢
    have run := takeWhile_append_eq h fun c hc => (hrest c hc).1 (Kind.ofWord_mem_words _)
    rw [← List.cons_append, run, h]
  · simp only [if_neg hword] at h hrest ⊢
    by_cases hdigit : a.isDigit = true
    · simp only [if_pos hdigit] at h hrest ⊢
      have run := takeWhile_append_eq h fun c hc => (hrest c hc).2.1 rfl
      rw [← List.cons_append, run, h]
    · simp only [if_neg hdigit]

/-- The lexeme at the front of a text stays the same in front of a text that it does not go on
with. -/
theorem lexemeAt?_append {x : Lexeme} {rest : List Char} (h : lexemeAt? x.text = some x)
    (hrest : ∀ c ∈ rest.head?, x.kind.EndsBefore c) : lexemeAt? (x.text ++ rest) = some x := by
  obtain ⟨a, text, -, hx, -⟩ := exists_cons_of_lexemeAt? h
  rw [hx] at h
  simp only [lexemeAt?] at h
  rw [hx, List.cons_append, lexemeAt?]
  -- operators come first, and only where there is none the other lexemes
  cases hop : operatorAt? (a :: text) with
  | some y =>
    rw [hop, Option.getD_some, Option.some.injEq] at h
    subst h
    have hop' : operatorAt? (y.text ++ rest) = some y :=
      operatorAt?_append (hx ▸ hop) fun c hc => (hrest c hc).2.2
    rw [hx] at hop'
    rw [← List.cons_append, hop']
    rfl
  | none =>
    have hop' : operatorAt? (a :: (text ++ rest)) = none :=
      operatorAt?_cons_eq_none_iff.2 (operatorAt?_cons_eq_none_iff.1 hop)
    rw [hop, Option.getD_none, Option.some.injEq] at h
    rw [hop', Option.getD_none]
    subst h
    exact congrArg some (plainLexeme_append hx hrest)

/-- An operator at the front of a text is exactly its own text. -/
theorem operatorOf?_text {text : List Char} {x : Lexeme} (h : operatorAt? text = some x) :
    operatorOf? x.text = some x := by
  match text, h with
  | [a], h =>
    rw [text_of_operatorOf? h]
    exact h
  | a :: b :: text, h =>
    rcases Option.or_eq_some_iff.1 h with hpair | ⟨-, hsingle⟩
    · rw [text_of_operatorOf? hpair]
      exact hpair
    · rw [text_of_operatorOf? hsingle]
      exact hsingle

/-- Cut off from its own text, an operator is the same again. -/
theorem operatorAt?_text {text : List Char} {x : Lexeme} (h : operatorAt? text = some x) :
    operatorAt? x.text = some x := by
  match text, h with
  | [a], h =>
    rw [text_of_operatorOf? h]
    exact h
  | a :: b :: text, h =>
    rcases Option.or_eq_some_iff.1 h with hpair | ⟨-, hsingle⟩
    · rw [text_of_operatorOf? hpair, operatorAt?, hpair]
      rfl
    · rw [text_of_operatorOf? hsingle]
      exact hsingle

/-- Cut off from its own text, so is every other lexeme. -/
theorem plainLexeme_text {a : Char} {text tail : List Char}
    (h : (plainLexeme a text).text = a :: tail) : plainLexeme a tail = plainLexeme a text := by
  unfold plainLexeme at h ⊢
  by_cases hword : isWordStart a = true
  · -- cutting a run off a run changes nothing
    simp only [if_pos hword] at h ⊢
    rw [← h, List.takeWhile_idem]
  · simp only [if_neg hword] at h ⊢
    by_cases hdigit : a.isDigit = true
    · simp only [if_pos hdigit] at h ⊢
      rw [← h, List.takeWhile_idem]
    · simp only [if_neg hdigit]

/-- A lexeme that was cut off is the lexeme of its own text. -/
theorem lexemeAt?_text {text : List Char} {x : Lexeme} (h : lexemeAt? text = some x) :
    lexemeAt? x.text = some x := by
  obtain ⟨a, tail, rest, hx, htext⟩ := exists_cons_of_lexemeAt? h
  rw [hx, List.cons_append] at htext
  subst htext
  rw [lexemeAt?, Option.some.injEq] at h
  -- what was cut off is an operator of that text alone, or none starts it there either
  cases hop : operatorAt? (a :: (tail ++ rest)) with
  | some y =>
    rw [hop, Option.getD_some] at h
    subst h
    have hop' := operatorAt?_text hop
    rw [hx] at hop' ⊢
    rw [lexemeAt?, hop', Option.getD_some]
  | none =>
    have hop' : operatorAt? (a :: tail) = none :=
      operatorAt?_cons_eq_none_iff.2 (operatorAt?_cons_eq_none_iff.1 hop)
    rw [hop, Option.getD_none] at h
    subst h
    rw [hx, lexemeAt?, hop', Option.getD_none, plainLexeme_text hx]

/-- A lexeme of the language does not start with a space. -/
theorem isSpace_eq_false_of_lexemeAt? {c : Char} {text : List Char} {x : Lexeme}
    (h : lexemeAt? (c :: text) = some x) (known : x.kind ≠ .illegal) : isSpace c = false := by
  refine Bool.eq_false_iff.2 fun hspace => known ?_
  have hchars : c = ' ' ∨ c = '\t' ∨ c = '\n' ∨ c = '\r' := by
    simpa [isSpace, or_assoc] using hspace
  -- each of them would be cut off as a lexeme that is not of the language
  have hnone : operatorOf? [c] = none ∧ isWordStart c = false ∧ c.isDigit = false := by
    rcases hchars with rfl | rfl | rfl | rfl <;> decide
  obtain ⟨hop, hword, hdigit⟩ := hnone
  rw [lexemeAt?, operatorAt?_cons_eq_none_iff.2 hop, Option.getD_none, Option.some.injEq] at h
  rw [← h, plainLexeme, hword, hdigit]
  rfl

/-- Words and numbers are made of the characters that words go on with. -/
theorem isWordChar_of_lexemeAt? {text : List Char} {x : Lexeme} (h : lexemeAt? text = some x)
    (hk : x.kind = .int ∨ x.kind ∈ Kind.words) : ∀ c ∈ x.text, isWordChar c = true := by
  have table : ∀ p ∈ Kind.operators.map fun p => (p.1.toList, p.2),
      ¬(p.2 = .int ∨ p.2 ∈ Kind.words) := by decide
  match text, h with
  | a :: text, h =>
    rw [lexemeAt?, Option.some.injEq] at h
    -- no operator is of such a kind
    cases hop : operatorAt? (a :: text) with
    | some y =>
      rw [hop, Option.getD_some] at h
      subst h
      exact absurd hk (table _ (mem_operators_of_operatorOf? (operatorOf?_text hop)))
    | none =>
      rw [hop, Option.getD_none] at h
      subst h
      intro c hc
      unfold plainLexeme at hc hk
      by_cases hword : isWordStart a = true
      · rw [if_pos hword] at hc
        exact List.mem_takeWhile_imp hc
      · simp only [if_neg hword] at hc hk
        by_cases hdigit : a.isDigit = true
        · rw [if_pos hdigit] at hc
          have hdigits := List.mem_takeWhile_imp hc
          simp [isWordChar, Char.isAlphanum, hdigits]
        · rw [if_neg hdigit] at hk
          exact absurd hk (by decide : ¬(Kind.illegal = .int ∨ Kind.illegal ∈ Kind.words))

/-! ## Texts made of lexemes -/

/-- The text falls into the lexemes, which are all of the language. There may be spaces before each
of them and behind the last. -/
inductive Lexes : List Char → List Lexeme → Prop where
  | empty : Lexes [] []
  | space {c : Char} {text : List Char} {xs : List Lexeme} (blank : isSpace c = true)
      (later : Lexes text xs) : Lexes (c :: text) xs
  | lexeme {x : Lexeme} {text : List Char} {xs : List Lexeme}
      (first : lexemeAt? (x.text ++ text) = some x) (known : x.kind ≠ .illegal)
      (later : Lexes text xs) : Lexes (x.text ++ text) (x :: xs)

/-- The text falls into the lexemes as a part of a larger text, where the character behind it is
one of which `free` holds, if there is one. -/
def Spells (text : List Char) (xs : List Lexeme) (free : Char → Prop) : Prop :=
  ∀ (rest : List Char) (ys : List Lexeme), (∀ c ∈ rest.head?, free c) → Lexes rest ys →
    Lexes (text ++ rest) (xs ++ ys)

namespace Spells

variable {text text' : List Char} {xs ys : List Lexeme} {free free' : Char → Prop}

/-- No text spells no lexeme. -/
theorem nil : Spells [] [] free :=
  fun _ _ _ h => h

/-- The text of one lexeme spells it in front of what it does not go on with. -/
theorem lexeme {x : Lexeme} (h : lexemeAt? x.text = some x) (known : x.kind ≠ .illegal) :
    Spells x.text [x] x.kind.EndsBefore :=
  fun _ _ hfree later => .lexeme (lexemeAt?_append h hfree) known later

/-- A space may stand in front. -/
theorem space (h : Spells text xs free) : Spells (' ' :: text) xs free :=
  fun rest ys hfree later => .space rfl (h rest ys hfree later)

/-- A part that fits in front of some characters fits in front of fewer. -/
theorem mono (h : Spells text xs free) (himp : ∀ c, free' c → free c) : Spells text xs free' :=
  fun rest ys hfree later => h rest ys (fun c hc => himp c (hfree c hc)) later

/-- Two parts, of which the second starts with a character that the first does not go on with. -/
theorem append (h : Spells text xs free) (h' : Spells text' ys free')
    (hstart : ∃ c tail, text' = c :: tail ∧ free c) : Spells (text ++ text') (xs ++ ys) free' := by
  intro rest zs hfree later
  obtain ⟨c, tail, rfl, hc⟩ := hstart
  rw [List.append_assoc, List.append_assoc]
  -- the second part is what stands behind the first one
  refine h _ _ (fun d hd => ?_) (h' rest zs hfree later)
  cases hd
  exact hc

end Spells

/-! ## Tokens -/

/-- What a token is made from. -/
def Token.lexeme (t : Token) : Lexeme :=
  ⟨t.kind, t.literal.toList⟩

/-- The token has the kind that its text makes. -/
def Token.Lexical (t : Token) : Prop :=
  lexemeAt? t.literal.toList = some t.lexeme

namespace Cursor

/-- The token of a lexeme gives the lexeme back. -/
theorem lexeme_token (c : Cursor) (x : Lexeme) : (c.token x).lexeme = x := by
  simp [Token.lexeme, token]

/-- Every token that is read, other than the end of the input, has the kind that its text makes. -/
theorem lexical_scan {c : Cursor} (h : c.scan.1.kind ≠ .eof) : c.scan.1.Lexical := by
  unfold scan at h ⊢
  dsimp only at h ⊢
  -- where no lexeme stands the token is the end of the input
  cases hx : lexemeAt? c.skipSpace.rest with
  | none =>
    rw [hx] at h
    exact absurd rfl h
  | some x =>
    show lexemeAt? (c.skipSpace.token x).literal.toList = some (c.skipSpace.token x).lexeme
    rw [lexeme_token]
    simpa [token] using lexemeAt?_text hx

/-- The tokens that are read from a text have the kinds that their texts make. -/
theorem lexical_of_reads {c : Cursor} {ts : List Token} {w : Window Cursor}
    (h : (Window.filled c).Reads ts w) (hts : ∀ t ∈ ts, t.kind ≠ .eof) :
    ∀ t ∈ ts, t.Lexical := by
  -- on the tokens, with the cursor moving past each of them
  induction ts generalizing c with
  | nil => exact List.forall_mem_nil _
  | cons t ts ih =>
    obtain ⟨rfl, hrest⟩ := h
    obtain ⟨ht, hts⟩ := List.forall_mem_cons.1 hts
    rw [Window.advance_filled] at hrest
    exact List.forall_mem_cons.2 ⟨lexical_scan ht, ih hrest hts⟩

/-- Skipping the space from behind its first character ends at the same place. -/
theorem skipSpace_step {c : Cursor} {char : Char} {text : List Char} (h : c.rest = char :: text)
    (hspace : isSpace char = true) : (c.step char).skipSpace = c.skipSpace := by
  have hstep := rest_step h
  simp only [skipSpace, readWhile, h, hstep, List.takeWhile_cons, hspace, if_true, past_cons]

/-- Where no space stands there is nothing to skip. -/
theorem skipSpace_of_first {c : Cursor} {char : Char} {text : List Char}
    (h : c.rest = char :: text) (hspace : isSpace char = false) : c.skipSpace = c := by
  simp [skipSpace, readWhile, h, hspace]

/-- Where a lexeme of the language stands, its token is read and the cursor goes past it. -/
theorem scan_of_lexeme {c : Cursor} {x : Lexeme} {text : List Char} (h : c.rest = x.text ++ text)
    (first : lexemeAt? (x.text ++ text) = some x) (known : x.kind ≠ .illegal) :
    c.scan = (c.token x, c.past x.text) := by
  obtain ⟨char, tail, -, hx, -⟩ := exists_cons_of_lexemeAt? first
  have htext : x.text ++ text = char :: (tail ++ text) := by rw [hx, List.cons_append]
  -- there is no space to skip, since no lexeme starts with one
  have hskip : c.skipSpace = c := by
    rw [htext] at h first
    exact skipSpace_of_first h (isSpace_eq_false_of_lexemeAt? first known)
  simp only [scan, hskip, h, first]

/-- At the end of the text the token that is read is the end of the input. -/
theorem kind_scan_of_rest_eq_nil {c : Cursor} (h : c.rest = []) : c.scan.1.kind = .eof := by
  have hskip : c.skipSpace.rest = [] := by rw [rest_skipSpace, h, List.dropWhile_nil]
  simp only [scan, hskip, lexemeAt?_nil]

/-- From a text that falls into lexemes, tokens with these lexemes are read, and then the end of the
input. -/
theorem exists_reads_of_lexes {text : List Char} {xs : List Lexeme} (h : Lexes text xs)
    {c : Cursor} (hc : c.rest = text) :
    ∃ ts w, (Window.filled c).Reads ts w ∧ w.current.kind = .eof ∧
      ts.map Token.lexeme = xs := by
  -- on how the text falls into lexemes, with the cursor at its front
  induction h generalizing c with
  | empty =>
    exact ⟨[], _, rfl, kind_scan_of_rest_eq_nil hc, rfl⟩
  | @space char text xs blank _ ih =>
    -- a space is skipped anyway, so the cursor behind it gives the same token
    have hscan : c.scan = (c.step char).scan := by
      unfold scan
      rw [skipSpace_step hc blank]
    have hfilled : Window.filled c = Window.filled (c.step char) := by
      have hnext : TokenSource.next c = TokenSource.next (c.step char) := hscan
      simp only [Window.filled, Window.advance, hnext]
    rw [hfilled]
    exact ih (rest_step hc)
  | @lexeme x text xs first known _ ih =>
    have hscan : TokenSource.next c = (c.token x, c.past x.text) := scan_of_lexeme hc first known
    obtain ⟨ts, w, hts, hw, hxs⟩ := ih (rest_past hc)
    refine ⟨c.token x :: ts, w, ⟨?_, ?_⟩, hw, ?_⟩
    · rw [Window.current_filled, hscan]
    · rw [Window.advance_filled, hscan]
      exact hts
    · rw [List.map_cons, lexeme_token, hxs]

end Cursor

end Pratt
