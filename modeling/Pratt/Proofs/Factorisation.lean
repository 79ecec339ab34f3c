import Mathlib.Data.List.DropRight
import Pratt.Proofs.Totality

/-!
# Pratt — the one way a source falls into tokens

A source is white space and lexemes in turn. Which stretches of it are lexemes is said here without
the lexer, by what stands behind each of them: a word or a number goes on as long as it can, and an
equals or exclamation sign is a lexeme by itself only where no equals sign follows
(`Lexeme.Maximal`). `Factors before text ts` says that the text, with `before` in front of it in the
source, falls into the lexemes of the tokens `ts`, and that each token has the location of its
lexeme. A location is a count of the line feeds in front and of the characters behind the last of
them (`Location.behind`).

* `Lexeme.lexemeAt?_append_of_maximal`, `Lexeme.exists_maximal`: the lexer cuts off exactly the
  maximal lexemes.
* `exists_factors`, `Cursor.scanAll_of_factors`: every text falls into tokens, and those are what is
  read from it.
* `tokenize_factors`: there is one factorisation of a source, and it is what `tokenize` gives, with
  the end of the input behind it, which is read again and again.
-/

namespace Pratt

/-! ## Locations by counting -/

/-- The location right behind a text that starts a source. -/
def Location.behind (text : List Char) : Location :=
  ⟨1 + text.count '\n', 1 + (text.rtakeWhile (· ≠ '\n')).length⟩

namespace Location

/-- Reading a text counts its line feeds. Behind one of them the columns start again, and what
counts then are the characters behind the last one. -/
theorem past_eq_count (l : Location) (text : List Char) :
    l.past text = ⟨l.line + text.count '\n',
      if '\n' ∈ text then 1 + (text.rtakeWhile (· ≠ '\n')).length
      else l.column + text.length⟩ := by
  -- on the last character, since that is the one that decides about the column
  induction text using List.reverseRecOn with
  | nil => simp
  | append_singleton text c ih =>
    rw [past_append, ih, past_cons, past_nil, after]
    by_cases feed : c = '\n'
    · subst feed
      have hmem : '\n' ∈ text ++ ['\n'] := List.mem_append_right _ List.mem_cons_self
      have hrun : (text ++ ['\n']).rtakeWhile (· ≠ '\n') = [] :=
        List.rtakeWhile_concat_neg _ _ _ (by decide)
      rw [if_pos rfl, if_pos hmem, hrun]
      simp [Int.add_assoc]
    · have hmem : '\n' ∈ text ++ [c] ↔ '\n' ∈ text := by simp [Ne.symm feed]
      have hrun : (text ++ [c]).rtakeWhile (· ≠ '\n') = text.rtakeWhile (· ≠ '\n') ++ [c] :=
        List.rtakeWhile_concat_pos _ _ _ (decide_eq_true feed)
      rw [if_neg feed, hrun]
      simp only [hmem]
      -- the column is one more, whichever of the two it is counted from
      split <;> simp [feed, Int.add_assoc]

/-- A text without a line feed is one line. -/
theorem lastLine_of_notMem {text : List Char} (feed : '\n' ∉ text) :
    text.rtakeWhile (· ≠ '\n') = text := by
  rw [List.rtakeWhile_eq_self_iff]
  intro c hc
  exact decide_eq_true fun hfeed => feed (hfeed ▸ hc)

/-- From the start of a source these are the line feeds and the characters of all that was read. -/
theorem past_start (text : List Char) : start.past text = behind text := by
  rw [past_eq_count, behind]
  by_cases feed : '\n' ∈ text
  · rw [if_pos feed]
    rfl
  · rw [if_neg feed, lastLine_of_notMem feed]
    rfl

/-- Reading on from behind a text leads behind both texts. -/
theorem past_behind (before text : List Char) :
    (behind before).past text = behind (before ++ text) := by
  rw [← past_start, ← past_start, past_append]

end Location

/-! ## Lexemes by what stands behind them -/

/-- An ASCII letter or an underscore. -/
def WordStart (c : Char) : Prop :=
  'A' ≤ c ∧ c ≤ 'Z' ∨ 'a' ≤ c ∧ c ≤ 'z' ∨ c = '_'

/-- An ASCII digit. -/
def Digit (c : Char) : Prop :=
  '0' ≤ c ∧ c ≤ '9'

/-- A blank, a tab, a line feed or a carriage return. -/
def Space (c : Char) : Prop :=
  c = ' ' ∨ c = '\t' ∨ c = '\n' ∨ c = '\r'

instance : DecidablePred WordStart :=
  fun c => inferInstanceAs (Decidable ('A' ≤ c ∧ c ≤ 'Z' ∨ 'a' ≤ c ∧ c ≤ 'z' ∨ c = '_'))

instance : DecidablePred Digit :=
  fun c => inferInstanceAs (Decidable ('0' ≤ c ∧ c ≤ '9'))

instance : DecidablePred Space :=
  fun c => inferInstanceAs (Decidable (c = ' ' ∨ c = '\t' ∨ c = '\n' ∨ c = '\r'))

/-- The lexer starts a word at exactly these characters. -/
theorem isWordStart_iff {c : Char} : isWordStart c = true ↔ WordStart c := by
  have hupper : c.isUpper = true ↔ 'A' ≤ c ∧ c ≤ 'Z' := decide_eq_true_iff
  have hlower : c.isLower = true ↔ 'a' ≤ c ∧ c ≤ 'z' :=
    Bool.and_eq_true_iff.trans (and_congr decide_eq_true_iff decide_eq_true_iff)
  have hletter : c.isAlpha = true ↔ c.isUpper = true ∨ c.isLower = true := Bool.or_eq_true_iff
  rw [isWordStart, Bool.or_eq_true_iff, hletter, hupper, hlower, decide_eq_true_iff, or_assoc,
    WordStart]

/-- The digits of the lexer are the ASCII digits. -/
theorem isDigit_iff {c : Char} : c.isDigit = true ↔ Digit c := by
  simp [Char.isDigit, Digit, Char.le_def]

/-- The white space that the lexer skips is these four characters. -/
theorem isSpace_iff {c : Char} : isSpace c = true ↔ Space c := by
  simp [isSpace, Space, or_assoc]

/-- The white space at the front of a text is what stands in front of the first other character. -/
theorem takeWhile_isSpace {gap rest : List Char} (blank : ∀ c ∈ gap, Space c)
    (hrest : ∀ c ∈ rest.head?, ¬Space c) : (gap ++ rest).takeWhile isSpace = gap := by
  have hgap : gap.takeWhile isSpace = gap := by
    rw [List.takeWhile_eq_self_iff]
    intro c hc
    exact isSpace_iff.2 (blank c hc)
  refine takeWhile_append_eq hgap ?_
  intro c hc
  rw [Bool.eq_false_iff, ne_eq, isSpace_iff]
  exact hrest c hc

/-- A word goes on with letters, underscores and digits. -/
theorem isWordChar_iff {c : Char} : isWordChar c = true ↔ WordStart c ∨ Digit c := by
  rw [← isWordStart_iff, ← isDigit_iff]
  simp only [isWordChar, isWordStart, Char.isAlphanum, Bool.or_eq_true]
  tauto

/-- The lexeme is as long as it can be in front of the rest. -/
inductive Lexeme.Maximal : Lexeme → (rest : List Char) → Prop where
  | equal {rest : List Char} : Maximal ⟨.equal, ['=', '=']⟩ rest
  | notEqual {rest : List Char} : Maximal ⟨.notEqual, ['!', '=']⟩ rest
  | sign {k : Kind} {a : Char} {rest : List Char} (listed : (String.ofList [a], k) ∈ Kind.operators)
      (alone : a = '=' ∨ a = '!' → rest.head? ≠ some '=') : Maximal ⟨k, [a]⟩ rest
  | word {a : Char} {tail rest : List Char} (first : WordStart a)
      (more : ∀ c ∈ tail, WordStart c ∨ Digit c)
      (whole : ∀ c ∈ rest.head?, ¬(WordStart c ∨ Digit c)) :
      Maximal ⟨Kind.ofWord (String.ofList (a :: tail)), a :: tail⟩ rest
  | number {text rest : List Char} (nonempty : text ≠ []) (digits : ∀ c ∈ text, Digit c)
      (whole : ∀ c ∈ rest.head?, ¬Digit c) : Maximal ⟨.int, text⟩ rest
  | other {a : Char} {rest : List Char} (unlisted : ∀ k, (String.ofList [a], k) ∉ Kind.operators)
      (noWord : ¬WordStart a) (noDigit : ¬Digit a) (noSpace : ¬Space a) :
      Maximal ⟨.illegal, [a]⟩ rest

namespace Lexeme

variable {x : Lexeme} {rest : List Char}

/-! ### The lexer cuts off maximal lexemes -/

/-- A listed text is an operator of the listed kind. -/
theorem operatorOf?_eq_some_of_listed {k : Kind} {text : List Char}
    (listed : (String.ofList text, k) ∈ Kind.operators) : operatorOf? text = some ⟨k, text⟩ := by
  have table : ∀ p ∈ Kind.operators, Kind.ofOperator? p.1 = some p.2 := by decide
  rw [operatorOf?, table _ listed]
  rfl

/-- Every operator is listed. -/
theorem listed_of_operatorOf? {text : List Char} (h : operatorOf? text = some x) :
    (String.ofList text, x.kind) ∈ Kind.operators := by
  obtain ⟨k, hk, rfl⟩ := Option.map_eq_some_iff.1 h
  obtain ⟨before, after, hsplit, -⟩ := List.lookup_eq_some_iff.1 hk
  rw [hsplit]
  simp

/-- No operator starts with a character of a word. -/
theorem operatorAt?_eq_none_of_wordChar {a : Char} (h : WordStart a ∨ Digit a) (text : List Char) :
    operatorAt? (a :: text) = none := by
  rw [operatorAt?_cons_eq_none_iff]
  cases hop : operatorOf? [a] with
  | none => rfl
  | some x =>
    have hchar := isWordChar_eq_false_of_operatorOf? hop
    rw [isWordChar_iff.2 h] at hchar
    cases hchar

/-- A maximal lexeme is the lexeme of its own text. -/
theorem lexemeAt?_text_of_maximal (h : x.Maximal rest) : lexemeAt? x.text = some x := by
  cases h with
  | equal => decide
  | notEqual => decide
  | @sign k a _ listed _ =>
    show some ((operatorOf? [a]).getD (plainLexeme a [])) = _
    rw [operatorOf?_eq_some_of_listed listed]
    rfl
  | @word a tail _ first more _ =>
    -- the whole word is the run at its front
    have run : (a :: tail).takeWhile isWordChar = a :: tail := by
      rw [List.takeWhile_eq_self_iff]
      intro c hc
      rw [isWordChar_iff]
      rcases List.mem_cons.1 hc with rfl | hc
      · exact .inl first
      · exact more c hc
    rw [lexemeAt?, operatorAt?_eq_none_of_wordChar (.inl first), Option.getD_none, plainLexeme,
      if_pos (isWordStart_iff.2 first), run]
  | @number text _ nonempty digits _ =>
    refine lexemeAt?_of_isNumeral (Numeral.isNumeral_iff.2 ⟨nonempty, ?_⟩)
    intro c hc
    exact isDigit_iff.2 (digits c hc)
  | @other a _ unlisted noWord noDigit _ =>
    have hop : operatorOf? [a] = none := by
      cases hop : operatorOf? [a] with
      | none => rfl
      | some x => exact absurd (listed_of_operatorOf? hop) (unlisted _)
    rw [lexemeAt?, operatorAt?_cons_eq_none_iff.2 hop, Option.getD_none, plainLexeme,
      if_neg (mt isWordStart_iff.1 noWord), if_neg (mt isDigit_iff.1 noDigit)]

/-- A maximal lexeme does not go on with what is behind it. -/
theorem endsBefore_of_maximal (h : x.Maximal rest) {c : Char} (hc : c ∈ rest.head?) :
    x.kind.EndsBefore c := by
  cases h with
  | equal => exact ⟨fun h => absurd h (by decide), nofun, nofun⟩
  | notEqual => exact ⟨fun h => absurd h (by decide), nofun, nofun⟩
  | @sign k a _ listed alone =>
    have table : ∀ p ∈ Kind.operators, p.2 ∉ Kind.words ∧ p.2 ≠ .int := by decide
    have signs : ∀ p ∈ Kind.signs, p.2 = .assign ∨ p.2 = .bang → p.1 = '=' ∨ p.1 = '!' := by decide
    obtain ⟨noWord, noNumber⟩ := table _ listed
    refine ⟨fun h => absurd h noWord, fun h => absurd h noNumber, fun hk heq => ?_⟩
    -- only an equals or exclamation sign could go on, and such a one stands alone
    have hsign := signs _ (mem_signs_of_operatorOf? (operatorOf?_eq_some_of_listed listed)) hk
    subst heq
    exact alone hsign hc
  | @word a tail _ _ _ whole =>
    refine Kind.endsBefore_of_mem_words (Kind.ofWord_mem_words _) ?_
    rw [Bool.eq_false_iff, ne_eq, isWordChar_iff]
    exact whole c hc
  | number _ _ whole =>
    refine ⟨fun h => absurd h (by decide : Kind.int ∉ Kind.words), fun _ => ?_, nofun⟩
    rw [Bool.eq_false_iff, ne_eq, isDigit_iff]
    exact whole c hc
  | other _ _ _ _ =>
    exact ⟨fun h => absurd h (by decide : Kind.illegal ∉ Kind.words), nofun, nofun⟩

/-- In front of what it is maximal before, a lexeme is what the lexer cuts off. -/
theorem lexemeAt?_append_of_maximal (h : x.Maximal rest) : lexemeAt? (x.text ++ rest) = some x :=
  lexemeAt?_append (lexemeAt?_text_of_maximal h) fun _ hc => endsBefore_of_maximal h hc

/-- There is no space in a maximal lexeme. -/
theorem not_space_of_maximal (h : x.Maximal rest) : ∀ c ∈ x.text, ¬Space c := by
  -- no space is a character of a word or a sign
  have spaceless : ∀ c, WordStart c ∨ Digit c → ¬Space c := by
    intro c hc hspace
    have hchar := isWordChar_iff.2 hc
    rcases hspace with rfl | rfl | rfl | rfl <;> exact absurd hchar (by decide)
  cases h with
  | equal => simp [Space]
  | notEqual => simp [Space]
  | @sign k a _ listed _ =>
    have signs : ∀ p ∈ Kind.signs, ¬Space p.1 := by decide
    intro c hc
    obtain rfl := List.mem_singleton.1 hc
    exact signs _ (mem_signs_of_operatorOf? (operatorOf?_eq_some_of_listed listed))
  | @word a tail _ first more _ =>
    intro c hc
    rcases List.mem_cons.1 hc with rfl | hc
    · exact spaceless c (.inl first)
    · exact spaceless c (more c hc)
  | number _ digits _ =>
    intro c hc
    exact spaceless c (.inr (digits c hc))
  | other _ _ _ noSpace =>
    intro c hc
    obtain rfl := List.mem_singleton.1 hc
    exact noSpace

/-- A maximal lexeme has a first character, which is no space. -/
theorem exists_cons_of_maximal (h : x.Maximal rest) : ∃ a tail, x.text = a :: tail ∧ ¬Space a := by
  obtain ⟨a, tail, hx⟩ :=
    List.exists_cons_of_ne_nil (text_ne_nil_of_lexemeAt? (lexemeAt?_text_of_maximal h))
  exact ⟨a, tail, hx, not_space_of_maximal h a (hx ▸ List.mem_cons_self)⟩

/-- What is behind a run is not of its class. -/
theorem eq_false_of_mem_head?_dropWhile {p : Char → Bool} {text : List Char} :
    ∀ c ∈ (text.dropWhile p).head?, p c = false := by
  intro c hc
  have hne := List.head?_dropWhile_not p text
  rw [hc] at hne
  simpa using hne

/-- Where no operator and no space stands, the word, number or unknown character that is cut off is
maximal. -/
theorem maximal_plainLexeme {a : Char} (text : List Char) (hop : operatorOf? [a] = none)
    (hspace : ¬Space a) :
    ∃ rest, a :: text = (plainLexeme a text).text ++ rest ∧ (plainLexeme a text).Maximal rest := by
  unfold plainLexeme
  by_cases hword : isWordStart a = true
  · rw [if_pos hword]
    -- a word is the whole run, so what is behind it starts with another character
    refine ⟨(a :: text).dropWhile isWordChar, List.takeWhile_append_dropWhile.symm, ?_⟩
    rw [List.takeWhile_cons_of_pos (isWordChar_of_isWordStart hword)]
    refine .word (isWordStart_iff.1 hword) ?_ ?_
    · intro c hc
      exact isWordChar_iff.1 (List.mem_takeWhile_imp hc)
    · intro c hc
      rw [← isWordChar_iff, eq_false_of_mem_head?_dropWhile c hc]
      exact Bool.false_ne_true
  · rw [if_neg hword]
    by_cases hdigit : a.isDigit = true
    · rw [if_pos hdigit]
      -- and so is a number
      refine ⟨(a :: text).dropWhile Char.isDigit, List.takeWhile_append_dropWhile.symm, ?_⟩
      refine .number ?_ ?_ ?_
      · rw [List.takeWhile_cons_of_pos hdigit]
        exact List.cons_ne_nil _ _
      · intro c hc
        exact isDigit_iff.1 (List.mem_takeWhile_imp hc)
      · intro c hc
        rw [← isDigit_iff, eq_false_of_mem_head?_dropWhile c hc]
        exact Bool.false_ne_true
    · rw [if_neg hdigit]
      refine ⟨text, rfl, .other ?_ (mt isWordStart_iff.2 hword) (mt isDigit_iff.2 hdigit) hspace⟩
      intro k listed
      rw [operatorOf?_eq_some_of_listed listed] at hop
      cases hop

/-- A sign is maximal unless it is an equals or exclamation sign with an equals sign behind it. -/
theorem maximal_of_operatorOf?_single {a : Char} (h : operatorOf? [a] = some x)
    (alone : a = '=' ∨ a = '!' → rest.head? ≠ some '=') : x.Maximal rest := by
  have listed := listed_of_operatorOf? h
  obtain ⟨k, text⟩ := x
  obtain rfl : text = [a] := text_of_operatorOf? h
  exact .sign listed alone

/-- Where no space stands there is a maximal lexeme. -/
theorem exists_maximal {a : Char} (text : List Char) (hspace : ¬Space a) :
    ∃ (x : Lexeme) (rest : List Char), a :: text = x.text ++ rest ∧ x.Maximal rest := by
  cases hop : operatorOf? [a] with
  | none =>
    obtain ⟨rest, htext, hmax⟩ := maximal_plainLexeme text hop hspace
    exact ⟨_, rest, htext, hmax⟩
  | some x =>
    have hx : x.text = [a] := text_of_operatorOf? hop
    by_cases hpair : (a = '=' ∨ a = '!') ∧ text.head? = some '='
    -- a sign with an equals sign behind it is one lexeme with it
    · obtain ⟨hsign, hhead⟩ := hpair
      obtain ⟨rest, rfl⟩ := List.head?_eq_some_iff.1 hhead
      rcases hsign with rfl | rfl
      · exact ⟨_, rest, rfl, .equal⟩
      · exact ⟨_, rest, rfl, .notEqual⟩
    · refine ⟨x, text, by rw [hx]; rfl, maximal_of_operatorOf?_single hop ?_⟩
      intro hsign hhead
      exact hpair ⟨hsign, hhead⟩

end Lexeme

/-! ## Texts that fall into tokens -/

/-- The text, behind `before` in its source, is white space and maximal lexemes in turn, and the
tokens are those of the lexemes, each at the place where it stands. -/
inductive Factors : (before text : List Char) → List Token → Prop where
  | space {before gap : List Char} (blank : ∀ c ∈ gap, Space c) : Factors before gap []
  | lexeme {before gap rest : List Char} {x : Lexeme} {ts : List Token}
      (blank : ∀ c ∈ gap, Space c) (longest : x.Maximal rest)
      (later : Factors (before ++ gap ++ x.text) rest ts) :
      Factors before (gap ++ (x.text ++ rest))
        (⟨x.kind, String.ofList x.text, .behind (before ++ gap)⟩ :: ts)

/-- Every text falls into tokens. -/
theorem exists_factors (before text : List Char) : ∃ ts, Factors before text ts := by
  -- on the length, which a lexeme with the space in front of it shortens
  induction hlength : text.length using Nat.strongRecOn generalizing before text with
  | ind n ih =>
    have blank : ∀ c ∈ text.takeWhile isSpace, Space c := by
      intro c hc
      exact isSpace_iff.1 (List.mem_takeWhile_imp hc)
    have hsplit : text.takeWhile isSpace ++ text.dropWhile isSpace = text :=
      List.takeWhile_append_dropWhile
    cases hrest : text.dropWhile isSpace with
    | nil =>
      rw [hrest, List.append_nil] at hsplit
      rw [hsplit] at blank
      exact ⟨[], .space blank⟩
    | cons a tail =>
      have hspace : ¬Space a := by
        have ha : isSpace a = false :=
          Lexeme.eq_false_of_mem_head?_dropWhile a (by rw [hrest]; rfl)
        rw [← isSpace_iff, ha]
        exact Bool.false_ne_true
      obtain ⟨x, rest, htext, longest⟩ := Lexeme.exists_maximal tail hspace
      rw [hrest, htext] at hsplit
      obtain ⟨b, more, hx, -⟩ := Lexeme.exists_cons_of_maximal longest
      have hshorter : rest.length < n := by
        rw [← hlength, ← hsplit, List.length_append, List.length_append, hx, List.length_cons]
        omega
      obtain ⟨ts, later⟩ :=
        ih rest.length hshorter (before ++ text.takeWhile isSpace ++ x.text) rest rfl
      rw [← hsplit]
      exact ⟨_, .lexeme blank longest later⟩

/-- None of the tokens of a text is the end of the input. -/
theorem Factors.ne_eof {before text : List Char} {ts : List Token} (h : Factors before text ts) :
    ∀ t ∈ ts, t.kind ≠ .eof := by
  induction h with
  | space _ => exact List.forall_mem_nil _
  | lexeme _ longest _ ih =>
    exact List.forall_mem_cons.2
      ⟨kind_ne_eof_of_lexemeAt? (Lexeme.lexemeAt?_append_of_maximal longest), ih⟩

/-! ## Reading them -/

namespace Cursor

/-- The cursor between two parts of a source. -/
def between (before text : List Char) : Cursor :=
  ⟨before ++ text, before.length, .behind before⟩

/-- What is left to read between two parts is the second one. -/
theorem rest_between (before text : List Char) : (between before text).rest = text := by
  rw [rest_of_nonneg (Int.natCast_nonneg _)]
  exact List.drop_left' rfl

/-- Going past a text moves it from the second part to the first. -/
theorem past_between (before text rest : List Char) :
    (between before (text ++ rest)).past text = between (before ++ text) rest := by
  rw [past_eq, between, between, Location.past_behind, List.append_assoc, List.length_append,
    Int.natCast_add]

/-- Skipping the space moves it from the second part to the first, where no more space follows. -/
theorem skipSpace_between {before gap rest : List Char} (blank : ∀ c ∈ gap, Space c)
    (hrest : ∀ c ∈ rest.head?, ¬Space c) :
    (between before (gap ++ rest)).skipSpace = between (before ++ gap) rest := by
  rw [skipSpace, readWhile, rest_between, takeWhile_isSpace blank hrest, past_between]

/-- Where only white space is left, the end of the input is read, behind all of it. -/
theorem scan_between_space (before : List Char) {gap : List Char} (blank : ∀ c ∈ gap, Space c) :
    (between before gap).scan =
      (⟨.eof, "", .behind (before ++ gap)⟩, between (before ++ gap) []) := by
  have hskip : (between before (gap ++ [])).skipSpace = between (before ++ gap) [] :=
    skipSpace_between blank nofun
  rw [List.append_nil] at hskip
  unfold scan
  dsimp only
  rw [hskip, rest_between]
  rfl

/-- Where a maximal lexeme stands behind white space, its token is read, with the place where the
lexeme starts. -/
theorem scan_between_lexeme {before gap rest : List Char} {x : Lexeme}
    (blank : ∀ c ∈ gap, Space c) (longest : x.Maximal rest) :
    (between before (gap ++ (x.text ++ rest))).scan =
      (⟨x.kind, String.ofList x.text, .behind (before ++ gap)⟩,
        between (before ++ gap ++ x.text) rest) := by
  obtain ⟨a, tail, hx, hspace⟩ := Lexeme.exists_cons_of_maximal longest
  -- the space ends at the first character of the lexeme
  have hskip : (between before (gap ++ (x.text ++ rest))).skipSpace =
      between (before ++ gap) (x.text ++ rest) := by
    refine skipSpace_between blank ?_
    intro c hc
    rw [hx] at hc
    cases hc
    exact hspace
  unfold scan
  dsimp only
  rw [hskip, rest_between, Lexeme.lexemeAt?_append_of_maximal longest]
  exact congrArg (Prod.mk _) (past_between _ _ _)

/-- The tokens that a text falls into are those read from it, and then its end is reached. -/
theorem scanAll_of_factors {before text : List Char} {ts : List Token}
    (h : Factors before text ts) :
    (between before text).scanAll =
      (ts ++ [⟨.eof, "", .behind (before ++ text)⟩], between (before ++ text) []) := by
  -- on the factorisation, reading one token for each of its lexemes
  induction h with
  | @space before gap blank =>
    rw [scanAll, scan_between_space before blank]
    rfl
  | @lexeme before gap rest x ts blank longest later ih =>
    have hne : x.kind ≠ .eof :=
      kind_ne_eof_of_lexemeAt? (Lexeme.lexemeAt?_append_of_maximal longest)
    rw [scanAll, scan_between_lexeme blank longest]
    rw [dif_neg hne, ih]
    simp only [List.append_assoc, List.cons_append]

end Cursor

/-- There is exactly one way for a source to fall into white space and maximal lexemes. `tokenize`
gives the tokens of the lexemes, none of which is the end of the input, and the end of the input
behind them, at the end of the source. Reading on from there gives this token again and again. -/
theorem tokenize_factors (source : String) :
    ∃ ts last, (∀ us, Factors [] source.toList us ↔ us = ts) ∧ (∀ t ∈ ts, t.kind ≠ .eof) ∧
      tokenize source = ts ++ [⟨.eof, "", .behind source.toList⟩] ∧
      (Cursor.ofString source).tokens = .ok (tokenize source, last) ∧ last.rest = [] ∧
      last.nextToken = .ok (⟨.eof, "", .behind source.toList⟩, last) := by
  have hstart : Cursor.ofString source = Cursor.between [] source.toList := rfl
  obtain ⟨ts, hts⟩ := exists_factors [] source.toList
  have hscan := Cursor.scanAll_of_factors hts
  rw [List.nil_append, ← hstart] at hscan
  have htokens : tokenize source = ts ++ [⟨.eof, "", .behind source.toList⟩] :=
    congrArg Prod.fst hscan
  refine ⟨ts, Cursor.between source.toList [], ?_, ?_, htokens, ?_, Cursor.rest_between _ _, ?_⟩
  · intro us
    constructor
    -- another factorisation would have been read as well
    · intro hus
      have hscan' := Cursor.scanAll_of_factors hus
      rw [List.nil_append, ← hstart] at hscan'
      exact List.append_inj_left' (congrArg Prod.fst (hscan'.symm.trans hscan)) rfl
    · rintro rfl
      exact hts
  · -- none of the tokens is the end of the input
    exact hts.ne_eof
  · -- all tokens are read
    show Except.ok (Cursor.ofString source).scanAll = _
    rw [hscan, htokens]
  · -- at the end of the source there is no white space left either
    have hend := Cursor.scan_between_space source.toList (List.forall_mem_nil Space)
    rw [List.append_nil] at hend
    have hinside : ¬(Cursor.between source.toList []).position < 0 :=
      Int.not_lt.2 (Int.natCast_nonneg _)
    rw [Cursor.nextToken, if_neg hinside, hend]

end Pratt
