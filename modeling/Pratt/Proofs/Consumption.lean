import Pratt.Lexer.Session
import Pratt.Proofs.Factorisation

/-!
# Pratt — what reading by hand consumes

A lexer that is driven one operation at a time, from any place that is not before the start of its
source, consumes the source from there on without a gap and without repeating anything. An operation
passes a text that stands ahead of the cursor (`Cursor.Passes`), and this text is what the operation
gives: the text of a token, a character, a run of characters, and white space, which is not given
but only passed (`Operation.Consumes`). So what a session consumes, one text behind the other, is
the stretch of the source between its first and its last place, and the location is that stretch
read from the location at the start.

* `Operation.consumes_perform`: what one operation consumes is what it passes.
* `Operation.consumesAll_performAll`: the same for a session, by induction on its operations.
* `reading_by_hand`: place, location and text of any session, and which operation is refused where.
-/

namespace Pratt

/-! ## Passing a text -/

namespace Cursor

/-- The text stands ahead of the first cursor, and the second one is the first past it. -/
def Passes (c : Cursor) (text : List Char) (c' : Cursor) : Prop :=
  text <+: c.rest ∧ c' = c.past text

namespace Passes

variable {c c' c'' : Cursor} {text text' : List Char}

/-- Nothing is passed where the cursor stays. -/
theorem refl (c : Cursor) : c.Passes [] c :=
  ⟨List.nil_prefix, rfl⟩

/-- What is passed in two steps is the one text behind the other. -/
theorem trans (h : c.Passes text c') (h' : c'.Passes text' c'') :
    c.Passes (text ++ text') c'' := by
  obtain ⟨⟨rest, hrest⟩, rfl⟩ := h
  obtain ⟨⟨rest', hrest'⟩, rfl⟩ := h'
  have hbehind : (c.past text).rest = rest := rest_past hrest.symm
  refine ⟨⟨rest', ?_⟩, (past_append c text text').symm⟩
  rw [← hrest, ← hbehind, ← hrest', List.append_assoc]

/-- Passing a text does not lead before the start of the source. -/
theorem position_nonneg (h : c.Passes text c') (hc : 0 ≤ c.position) : 0 ≤ c'.position := by
  rw [h.2, past_eq]
  show 0 ≤ c.position + text.length
  omega

end Passes

/-- Reading a run passes it. -/
theorem passes_readWhile (c : Cursor) (isMember : Char → Bool) :
    c.Passes (c.readWhile isMember).1 (c.readWhile isMember).2 :=
  ⟨List.takeWhile_prefix isMember, rfl⟩

/-- Skipping the space passes white space and nothing else. -/
theorem exists_passes_skipSpace (c : Cursor) :
    ∃ gap, (∀ d ∈ gap, Space d) ∧ c.Passes gap c.skipSpace := by
  refine ⟨_, ?_, c.passes_readWhile isSpace⟩
  intro d hd
  exact isSpace_iff.1 (List.mem_takeWhile_imp hd)

/-- Taking a lexeme passes the text of its token. -/
theorem passes_token {c : Cursor} {x : Lexeme} {rest : List Char} (h : c.rest = x.text ++ rest) :
    c.Passes (c.token x).literal.toList (c.past x.text) := by
  have htext : (c.token x).literal.toList = x.text := String.toList_ofList
  rw [htext]
  exact ⟨⟨rest, h.symm⟩, rfl⟩

/-- Reading a token passes white space and then the text of the token, which is empty at the end of
the input. -/
theorem exists_passes_scan (c : Cursor) :
    ∃ gap, (∀ d ∈ gap, Space d) ∧ c.Passes (gap ++ c.scan.1.literal.toList) c.scan.2 := by
  obtain ⟨gap, blank, hgap⟩ := c.exists_passes_skipSpace
  refine ⟨gap, blank, hgap.trans ?_⟩
  unfold scan
  dsimp only
  -- the end of the input has no text, and nothing is passed for it
  cases hx : lexemeAt? c.skipSpace.rest with
  | none => exact .refl _
  | some x =>
    obtain ⟨rest, hrest⟩ := eq_append_of_lexemeAt? hx
    exact passes_token hrest

/-- Taking an operator passes its text. -/
theorem passes_readOperator? {c c' : Cursor} {t : Token} (h : c.readOperator? = some (t, c')) :
    c.Passes t.literal.toList c' := by
  obtain ⟨x, hx, heq⟩ := Option.map_eq_some_iff.1 h
  obtain ⟨_, _, rest, _, hrest⟩ := exists_cons_of_operatorAt? hx
  cases heq
  exact passes_token hrest

/-- Inside the source or behind it, a character is refused exactly at the end. -/
theorem next_of_nonneg {c : Cursor} (hc : 0 ≤ c.position) :
    c.atEnd = true ∧ c.next = .error (.pastEnd c.position c.location.line) ∨
      c.atEnd = false ∧
        ∃ char, c.next = .ok (char, c.step char) ∧ c.Passes [char] (c.step char) := by
  unfold next
  cases hend : c.atEnd with
  | true => exact .inl ⟨rfl, rfl⟩
  | false =>
    refine .inr ⟨rfl, ?_⟩
    have hbound : c.position.toNat < c.source.length := by
      have hlt := of_decide_eq_false hend
      omega
    -- a place inside the source holds a character
    have hchar : c.charAt? c.position = some c.source[c.position.toNat] := by
      rw [charAt?, if_neg (Int.not_lt.2 hc), List.getElem?_eq_getElem hbound]
    refine ⟨c.source[c.position.toNat], ?_, ?_, rfl⟩
    · simp only [Int.not_lt.2 hc, if_false, hchar]
      rfl
    · rw [rest_of_nonneg hc, List.drop_eq_getElem_cons hbound]
      exact ⟨_, rfl⟩

end Cursor

/-! ## What an operation consumes -/

/-- The text is that of the tokens, with white space in front of each. -/
inductive Spread : List Token → List Char → Prop where
  | nil : Spread [] []
  | cons {t : Token} {ts : List Token} {gap text : List Char} (blank : ∀ c ∈ gap, Space c)
      (later : Spread ts text) : Spread (t :: ts) (gap ++ t.literal.toList ++ text)

namespace Operation

/-- The operation consumes the text, going by what it gives: the texts of tokens and characters, and
white space, which shows in nothing that is given. Only the reading of a character may be refused,
and then nothing is consumed. -/
inductive Consumes : Operation → Except ReadError Reading → List Char → Prop where
  | nextToken {t : Token} {gap : List Char} (blank : ∀ c ∈ gap, Space c) :
      Consumes .nextToken (.ok (.token (some t))) (gap ++ t.literal.toList)
  | peek {offset : Int} {seen : List Char} : Consumes (.peek offset) (.ok (.text seen)) []
  | nextChar {c : Char} : Consumes .nextChar (.ok (.text [c])) [c]
  | refusal {e : ReadError} : Consumes .nextChar (.error e) []
  | skipSpace {gap : List Char} (blank : ∀ c ∈ gap, Space c) :
      Consumes .skipSpace (.ok .nothing) gap
  | readOperator {t : Token} : Consumes .readOperator (.ok (.token (some t))) t.literal.toList
  | noOperator : Consumes .readOperator (.ok (.token none)) []
  | readWhile {members run : List Char} : Consumes (.readWhile members) (.ok (.text run)) run
  | tokens {ts : List Token} {text : List Char} (spread : Spread ts text) :
      Consumes .tokens (.ok (.tokens ts)) text
  | atEnd {b : Bool} : Consumes .atEnd (.ok (.flag b)) []

/-- The operations consume the text, one after the other. -/
inductive ConsumesAll : List Operation → List (Except ReadError Reading) → List Char → Prop where
  | nil : ConsumesAll [] [] []
  | cons {op : Operation} {ops : List Operation} {given : Except ReadError Reading}
      {others : List (Except ReadError Reading)} {text text' : List Char}
      (first : op.Consumes given text) (later : ConsumesAll ops others text') :
      ConsumesAll (op :: ops) (given :: others) (text ++ text')

/-- What operations give at a cursor, one after the other, and the cursor behind all of them. A
refused one does not keep the others from being carried out. -/
def performAll : Cursor → List Operation → List (Except ReadError Reading) × Cursor
  | c, [] => ([], c)
  | c, op :: ops =>
    let first := op.perform c
    let later := performAll first.2 ops
    (first.1 :: later.1, later.2)

end Operation

namespace Cursor

/-- Reading all tokens passes their texts and the white space in front of each. -/
theorem exists_spread_scanAll (c : Cursor) :
    ∃ text, Spread c.scanAll.1 text ∧ c.Passes text c.scanAll.2 := by
  -- on the tokens that are read: the end of the input, or one token and then the others
  induction c using scanAll.induct with
  | case1 c next heof =>
    obtain ⟨gap, blank, hpasses⟩ := c.exists_passes_scan
    rw [scanAll_of_eof heof]
    refine ⟨gap ++ c.scan.1.literal.toList ++ [], .cons blank .nil, ?_⟩
    rw [List.append_nil, scanAll, dif_pos heof]
    exact hpasses
  | case2 c next hne ih =>
    obtain ⟨gap, blank, hpasses⟩ := c.exists_passes_scan
    obtain ⟨text, spread, hlater⟩ := ih
    rw [scanAll_of_ne hne]
    refine ⟨_, .cons blank spread, ?_⟩
    rw [scanAll, dif_neg hne]
    exact hpasses.trans hlater

end Cursor

namespace Operation

variable {c : Cursor}

/-- What an operation consumes stands ahead, and the cursor passes it. -/
theorem consumes_perform (hc : 0 ≤ c.position) (op : Operation) :
    ∃ text, op.Consumes (op.perform c).1 text ∧ c.Passes text (op.perform c).2 := by
  have hinside : ¬c.position < 0 := Int.not_lt.2 hc
  -- one case for each operation, with the text that it passes
  cases op with
  | nextToken =>
    obtain ⟨gap, blank, hpasses⟩ := c.exists_passes_scan
    have hscan : perform c .nextToken = (.ok (.token c.scan.1), c.scan.2) := by
      simp only [perform, Cursor.nextToken, if_neg hinside]
    rw [hscan]
    exact ⟨_, .nextToken blank, hpasses⟩
  | peek offset => exact ⟨[], .peek, .refl c⟩
  | nextChar =>
    rcases Cursor.next_of_nonneg hc with ⟨-, hnext⟩ | ⟨-, char, hnext, hpasses⟩
    · simp only [perform, hnext]
      exact ⟨[], .refusal, .refl c⟩
    · simp only [perform, hnext]
      exact ⟨[char], .nextChar, hpasses⟩
  | skipSpace =>
    obtain ⟨gap, blank, hpasses⟩ := c.exists_passes_skipSpace
    exact ⟨gap, .skipSpace blank, hpasses⟩
  | readOperator =>
    cases hop : c.readOperator? with
    | none =>
      simp only [perform, hop]
      exact ⟨[], .noOperator, .refl c⟩
    | some found =>
      obtain ⟨t, c'⟩ := found
      simp only [perform, hop]
      exact ⟨_, .readOperator, Cursor.passes_readOperator? hop⟩
  | readWhile members => exact ⟨_, .readWhile, c.passes_readWhile _⟩
  | tokens =>
    obtain ⟨text, spread, hpasses⟩ := c.exists_spread_scanAll
    -- from a place that is not before the start, no token is read in front of those ahead
    have hnone : (-c.position).toNat = 0 := by omega
    have htokens : perform c .tokens = (.ok (.tokens c.scanAll.1), c.scanAll.2) := by
      simp only [perform, Cursor.tokens, hnone, Cursor.tokensAfter]
    rw [htokens]
    exact ⟨text, .tokens spread, hpasses⟩
  | atEnd => exact ⟨[], .atEnd, .refl c⟩

/-- What a session consumes stands ahead of the place where it starts, and is what it passes. -/
theorem consumesAll_performAll (hc : 0 ≤ c.position) (ops : List Operation) :
    ∃ text, ConsumesAll ops (performAll c ops).1 text ∧ c.Passes text (performAll c ops).2 := by
  -- on the operations, each of which starts where the one before it ended
  induction ops generalizing c with
  | nil => exact ⟨[], .nil, .refl c⟩
  | cons op ops ih =>
    obtain ⟨text, first, hfirst⟩ := consumes_perform hc op
    obtain ⟨text', later, hlater⟩ := ih (hfirst.position_nonneg hc)
    exact ⟨text ++ text', .cons first later, hfirst.trans hlater⟩

/-- The only operation that is refused is the reading of a character, at the end of the source. -/
theorem perform_eq_error_iff (hc : 0 ≤ c.position) {op : Operation} {e : ReadError} :
    (op.perform c).1 = .error e ↔
      op = .nextChar ∧ c.atEnd = true ∧ e = .pastEnd c.position c.location.line := by
  obtain ⟨text, hconsumes, -⟩ := consumes_perform hc op
  constructor
  · intro herror
    -- the ways of consuming that give a refusal are those of reading a character
    rw [herror] at hconsumes
    cases hconsumes
    rcases Cursor.next_of_nonneg hc with ⟨hend, hnext⟩ | ⟨-, char, hnext, -⟩
    · simp only [perform, hnext] at herror
      cases herror
      exact ⟨rfl, hend, rfl⟩
    · simp only [perform, hnext] at herror
      cases herror
  · rintro ⟨rfl, hend, rfl⟩
    rcases Cursor.next_of_nonneg hc with ⟨-, hnext⟩ | ⟨hopen, -⟩
    · simp only [perform, hnext]
    · rw [hopen] at hend
      cases hend

/-- A refused operation leaves the cursor where it is. -/
theorem perform_of_error {op : Operation} {e : ReadError} (hc : 0 ≤ c.position)
    (h : (op.perform c).1 = .error e) : (op.perform c).2 = c := by
  obtain ⟨text, hconsumes, hpasses⟩ := consumes_perform hc op
  rw [h] at hconsumes
  cases hconsumes
  exact hpasses.2

end Operation

/-! ## Sessions -/

/-- A session of any operations, started at any place that is not before the start of the source and
with any location, ends at a place that is not before its start, and not beyond the end of the
source unless it started there. What its operations consumed, one after the other, is the stretch
between the two places, and the location is that of the start moved on over it. There, and so at
every point of a session, a character is refused at the end of the source and only there, nothing
else ever is, and what is refused or only looks leaves the cursor as it is. -/
theorem reading_by_hand (source : List Char) (first : Nat) (start : Location)
    (ops : List Operation) :
    ∃ (given : List (Except ReadError Reading)) (place : Nat) (location : Location),
      Operation.performAll ⟨source, first, start⟩ ops = (given, ⟨source, place, location⟩) ∧
      first ≤ place ∧ place ≤ max first source.length ∧
      Operation.ConsumesAll ops given (source.extract first place) ∧
      location.line = start.line + (source.extract first place).count '\n' ∧
      location.column = (if '\n' ∈ source.extract first place
        then 1 + (((source.extract first place).rtakeWhile (· ≠ '\n')).length : Int)
        else start.column + (place - first)) ∧
      let c : Cursor := ⟨source, place, location⟩
      Operation.perform c .atEnd = (.ok (.flag (source.length ≤ place)), c) ∧
      (∀ offset, (Operation.perform c (.peek offset)).2 = c) ∧
      (∀ op e, (Operation.perform c op).1 = .error e ↔
        op = .nextChar ∧ source.length ≤ place ∧ e = .pastEnd place location.line) ∧
      ∀ op e, (Operation.perform c op).1 = .error e → (Operation.perform c op).2 = c := by
  obtain ⟨text, hconsumes, ⟨rest, hrest⟩, hlast⟩ :=
    Operation.consumesAll_performAll (c := ⟨source, first, start⟩) (Int.natCast_nonneg first) ops
  rw [Cursor.rest_of_nonneg (Int.natCast_nonneg first)] at hrest
  replace hrest : text ++ rest = source.drop first := hrest
  -- the text that was passed is the stretch of the source
  have hextract : source.extract first (first + text.length) = text := by
    show (source.drop first).take (first + text.length - first) = text
    rw [← hrest, Nat.add_sub_cancel_left, List.take_left]
  have hlength : text.length ≤ source.length - first := by
    rw [← List.length_drop, ← hrest, List.length_append]
    exact Nat.le_add_right ..
  refine ⟨_, first + text.length, start.past text, Prod.ext rfl ?_, Nat.le_add_right .., ?_, ?_, ?_,
    ?_, ?_, fun _ => rfl, ?_, ?_⟩
  · -- the place and the location, in one cursor
    rw [hlast, Cursor.past_eq]
    rfl
  · -- the place is not beyond the end
    omega
  · rw [hextract]
    exact hconsumes
  · -- the line
    rw [hextract, Location.past_eq_count]
  · -- the column
    have hplaces : ((first + text.length : Nat) : Int) - first = text.length := by omega
    rw [hextract, hplaces, Location.past_eq_count]
  · -- whether the end is reached
    simp only [Operation.perform, Cursor.atEnd, Int.ofNat_le]
  · -- what is refused
    intro op e
    rw [Operation.perform_eq_error_iff (Int.natCast_nonneg _)]
    simp only [Cursor.atEnd, Int.ofNat_le, decide_eq_true_eq]
  · intro op e herror
    exact Operation.perform_of_error (Int.natCast_nonneg _) herror

/-- A session that starts in the middle of a word: a character, a token behind white space, a run,
and a character that is refused at the end. -/
theorem reading_by_hand_from_middle :
    let source := "x1 \n==bb".toList
    let ops : List Operation := [.nextChar, .nextToken, .readWhile ['b'], .nextChar]
    let given := [.ok (.text ['1']), .ok (.token (some ⟨.equal, "==", ⟨4, 1⟩⟩)),
      .ok (.text ['b', 'b']), .error (.pastEnd 8 4)]
    Operation.performAll ⟨source, 1, ⟨3, 5⟩⟩ ops = (given, ⟨source, 8, ⟨4, 5⟩⟩) ∧
      Operation.ConsumesAll ops given "1 \n==bb".toList ∧
      Operation.perform ⟨source, 8, ⟨4, 5⟩⟩ .nextChar =
        (.error (.pastEnd 8 4), ⟨source, 8, ⟨4, 5⟩⟩) := by
  intro source ops given
  have hrun : Operation.performAll ⟨source, 1, ⟨3, 5⟩⟩ ops = (given, ⟨source, 8, ⟨4, 5⟩⟩) := by
    decide +kernel
  obtain ⟨given', place, location, hsession, -, -, hconsumes, -, -, -, -, hrefused, hstays⟩ :=
    reading_by_hand source 1 ⟨3, 5⟩ ops
  obtain ⟨rfl, hlast⟩ := Prod.mk.inj (hsession.symm.trans hrun)
  obtain ⟨-, hplace, rfl⟩ := Cursor.mk.inj hlast
  obtain rfl : place = 8 := Int.ofNat_inj.1 hplace
  have herror := (hrefused .nextChar _).2 ⟨rfl, by decide, rfl⟩
  exact ⟨hrun, hconsumes, Prod.ext herror (hstays .nextChar _ herror)⟩

end Pratt
