import Pratt.Proofs.Factorisation

/-!
# Pratt — where a source may be cut

A source is cut in two. The tokens of the two parts are those of the whole, unless the cut goes
through a token or keeps two signs apart that are one token together (`Fuse`). Whether it does shows
in the last token of the first part and the first character of the second: in the token and not in
the character in front of the cut, since the equals sign that `===` ends with is a token by itself
and the one that `==` ends with is not.

* `Token.endsBefore_iff`: a lexeme ends before the characters that its token does not go on with.
* `Factors.append`: where the last lexeme ends before the second part, two factorisations are put
  together, the second one moved on over the first part (`Factors.shift`).
* `Factors.endsBefore_of_prefix`: and only there, since a lexeme that is found again in front of
  more text is maximal there too.
* `exists_factors_of_joined`: lexemes with space between them are found again.
* `tokenize_append`: the tokens of a source that is cut anywhere, and those of a source that is put
  together from tokens and white space.
-/

namespace Pratt

/-! ## Cuts -/

/-- The token would be longer, or another one, if the character stood right behind it. -/
def Token.GoesOnWith (t : Token) (c : Char) : Prop :=
  t.kind ∈ Kind.words ∧ (WordStart c ∨ Digit c) ∨ t.kind = .int ∧ Digit c ∨
    (t.literal = "=" ∨ t.literal = "!") ∧ c = '='

instance (t : Token) : DecidablePred t.GoesOnWith :=
  fun c => inferInstanceAs (Decidable (t.kind ∈ Kind.words ∧ (WordStart c ∨ Digit c) ∨
    t.kind = .int ∧ Digit c ∨ (t.literal = "=" ∨ t.literal = "!") ∧ c = '='))

/-- The first text does not end in white space, and its last token goes on with the first character
of the second text. -/
def Fuse (a b : String) : Prop :=
  (∃ d ∈ a.toList.getLast?, ¬Space d) ∧
    ∃ t ∈ (tokenize a).dropLast.getLast?, ∃ c ∈ b.toList.head?, t.GoesOnWith c

instance (a b : String) : Decidable (Fuse a b) :=
  -- by name, since another instance decides a quantifier over characters by trying all of them
  @instDecidableAnd _ _ (Option.decidableExistsMem _)
    (@Option.decidableExistsMem _ _ (fun _ => Option.decidableExistsMem _) _)

/-- Where a location is once there is a text in front of the source. On the first line of the source
there are now the characters of the text's last line in front of it as well. -/
def Location.shift (l : Location) (before : List Char) : Location :=
  ⟨l.line + before.count '\n',
    if l.line = 1 then l.column + ((Location.behind before).column - 1) else l.column⟩

/-- The token with a text in front of its source. -/
def Token.shift (t : Token) (before : List Char) : Token :=
  { t with location := t.location.shift before }

/-- The text is that of the tokens, with white space between each two of them, and with white space
or nothing in front of the first and behind the last. -/
inductive Joined : List Token → List Char → Prop where
  | nil {gap : List Char} (blank : ∀ c ∈ gap, Space c) : Joined [] gap
  | cons {t : Token} {ts : List Token} {gap text : List Char} (blank : ∀ c ∈ gap, Space c)
      (parted : ∀ c ∈ text.head?, Space c) (later : Joined ts text) :
      Joined (t :: ts) (gap ++ (t.literal.toList ++ text))

/-! ## Lexemes and what stands behind them -/

/-- Every lexeme ends in front of white space. -/
theorem Kind.endsBefore_of_space {c : Char} (hc : Space c) (k : Kind) : k.EndsBefore c := by
  have noChar : isWordChar c = false ∧ c ≠ '=' := by
    rcases hc with rfl | rfl | rfl | rfl <;> decide
  exact ⟨fun _ => noChar.1, fun _ => isDigit_eq_false_of_isWordChar noChar.1, fun _ => noChar.2⟩

namespace Lexeme

variable {x : Lexeme} {rest rest' : List Char}

/-- A lexeme is maximal in front of whatever starts with a character it does not go on with. -/
theorem maximal_of_endsBefore (h : x.Maximal rest)
    (hends : ∀ c ∈ rest'.head?, x.kind.EndsBefore c) :
    x.Maximal rest' := by
  -- what a lexeme is made of stays, and only what stands behind it is new
  cases h with
  | equal => exact .equal
  | notEqual => exact .notEqual
  | @sign k a _ listed _ =>
    refine .sign listed fun hsign hhead => ?_
    have signs : ∀ p ∈ Kind.signs, p.1 = '=' ∨ p.1 = '!' → p.2 = .assign ∨ p.2 = .bang := by decide
    have hkind := signs _ (mem_signs_of_operatorOf? (operatorOf?_eq_some_of_listed listed)) hsign
    exact (hends '=' hhead).2.2 hkind rfl
  | @word a tail _ first more _ =>
    refine .word first more fun c hc => ?_
    have hword := (hends c hc).1 (Kind.ofWord_mem_words _)
    rw [← isWordChar_iff, hword]
    exact Bool.false_ne_true
  | number nonempty digits _ =>
    refine .number nonempty digits fun c hc => ?_
    have hdigit := (hends c hc).2.1 rfl
    rw [← isDigit_iff, hdigit]
    exact Bool.false_ne_true
  | other unlisted noWord noDigit noSpace => exact .other unlisted noWord noDigit noSpace

/-- The signs that a second equals sign makes another lexeme of are known by their text as well. -/
theorem kind_eq_assign_or_bang_iff (h : x.Maximal rest) :
    x.kind = .assign ∨ x.kind = .bang ↔ x.text = ['='] ∨ x.text = ['!'] := by
  constructor
  · intro hkind
    cases h with
    | equal => exact absurd hkind (by decide)
    | notEqual => exact absurd hkind (by decide)
    | @sign k a _ listed _ =>
      have signs : ∀ p ∈ Kind.signs, p.2 = .assign ∨ p.2 = .bang → p.1 = '=' ∨ p.1 = '!' := by
        decide
      have hsign := signs _ (mem_signs_of_operatorOf? (operatorOf?_eq_some_of_listed listed)) hkind
      simpa using hsign
    | word _ _ _ =>
      have table : ∀ k ∈ Kind.words, ¬(k = .assign ∨ k = .bang) := by decide
      exact absurd hkind (table _ (Kind.ofWord_mem_words _))
    | number _ _ _ => exact absurd hkind (by simp)
    | other _ _ _ _ => exact absurd hkind (by simp)
  · -- each of the two texts is the lexeme of one kind
    have hx := lexemeAt?_text_of_maximal h
    rintro (htext | htext)
    · rw [htext] at hx
      cases hx
      exact .inl rfl
    · rw [htext] at hx
      cases hx
      exact .inr rfl

end Lexeme

/-- A token that is made from a lexeme gives it back. -/
theorem Token.lexeme_mk (x : Lexeme) (l : Location) :
    Token.lexeme ⟨x.kind, String.ofList x.text, l⟩ = x := by
  rw [lexeme, String.toList_ofList]

/-- A literal is told by the characters of its lexeme. -/
theorem Token.literal_eq_iff {t : Token} {text : String} :
    t.literal = text ↔ t.lexeme.text = text.toList :=
  String.toList_inj.symm

/-- The token of a maximal lexeme ends before the characters that it does not go on with. -/
theorem Token.endsBefore_iff {t : Token} {rest : List Char} (h : t.lexeme.Maximal rest) {c : Char} :
    t.kind.EndsBefore c ↔ ¬t.GoesOnWith c := by
  have hsigns := Lexeme.kind_eq_assign_or_bang_iff h
  have hassign : t.literal = "=" ↔ t.lexeme.text = ['='] := Token.literal_eq_iff
  have hbang : t.literal = "!" ↔ t.lexeme.text = ['!'] := Token.literal_eq_iff
  change t.kind = .assign ∨ t.kind = .bang ↔ _ at hsigns
  rw [Kind.EndsBefore, Token.GoesOnWith, hsigns, hassign, hbang]
  simp only [Bool.eq_false_iff, ne_eq, isWordChar_iff, isDigit_iff, not_or, not_and]

/-! ## Locations behind more text -/

/-- Behind two texts one stands where one stands behind the second, moved on over the first. -/
theorem Location.behind_append (before text : List Char) :
    Location.behind (before ++ text) = (Location.behind text).shift before := by
  rw [← past_behind, past_eq_count]
  -- the columns are moved only on the line that the text in front shares
  by_cases feed : '\n' ∈ text
  · have hlines : (Location.behind text).line ≠ 1 := by
      have hcount : 0 < text.count '\n' := List.count_pos_iff.2 feed
      show (1 + text.count '\n' : Int) ≠ 1
      omega
    rw [if_pos feed, shift, if_neg hlines]
    simp only [behind, Location.mk.injEq, and_true]
    omega
  · have hcount : text.count '\n' = 0 := List.count_eq_zero.2 feed
    have hlines : (Location.behind text).line = 1 := by
      show (1 + text.count '\n' : Int) = 1
      omega
    rw [if_neg feed, shift, if_pos hlines]
    simp only [behind, lastLine_of_notMem feed, hcount, Location.mk.injEq]
    omega

/-! ## Factorisations put together -/

namespace Factors

variable {before a b gap text : List Char} {ts us vs : List Token}

/-- An empty text has no tokens. -/
theorem eq_nil (h : Factors before [] ts) : ts = [] := by
  generalize htext : ([] : List Char) = text at h
  cases h with
  | space _ => rfl
  | lexeme _ longest _ =>
    obtain ⟨c, tail, hx, -⟩ := Lexeme.exists_cons_of_maximal longest
    simp [hx] at htext

/-- A text without tokens is white space. -/
theorem blank (h : Factors before text []) : ∀ c ∈ text, Space c := by
  cases h with
  | space blank => exact blank

/-- White space in front of a text belongs to no token. -/
theorem of_gap (blank : ∀ c ∈ gap, Space c) (h : Factors (before ++ gap) text ts) :
    Factors before (gap ++ text) ts := by
  cases h with
  | space blank' => exact .space (List.forall_mem_append.2 ⟨blank, blank'⟩)
  | @lexeme _ gap' rest x ts blank' longest later =>
    rw [List.append_assoc before gap gap'] at later ⊢
    rw [← List.append_assoc]
    exact .lexeme (List.forall_mem_append.2 ⟨blank, blank'⟩) longest later

/-- Two factorisations are put together where the first text ends in white space, or its last lexeme
before the second text. -/
theorem append (h : Factors before a ts) (h' : Factors (before ++ a) b us)
    (hcut : (∃ d ∈ a.getLast?, Space d) ∨
      ∀ t ∈ ts.getLast?, ∀ c ∈ b.head?, t.kind.EndsBefore c) :
    Factors before (a ++ b) (ts ++ us) := by
  -- on the first factorisation, whose last lexeme is the only one that the second text follows
  induction h with
  | space blank => exact of_gap blank h'
  | @lexeme before gap rest x ts blank longest later ih =>
    rw [List.append_assoc, List.append_assoc]
    rw [← List.append_assoc, ← List.append_assoc] at h'
    cases rest with
    | nil =>
      -- the lexeme is the last one, and the first text ends with it
      obtain rfl := eq_nil later
      refine .lexeme blank (Lexeme.maximal_of_endsBefore longest fun c hc => ?_) ?_
      · rcases hcut with ⟨d, hd, hspace⟩ | hends
        · obtain ⟨e, tail, hx, -⟩ := Lexeme.exists_cons_of_maximal longest
          have hmem : d ∈ x.text := by
            rw [List.append_nil, List.getLast?_append_of_ne_nil _ (by rw [hx]; exact nofun)] at hd
            exact List.mem_of_getLast? hd
          exact absurd hspace (Lexeme.not_space_of_maximal longest d hmem)
        · exact hends _ rfl c hc
      · rw [List.append_nil] at h'
        exact h'
    | cons d rest =>
      refine .lexeme blank (Lexeme.maximal_of_endsBefore longest fun c hc => ?_) ?_
      · exact Lexeme.endsBefore_of_maximal longest hc
      · refine ih h' ?_
        rcases hcut with ⟨e, he, hspace⟩ | hends
        · rw [← List.append_assoc, List.getLast?_append_of_ne_nil _ (List.cons_ne_nil _ _)] at he
          exact .inl ⟨e, he, hspace⟩
        · refine .inr fun t ht => hends t ?_
          cases ts with
          | nil => exact nomatch ht
          | cons u ts => exact ht

/-- A text in front of the source moves the tokens. -/
theorem shift (h : Factors before text ts) (more : List Char) :
    Factors (more ++ before) text (ts.map (·.shift more)) := by
  induction h with
  | space blank => exact .space blank
  | @lexeme before gap rest x ts blank longest later ih =>
    rw [← List.append_assoc, ← List.append_assoc] at ih
    have hplace : Location.behind (more ++ before ++ gap) =
        (Location.behind (before ++ gap)).shift more := by
      rw [List.append_assoc, Location.behind_append]
    rw [List.map_cons]
    show Factors _ _ (⟨_, _, (Location.behind (before ++ gap)).shift more⟩ :: _)
    rw [← hplace]
    exact .lexeme blank longest ih

/-- Each token is a maximal lexeme. -/
theorem maximal (h : Factors before text ts) : ∀ t ∈ ts, ∃ rest, t.lexeme.Maximal rest := by
  induction h with
  | space _ => exact List.forall_mem_nil _
  | @lexeme before gap rest x ts blank longest later ih =>
    refine List.forall_mem_cons.2 ⟨⟨rest, ?_⟩, ih⟩
    rw [Token.lexeme_mk]
    exact longest

/-- The first token of a text that starts with white space and another character. -/
theorem exists_cons (h : Factors before (gap ++ text) ts) (blank : ∀ c ∈ gap, Space c)
    (hfirst : ∃ c ∈ text.head?, ¬Space c) :
    ∃ (x : Lexeme) (rest : List Char) (us : List Token), text = x.text ++ rest ∧ x.Maximal rest ∧
      Factors (before ++ gap ++ x.text) rest us ∧
      ts = ⟨x.kind, String.ofList x.text, .behind (before ++ gap)⟩ :: us := by
  obtain ⟨c, hc, hspace⟩ := hfirst
  have hrun : (gap ++ text).takeWhile isSpace = gap := by
    refine takeWhile_isSpace blank fun d hd => ?_
    obtain rfl := Option.mem_unique hc hd
    exact hspace
  generalize hwhole : gap ++ text = whole at h hrun
  cases h with
  | space blank' =>
    rw [← hwhole] at blank'
    exact absurd (blank' c (List.mem_append_right _ (List.mem_of_mem_head? hc))) hspace
  | @lexeme _ gap' rest x us blank' longest later =>
    -- the two gaps are the same white space
    obtain ⟨d, tail, hx, hd⟩ := Lexeme.exists_cons_of_maximal longest
    have hrun' : (gap' ++ (x.text ++ rest)).takeWhile isSpace = gap' := by
      refine takeWhile_isSpace blank' fun e he => ?_
      rw [hx] at he
      cases he
      exact hd
    obtain rfl : gap' = gap := hrun'.symm.trans hrun
    exact ⟨x, rest, us, List.append_cancel_left hwhole, longest, later, rfl⟩

/-- Where the lexemes of a text are found again in front of more text, and the first text does not
end in white space, its last lexeme ends before the second one. The places do not matter. -/
theorem endsBefore_of_prefix {before' : List Char} (h : Factors before a ts)
    (h' : Factors before' (a ++ b) vs) (hfound : ts.map Token.lexeme <+: vs.map Token.lexeme)
    (hlast : ∃ d ∈ a.getLast?, ¬Space d) :
    ∀ t ∈ ts.getLast?, ∀ c ∈ b.head?, t.kind.EndsBefore c := by
  -- on the first factorisation, taking off the same lexeme from both texts
  induction h generalizing before' vs with
  | space _ => exact nofun
  | @lexeme before gap rest x ts blank longest later ih =>
    rw [List.append_assoc, List.append_assoc] at h'
    obtain ⟨d, tail, hx, hspace⟩ := Lexeme.exists_cons_of_maximal longest
    obtain ⟨y, rest', us, htext, longest', later', rfl⟩ :=
      h'.exists_cons blank ⟨d, by rw [hx]; rfl, hspace⟩
    rw [List.map_cons, List.map_cons, List.cons_prefix_cons] at hfound
    rw [Token.lexeme_mk, Token.lexeme_mk] at hfound
    -- the same lexeme is cut off, now with the second text behind it
    obtain ⟨rfl, hfound⟩ := hfound
    obtain rfl : rest ++ b = rest' := List.append_cancel_left htext
    cases rest with
    | nil =>
      obtain rfl := eq_nil later
      rintro t ⟨⟩ c hc
      exact Lexeme.endsBefore_of_maximal longest' hc
    | cons e rest =>
      rw [← List.append_assoc, List.getLast?_append_of_ne_nil _ (List.cons_ne_nil _ _)] at hlast
      intro t ht
      refine ih later' hfound hlast t ?_
      cases ts with
      | nil =>
        obtain ⟨f, hf, hne⟩ := hlast
        exact absurd (later.blank f (List.mem_of_getLast? hf)) hne
      | cons u ts => exact ht

end Factors

/-- Lexemes with space between them are found again, at whatever places. -/
theorem exists_factors_of_joined {ts : List Token} {text : List Char} (h : Joined ts text)
    (hts : ∀ t ∈ ts, ∃ rest, t.lexeme.Maximal rest) (before : List Char) :
    ∃ us, Factors before text us ∧ us.map Token.lexeme = ts.map Token.lexeme := by
  -- each lexeme is maximal in front of the white space behind it
  induction h generalizing before with
  | nil blank => exact ⟨[], .space blank, rfl⟩
  | @cons t ts gap text blank parted later ih =>
    obtain ⟨⟨rest, longest⟩, hts⟩ := List.forall_mem_cons.1 hts
    obtain ⟨us, hus, hsame⟩ := ih hts (before ++ gap ++ t.literal.toList)
    have longest' : t.lexeme.Maximal text :=
      Lexeme.maximal_of_endsBefore longest fun c hc => Kind.endsBefore_of_space (parted c hc) _
    refine ⟨_, .lexeme blank longest' hus, ?_⟩
    rw [List.map_cons, List.map_cons, Token.lexeme_mk, hsame]

/-! ## Sources -/

/-- The tokens of a source are those it falls into, and the end of the input behind them. -/
theorem tokenize_of_factors {source : String} {ts : List Token} (h : Factors [] source.toList ts) :
    tokenize source = ts ++ [⟨.eof, "", .behind source.toList⟩] :=
  congrArg Prod.fst (Cursor.scanAll_of_factors h)

/-- The lexemes of a source are those it falls into, and the end of the input. -/
theorem lexemes_of_factors {source : String} {ts : List Token} (h : Factors [] source.toList ts) :
    (tokenize source).map Token.lexeme = ts.map Token.lexeme ++ [⟨.eof, []⟩] := by
  rw [tokenize_of_factors h, List.map_append]
  rfl

/-- Fusing is told from the factorisation of the first part. -/
theorem not_fuse_iff {a b : String} {ts : List Token} (h : Factors [] a.toList ts) :
    ¬Fuse a b ↔ (∃ d ∈ a.toList.getLast?, Space d) ∨
      ∀ t ∈ ts.getLast?, ∀ c ∈ b.toList.head?, t.kind.EndsBefore c := by
  have hgoes : ∀ t ∈ ts.getLast?, ∀ c, t.kind.EndsBefore c ↔ ¬t.GoesOnWith c := by
    intro t ht c
    obtain ⟨rest, longest⟩ := h.maximal t (List.mem_of_getLast? ht)
    exact Token.endsBefore_iff longest
  rw [Fuse, tokenize_of_factors h, List.dropLast_concat]
  constructor
  · intro hfuse
    by_cases hspace : ∃ d ∈ a.toList.getLast?, Space d
    · exact .inl hspace
    · refine .inr fun t ht c hc => (hgoes t ht c).2 fun hon => hfuse ⟨?_, t, ht, c, hc, hon⟩
      cases hlast : a.toList.getLast? with
      | none =>
        -- there is no token in an empty text
        rw [List.getLast?_eq_none_iff.1 hlast] at h
        rw [h.eq_nil] at ht
        cases ht
      | some d => exact ⟨d, rfl, fun hd => hspace ⟨d, hlast, hd⟩⟩
  · rintro (⟨d, hd, hspace⟩ | hends) ⟨⟨e, he, hne⟩, t, ht, c, hc, hon⟩
    · exact hne (Option.mem_unique hd he ▸ hspace)
    · exact (hgoes t ht c).1 (hends t ht c hc) hon

/-- Parts that do not fuse are read one after the other. -/
theorem tokenize_append_of_not_fuse {a b : String} (h : ¬Fuse a b) :
    tokenize (a ++ b) = (tokenize a).dropLast ++ (tokenize b).map (·.shift a.toList) := by
  obtain ⟨ts, hts⟩ := exists_factors [] a.toList
  obtain ⟨us, hus⟩ := exists_factors [] b.toList
  have hshift : Factors ([] ++ a.toList) b.toList (us.map (·.shift a.toList)) := by
    have hmoved := hus.shift a.toList
    rwa [List.append_nil] at hmoved
  -- the two factorisations are put together, the second one moved
  have hboth : Factors [] (a ++ b).toList (ts ++ us.map (·.shift a.toList)) := by
    rw [String.toList_append]
    exact hts.append hshift ((not_fuse_iff hts).1 h)
  have hend : Token.shift ⟨.eof, "", .behind b.toList⟩ a.toList =
      ⟨.eof, "", .behind (a ++ b).toList⟩ := by
    rw [Token.shift, String.toList_append, Location.behind_append]
  rw [tokenize_of_factors hboth, tokenize_of_factors hts, tokenize_of_factors hus,
    List.dropLast_concat, List.map_append, List.append_assoc, List.map_singleton, hend]

/-- Where the tokens of the parts are found again, in kind and text, the parts do not fuse. -/
theorem not_fuse_of_lexemes {a b : String}
    (h : (tokenize (a ++ b)).map Token.lexeme =
      ((tokenize a).dropLast ++ tokenize b).map Token.lexeme) : ¬Fuse a b := by
  intro hfuse
  obtain ⟨ts, hts⟩ := exists_factors [] a.toList
  obtain ⟨us, hus⟩ := exists_factors [] b.toList
  obtain ⟨vs, hvs⟩ := exists_factors [] (a ++ b).toList
  rw [lexemes_of_factors hvs, List.map_append, lexemes_of_factors hus, tokenize_of_factors hts,
    List.dropLast_concat, ← List.append_assoc] at h
  -- the lexemes of the first part are found at the start of the whole
  have hfound : ts.map Token.lexeme <+: vs.map Token.lexeme :=
    ⟨_, (List.append_cancel_right h).symm⟩
  rw [String.toList_append] at hvs
  have hends := hts.endsBefore_of_prefix hvs hfound hfuse.1
  exact (not_fuse_iff hts).2 (.inr hends) hfuse

/-- The tokens of a source that is cut in two are those of its parts, in kind and text, exactly
where the parts do not fuse. Then those of the second part have the places they had, moved on over
the first part: by its line feeds and, on the first line of the second part, by the characters of
its last line. And tokens of any sources, put together with white space between them, are read again
from what this gives. -/
theorem tokenize_append (a b : String) :
    ((tokenize (a ++ b)).map Token.lexeme = ((tokenize a).dropLast ++ tokenize b).map Token.lexeme ↔
        ¬Fuse a b) ∧
      (¬Fuse a b → tokenize (a ++ b) =
        (tokenize a).dropLast ++ (tokenize b).map (·.shift a.toList)) ∧
      ∀ ts text, (∀ t ∈ ts, ∃ source, t ∈ (tokenize source).dropLast) → Joined ts text →
        (tokenize (String.ofList text)).map Token.lexeme =
          ts.map Token.lexeme ++ [⟨.eof, []⟩] := by
  refine ⟨⟨not_fuse_of_lexemes, ?_⟩, tokenize_append_of_not_fuse, ?_⟩
  · intro hfuse
    rw [tokenize_append_of_not_fuse hfuse, List.map_append, List.map_append, List.map_map]
    rfl
  · intro ts text hts hjoined
    -- each token was maximal in the source that it comes from
    have hmaximal : ∀ t ∈ ts, ∃ rest, t.lexeme.Maximal rest := by
      intro t ht
      obtain ⟨source, hmem⟩ := hts t ht
      obtain ⟨us, hus⟩ := exists_factors [] source.toList
      rw [tokenize_of_factors hus, List.dropLast_concat] at hmem
      exact hus.maximal t hmem
    obtain ⟨us, hus, hsame⟩ := exists_factors_of_joined hjoined hmaximal []
    rw [← String.toList_ofList (l := text)] at hus
    rw [lexemes_of_factors hus, hsame]

/-- An equals sign behind `===` makes another token of its last sign. Behind `==` it is a token by
itself, and what follows in the same line moves by two columns. And with a blank and a line feed in
between, the tokens of `!==x` are read from another text. -/
theorem tokenize_append_equals :
    ((tokenize ("===" ++ "= x")).map Token.lexeme ≠
        ((tokenize "===").dropLast ++ tokenize "= x").map Token.lexeme) ∧
      tokenize ("==" ++ "= x\ny") = [⟨.equal, "==", ⟨1, 1⟩⟩, ⟨.assign, "=", ⟨1, 3⟩⟩,
        ⟨.ident, "x", ⟨1, 5⟩⟩, ⟨.ident, "y", ⟨2, 1⟩⟩, ⟨.eof, "", ⟨2, 2⟩⟩] ∧
      (tokenize "!= =\nx").map Token.lexeme =
        (tokenize "!==x").dropLast.map Token.lexeme ++ [⟨.eof, []⟩] := by
  have hfuse : Fuse "===" "= x" := by decide +kernel
  have hcut : ¬Fuse "==" "= x\ny" := by decide +kernel
  have htokens : (tokenize "!==x").dropLast = [⟨.notEqual, "!=", ⟨1, 1⟩⟩, ⟨.assign, "=", ⟨1, 3⟩⟩,
      ⟨.ident, "x", ⟨1, 4⟩⟩] := by decide +kernel
  have hjoined : Joined (tokenize "!==x").dropLast "!= =\nx".toList := by
    rw [htokens]
    refine @Joined.cons _ _ [] " =\nx".toList ?_ ?_ <|
      @Joined.cons _ _ [' '] "\nx".toList ?_ ?_ <|
      @Joined.cons _ _ ['\n'] [] ?_ ?_ (.nil ?_) <;> simp [Space]
  refine ⟨fun h => (tokenize_append _ _).1.1 h hfuse, ?_, ?_⟩
  · rw [(tokenize_append _ _).2.1 hcut]
    decide +kernel
  · exact (tokenize_append "" "").2.2 _ _ (fun t ht => ⟨"!==x", ht⟩) hjoined

end Pratt
