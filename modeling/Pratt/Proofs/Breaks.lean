import Pratt.Proofs.Completeness

/-!
# Pratt — where a text stops being one of the grammar

`Breaks p ts t` says that the tokens `ts` are the start of a part of the kind
`p`, and that the part cannot go on with the token `t`. Like `Derives`, it is
about the grammar alone. There is one constructor for each place at which a part
can break: a token that a production asks for and that is another one, or a
smaller part that breaks itself, behind what was complete by then.

What has been read when a part breaks is no dead end: other tokens in the place
of `t` complete the part (`Breaks.exists_completion`).
-/

namespace Pratt

/-- A part of a text. The lists are what follows an opening parenthesis, with the closing one; the
statements go up to a token of the kind `closer`. -/
inductive Part where
  | expression (c : Stratum)
  | items
  | names
  | statement
  | statements (closer : Kind)
  | block

/-- The tokens start a part, and the last one cannot go on with it. -/
inductive Breaks : Part → List Token → Token → Prop where
  -- Expressions with operators, and calls.
  | loosened {t : Token} {ts : List Token} {c d : Stratum} (tighter : c.next? = some d)
      (inside : Breaks (.expression d) ts t) : Breaks (.expression c) ts t
  | rightOperand {s t : Token} {ts us : List Token} {c d : Stratum} {e : Ending} {l : Node}
      (tighter : c.next? = some d) (left : Derives (.expression c e) ts l)
      (operator : s.kind ∈ c.operators) (inside : Breaks (.expression d) us t) :
      Breaks (.expression c) (ts ++ s :: us) t
  | operand {s t : Token} {ts : List Token} (operator : s.kind ∈ Kind.prefixOperators)
      (inside : Breaks (.expression .unary) ts t) : Breaks (.expression .unary) (s :: ts) t
  | arguments {p t : Token} {ts us : List Token} {e : Ending} {n : Node}
      (function : Derives (.expression .call e) ts n) (opening : p.kind = .leftParen)
      (some : us = [] → t.kind ≠ .rightParen) (inside : Breaks .items us t) :
      Breaks (.expression .call) (ts ++ p :: us) t
  -- Atoms.
  | noStart {t : Token} (other : t.kind ∉ Kind.opening) : Breaks (.expression .atom) [] t
  | notInteger {t : Token} (number : t.kind = .int)
      (unreadable : Numeral.read t.literal.toList = .unreadable) : Breaks (.expression .atom) [] t
  | group {p t : Token} {ts : List Token} (opening : p.kind = .leftParen)
      (inside : Breaks (.expression .equality) ts t) : Breaks (.expression .atom) (p :: ts) t
  | groupClosing {p t : Token} {ts : List Token} {e : Ending} {n : Node}
      (opening : p.kind = .leftParen) (complete : Derives (.expression .equality e) ts n)
      (stops : e.Stops t.kind) (other : t.kind ≠ .rightParen) :
      Breaks (.expression .atom) (p :: ts) t
  | conditionOpening {w t : Token} (word : w.kind = .ifWord) (other : t.kind ≠ .leftParen) :
      Breaks (.expression .atom) [w] t
  | condition {w p t : Token} {ts : List Token} (word : w.kind = .ifWord)
      (opening : p.kind = .leftParen) (inside : Breaks (.expression .equality) ts t) :
      Breaks (.expression .atom) (w :: p :: ts) t
  | conditionClosing {w p t : Token} {ts : List Token} {e : Ending} {l : Node}
      (word : w.kind = .ifWord) (opening : p.kind = .leftParen)
      (complete : Derives (.expression .equality e) ts l) (stops : e.Stops t.kind)
      (other : t.kind ≠ .rightParen) : Breaks (.expression .atom) (w :: p :: ts) t
  | consequenceOpening {w p p' t : Token} {ts : List Token} {e : Ending} {l : Node}
      (word : w.kind = .ifWord) (opening : p.kind = .leftParen)
      (condition : Derives (.expression .equality e) ts l) (closing : p'.kind = .rightParen)
      (other : t.kind ≠ .leftBrace) : Breaks (.expression .atom) (w :: p :: (ts ++ [p'])) t
  | consequence {w p p' t : Token} {ts us : List Token} {e : Ending} {l : Node}
      (word : w.kind = .ifWord) (opening : p.kind = .leftParen)
      (condition : Derives (.expression .equality e) ts l) (closing : p'.kind = .rightParen)
      (inside : Breaks .block us t) : Breaks (.expression .atom) (w :: p :: (ts ++ p' :: us)) t
  | alternativeOpening {w w' p p' t : Token} {ts us : List Token} {e : Ending} {l m : Node}
      (word : w.kind = .ifWord) (opening : p.kind = .leftParen)
      (condition : Derives (.expression .equality e) ts l) (closing : p'.kind = .rightParen)
      (consequence : Derives .block us m) (otherwise : w'.kind = .elseWord)
      (other : t.kind ≠ .leftBrace) :
      Breaks (.expression .atom) (w :: p :: (ts ++ p' :: (us ++ [w']))) t
  | alternative {w w' p p' t : Token} {ts us vs : List Token} {e : Ending} {l m : Node}
      (word : w.kind = .ifWord) (opening : p.kind = .leftParen)
      (condition : Derives (.expression .equality e) ts l) (closing : p'.kind = .rightParen)
      (consequence : Derives .block us m) (otherwise : w'.kind = .elseWord)
      (inside : Breaks .block vs t) :
      Breaks (.expression .atom) (w :: p :: (ts ++ p' :: (us ++ w' :: vs))) t
  | parametersOpening {w t : Token} (word : w.kind = .functionWord)
      (other : t.kind ≠ .leftParen) : Breaks (.expression .atom) [w] t
  | parameters {w p t : Token} {ts : List Token} (word : w.kind = .functionWord)
      (opening : p.kind = .leftParen) (some : ts = [] → t.kind ≠ .rightParen)
      (inside : Breaks .names ts t) : Breaks (.expression .atom) (w :: p :: ts) t
  | bodyOpening {w p p' t : Token} {ts : List Token} {ns : List Node}
      (word : w.kind = .functionWord) (opening : p.kind = .leftParen)
      (parameters : Derives .parameters ts ns) (closing : p'.kind = .rightParen)
      (other : t.kind ≠ .leftBrace) : Breaks (.expression .atom) (w :: p :: (ts ++ [p'])) t
  | body {w p p' t : Token} {ts us : List Token} {ns : List Node} (word : w.kind = .functionWord)
      (opening : p.kind = .leftParen) (parameters : Derives .parameters ts ns)
      (closing : p'.kind = .rightParen) (inside : Breaks .block us t) :
      Breaks (.expression .atom) (w :: p :: (ts ++ p' :: us)) t
  -- Lists.
  | firstItem {t : Token} {ts : List Token} (inside : Breaks (.expression .equality) ts t) :
      Breaks .items ts t
  | itemEnd {t : Token} {ts : List Token} {e : Ending} {n : Node}
      (complete : Derives (.expression .equality e) ts n) (stops : e.Stops t.kind)
      (noComma : t.kind ≠ .comma) (other : t.kind ≠ .rightParen) : Breaks .items ts t
  | laterItem {s t : Token} {ts us : List Token} {e : Ending} {n : Node}
      (first : Derives (.expression .equality e) ts n) (comma : s.kind = .comma)
      (inside : Breaks .items us t) : Breaks .items (ts ++ s :: us) t
  | noName {t : Token} (other : t.kind ≠ .ident) : Breaks .names [] t
  | nameEnd {i t : Token} (name : i.kind = .ident) (noComma : t.kind ≠ .comma)
      (other : t.kind ≠ .rightParen) : Breaks .names [i] t
  | laterName {i s t : Token} {us : List Token} (name : i.kind = .ident) (comma : s.kind = .comma)
      (inside : Breaks .names us t) : Breaks .names (i :: s :: us) t
  -- Statements.
  | noLetName {w t : Token} (word : w.kind = .letWord) (other : t.kind ≠ .ident) :
      Breaks .statement [w] t
  | noLetSign {w i t : Token} (word : w.kind = .letWord) (name : i.kind = .ident)
      (other : t.kind ≠ .assign) : Breaks .statement [w, i] t
  | letValue {w i s t : Token} {ts : List Token} (word : w.kind = .letWord)
      (name : i.kind = .ident) (sign : s.kind = .assign)
      (inside : Breaks (.expression .equality) ts t) : Breaks .statement (w :: i :: s :: ts) t
  | returnValue {w t : Token} {ts : List Token} (word : w.kind = .returnWord)
      (inside : Breaks (.expression .equality) ts t) : Breaks .statement (w :: ts) t
  | expressionStatement {t : Token} {ts : List Token}
      (other : ts = [] → t.kind ≠ .letWord ∧ t.kind ≠ .returnWord)
      (inside : Breaks (.expression .equality) ts t) : Breaks .statement ts t
  | firstStatement {t : Token} {ts : List Token} {closer : Kind}
      (more : ts = [] → t.kind ≠ closer ∧ t.kind ≠ .eof) (inside : Breaks .statement ts t) :
      Breaks (.statements closer) ts t
  | laterStatement {t : Token} {ts us : List Token} {e : Ending} {n : Node} {closer : Kind}
      (first : Derives (.statement e) ts n)
      (stops : ∀ u ∈ (us ++ [t]).head?,
        e.Stops u.kind ∧ (e ≠ .semicolon → u.kind ≠ .semicolon))
      (inside : Breaks (.statements closer) us t) : Breaks (.statements closer) (ts ++ us) t
  | block {o t : Token} {ts : List Token} (opening : o.kind = .leftBrace)
      (inside : Breaks (.statements .rightBrace) ts t) : Breaks .block (o :: ts) t
  | blockEnd {o t : Token} {ts : List Token} {ns : List Node} (opening : o.kind = .leftBrace)
      (complete : Derives .statements ts ns) (other : t.kind = .eof) : Breaks .block (o :: ts) t

/-- The kinds of the tokens that a part starts with. -/
def Part.leading : Part → List Kind
  | .expression _ | .items => Kind.opening
  | .names => [.ident]
  | .statement | .statements _ => Kind.leading
  | .block => [.leftBrace]

namespace Breaks

/-- What has been read when a part breaks starts as the part does. -/
theorem mem_leading {p : Part} {ts : List Token} {t : Token} (h : Breaks p ts t) :
    ∀ u ∈ ts.head?, u.kind ∈ p.leading := by
  have prefixed : ∀ k ∈ Kind.prefixOperators, k ∈ Kind.opening := by decide
  -- Behind something complete, that is what the part starts with.
  have behind : ∀ {ts : List Token} (us : List Token) {ks : List Kind},
      (∃ u vs, ts = u :: vs ∧ u.kind ∈ ks) → ∀ u ∈ (ts ++ us).head?, u.kind ∈ ks := by
    rintro _ us ks ⟨u, vs, rfl, hu⟩ u' hu'
    cases hu'
    exact hu
  induction h with
  | loosened _ _ ih => exact ih
  | rightOperand _ left => exact behind _ left.starts
  | operand operator =>
    rintro u ⟨⟩
    exact prefixed _ operator
  | arguments function => exact behind _ function.starts
  | firstItem _ ih => exact ih
  | itemEnd complete =>
    have h := behind [] complete.starts
    rwa [List.append_nil] at h
  | laterItem first => exact behind _ first.starts
  | nameEnd name | laterName name =>
    rintro u ⟨⟩
    exact List.mem_singleton.2 name
  | expressionStatement _ _ ih =>
    exact fun u hu => List.mem_cons_of_mem _ (List.mem_cons_of_mem _ (ih u hu))
  | firstStatement _ _ ih => exact ih
  | laterStatement first => exact behind _ first.starts
  | block opening | blockEnd opening =>
    rintro u ⟨⟩
    exact List.mem_singleton.2 opening
  | noStart | notInteger | noName => nofun
  | group opening | groupClosing opening =>
    rintro u ⟨⟩
    rw [opening]
    decide
  | conditionOpening word | condition word | conditionClosing word | consequenceOpening word
  | consequence word | alternativeOpening word | alternative word | parametersOpening word
  | parameters word | bodyOpening word | body word | noLetName word | noLetSign word
  | letValue word | returnValue word =>
    rintro u ⟨⟩
    rw [word]
    decide

/-! ## Completions -/

/-- A token of a kind, to complete a text with. -/
abbrev filler (k : Kind) : Token := .unplaced k ""

/-- A name is an expression of every stratum, so it completes whatever lacks an operand. -/
theorem derives_name (c : Stratum) :
    Derives (.expression c .other) [filler .ident] (.identifier (filler .ident) "") :=
  (Derives.identifier rfl).loosen (by cases c <;> decide)

/-- A block, to complete a text with. -/
abbrev emptyBlock : List Token := [filler .leftBrace, filler .rightBrace]

/-- An empty block completes whatever lacks a block. -/
theorem derives_emptyBlock :
    Derives .block emptyBlock (.blockStatement (filler .leftBrace) []) :=
  .block rfl .noStatements rfl

/-- The second tokens complete the first ones to a whole part of the kind. Where a statement is
still to come, none has to. -/
def Completes : Part → List Token → List Token → Prop
  | .expression c, ts, zs => ∃ e n, Derives (.expression c e) (ts ++ zs) n
  | .items, ts, zs => ∃ ns, Derives .items (ts ++ zs) ns
  | .names, ts, zs => ∃ ns, Derives .names (ts ++ zs) ns
  | .statement, ts, zs => ∃ n, Derives (.statement .semicolon) (ts ++ zs) n
  | .statements _, ts, zs => (∃ ns, Derives .statements (ts ++ zs) ns) ∧ (ts = [] → zs = [])
  | .block, ts, zs => ∃ n, Derives .block (ts ++ zs) n

namespace Completes

variable {c d : Stratum} {e : Ending} {k : Kind} {l m n : Node} {ns : List Node}
  {i o p p' s t w w' : Token} {ts us zs : List Token}

/-! ### Expressions -/

/-- A complete expression lacks nothing. -/
theorem of_derives (h : Derives (.expression c e) ts n) : Completes (.expression c) ts [] :=
  ⟨e, n, by rwa [List.append_nil]⟩

/-- Before the first token of an expression a name completes it. -/
theorem name (c : Stratum) : Completes (.expression c) [] [filler .ident] :=
  ⟨_, _, derives_name c⟩

/-- What completes an expression of a tighter stratum completes one of a looser stratum. -/
theorem loosened (h : Completes (.expression d) ts zs) (tighter : c.next? = some d) :
    Completes (.expression c) ts zs := by
  obtain ⟨e, n, hn⟩ := h
  exact ⟨e, n, .loosened tighter hn⟩

/-- What completes the right operand completes the operation. -/
theorem rightOperand (h : Completes (.expression d) us zs) (tighter : c.next? = some d)
    (left : Derives (.expression c e) ts l) (operator : s.kind ∈ c.operators) :
    Completes (.expression c) (ts ++ s :: us) zs := by
  obtain ⟨e, n, hn⟩ := h
  have whole := Derives.infixExpression tighter left operator hn
  exact ⟨e, _, by simpa using whole⟩

/-- What completes the operand completes the operation that a prefix starts. -/
theorem operand (h : Completes (.expression .unary) ts zs)
    (operator : s.kind ∈ Kind.prefixOperators) : Completes (.expression .unary) (s :: ts) zs := by
  obtain ⟨e, n, hn⟩ := h
  exact ⟨e, _, .prefixExpression operator hn⟩

/-- A call lacks its closing parenthesis, too. -/
theorem arguments (h : Completes .items us zs) (function : Derives (.expression .call e) ts n)
    (opening : p.kind = .leftParen) :
    Completes (.expression .call) (ts ++ p :: us) (zs ++ [filler .rightParen]) := by
  obtain ⟨ns, hns⟩ := h
  have whole := Derives.callExpression function opening (.someArguments hns)
    (rfl : (filler .rightParen).kind = .rightParen)
  exact ⟨_, _, by simpa using whole⟩

/-- A group lacks its closing parenthesis, too. -/
theorem group (h : Completes (.expression .equality) ts zs) (opening : p.kind = .leftParen) :
    Completes (.expression .atom) (p :: ts) (zs ++ [filler .rightParen]) := by
  obtain ⟨e, n, hn⟩ := h
  have whole := Derives.group opening hn (rfl : (filler .rightParen).kind = .rightParen)
  exact ⟨_, _, by simpa using whole⟩

/-- Behind the condition an empty block completes a conditional. -/
theorem condition (h : Completes (.expression .equality) ts zs) (word : w.kind = .ifWord)
    (opening : p.kind = .leftParen) :
    Completes (.expression .atom) (w :: p :: ts) (zs ++ filler .rightParen :: emptyBlock) := by
  obtain ⟨e, n, hn⟩ := h
  have whole := Derives.conditional word opening hn
    (rfl : (filler .rightParen).kind = .rightParen) derives_emptyBlock
  exact ⟨_, _, by simpa using whole⟩

/-- What completes the consequence completes the conditional, which then has no alternative. -/
theorem consequence (h : Completes .block us zs) (word : w.kind = .ifWord)
    (opening : p.kind = .leftParen) (condition : Derives (.expression .equality e) ts l)
    (closing : p'.kind = .rightParen) :
    Completes (.expression .atom) (w :: p :: (ts ++ p' :: us)) zs := by
  obtain ⟨n, hn⟩ := h
  have whole := Derives.conditional word opening condition closing hn
  exact ⟨_, _, by simpa using whole⟩

/-- What completes the alternative completes the conditional. -/
theorem alternative {vs : List Token} (h : Completes .block vs zs) (word : w.kind = .ifWord)
    (opening : p.kind = .leftParen) (condition : Derives (.expression .equality e) ts l)
    (closing : p'.kind = .rightParen) (consequence : Derives .block us m)
    (otherwise : w'.kind = .elseWord) :
    Completes (.expression .atom) (w :: p :: (ts ++ p' :: (us ++ w' :: vs))) zs := by
  obtain ⟨n, hn⟩ := h
  have whole := Derives.alternative word opening condition closing consequence otherwise hn
  exact ⟨_, _, by simpa using whole⟩

/-- Behind the parameters an empty block completes a function. -/
theorem parameters (h : Completes .names ts zs) (word : w.kind = .functionWord)
    (opening : p.kind = .leftParen) :
    Completes (.expression .atom) (w :: p :: ts) (zs ++ filler .rightParen :: emptyBlock) := by
  obtain ⟨ns, hns⟩ := h
  have whole := Derives.functionLiteral word opening (.someParameters hns)
    (rfl : (filler .rightParen).kind = .rightParen) derives_emptyBlock
  exact ⟨_, _, by simpa using whole⟩

/-- What completes the body completes the function. -/
theorem body (h : Completes .block us zs) (word : w.kind = .functionWord)
    (opening : p.kind = .leftParen) (parameters : Derives .parameters ts ns)
    (closing : p'.kind = .rightParen) :
    Completes (.expression .atom) (w :: p :: (ts ++ p' :: us)) zs := by
  obtain ⟨n, hn⟩ := h
  have whole := Derives.functionLiteral word opening parameters closing hn
  exact ⟨_, _, by simpa using whole⟩

/-! ### Lists, whose closing parenthesis is not part of them -/

/-- What completes the only expression of a list completes the list. -/
theorem firstItem (h : Completes (.expression .equality) ts zs) : Completes .items ts zs := by
  obtain ⟨e, n, hn⟩ := h
  exact ⟨_, .oneItem hn⟩

/-- What completes the rest of the expressions completes the list. -/
theorem laterItem (h : Completes .items us zs) (first : Derives (.expression .equality e) ts n)
    (comma : s.kind = .comma) : Completes .items (ts ++ s :: us) zs := by
  obtain ⟨ns, hns⟩ := h
  have whole := Derives.moreItems first comma hns
  exact ⟨_, by simpa using whole⟩

/-- What completes the rest of the names completes the list. -/
theorem laterName (h : Completes .names us zs) (name : i.kind = .ident) (comma : s.kind = .comma) :
    Completes .names (i :: s :: us) zs := by
  obtain ⟨ns, hns⟩ := h
  exact ⟨_, .moreNames name comma hns⟩

/-! ### Statements, each closed by a semicolon so that anything may stand behind it -/

/-- A statement that is open lacks its semicolon, too. -/
theorem closed (h : Derives (.statement e) (ts ++ zs) n) (isOpen : e ≠ .semicolon) :
    Completes .statement ts (zs ++ [filler .semicolon]) := by
  have whole := Derives.closedStatement h isOpen (rfl : (filler .semicolon).kind = .semicolon)
  exact ⟨n, by rwa [← List.append_assoc]⟩

/-- What completes the value completes the declaration, up to the semicolon. -/
theorem letValue (h : Completes (.expression .equality) ts zs) (word : w.kind = .letWord)
    (name : i.kind = .ident) (sign : s.kind = .assign) :
    Completes .statement (w :: i :: s :: ts) (zs ++ [filler .semicolon]) := by
  obtain ⟨e, n, hn⟩ := h
  exact closed (.letStatement word name sign hn) (hn.ending_ne_semicolon rfl)

/-- What completes the value completes the return, up to the semicolon. -/
theorem returnValue (h : Completes (.expression .equality) ts zs) (word : w.kind = .returnWord) :
    Completes .statement (w :: ts) (zs ++ [filler .semicolon]) := by
  obtain ⟨e, n, hn⟩ := h
  exact closed (.returnStatement word hn) (hn.ending_ne_semicolon rfl)

/-- What completes an expression completes the statement that it is, up to the semicolon. -/
theorem expressionStatement (h : Completes (.expression .equality) ts zs) :
    Completes .statement ts (zs ++ [filler .semicolon]) := by
  obtain ⟨e, n, hn⟩ := h
  -- the first token is that of the statement
  obtain ⟨u, us, hus, -⟩ := hn.starts
  have hstatement : Derives (.statement e) (ts ++ zs) (.expressionStatement u n) := by
    rw [hus] at hn ⊢
    exact .expressionStatement hn
  exact closed hstatement (hn.ending_ne_semicolon rfl)

/-- What completes the statement that has been started completes the statements. -/
theorem firstStatement (h : Completes .statement ts zs) (hts : ts ≠ []) :
    Completes (.statements k) ts zs := by
  obtain ⟨n, hn⟩ := h
  refine ⟨⟨[n], ?_⟩, fun hnone => absurd hnone hts⟩
  simpa using Derives.moreStatements hn .noStatements fun he => absurd rfl he

/-- A statement may stand before the rest, once the rest is complete. -/
theorem laterStatement (h : Completes (.statements k) us zs) (first : Derives (.statement e) ts n)
    (stops : ∀ u ∈ (us ++ [t]).head?, e.Stops u.kind ∧ (e ≠ .semicolon → u.kind ≠ .semicolon)) :
    Completes (.statements k) (ts ++ us) zs := by
  obtain ⟨⟨ns, hns⟩, hempty⟩ := h
  refine ⟨⟨n :: ns, ?_⟩, fun hnone => ?_⟩
  · rw [List.append_assoc]
    refine .moreStatements first hns fun he u hu => ?_
    have hlow : ∀ k : Kind, k.level ≤ 1 → k ≠ .minus ∧ k ≠ .leftParen := by
      intro k hk
      exact ⟨fun h => absurd (h ▸ hk) (by decide), fun h => absurd (h ▸ hk) (by decide)⟩
    cases us with
    | nil =>
      -- the token that the text breaks at is gone, and nothing was put in its place
      rw [hempty rfl] at hu
      cases hu
    | cons v us => exact hlow _ ((stops u hu).1 he).1
  · -- a statement is not empty
    obtain ⟨u, us', hus, -⟩ := first.starts
    rw [hus] at hnone
    cases hnone

/-- A block lacks its closing brace, too. -/
theorem block (h : Completes (.statements k) ts zs) (opening : o.kind = .leftBrace) :
    Completes .block (o :: ts) (zs ++ [filler .rightBrace]) := by
  obtain ⟨⟨ns, hns⟩, -⟩ := h
  have whole := Derives.block opening hns (rfl : (filler .rightBrace).kind = .rightBrace)
  exact ⟨_, by simpa using whole⟩

end Completes

/-- What has been read when a part breaks can be completed. -/
theorem exists_completion {p : Part} {ts : List Token} {t : Token} (h : Breaks p ts t) :
    ∃ zs, Completes p ts zs := by
  have noBlock : Completes .block [] emptyBlock := ⟨_, derives_emptyBlock⟩
  -- a part that breaks behind what was complete is completed as one that breaks inside of it
  induction h with
  | loosened tighter _ ih =>
    obtain ⟨_, h⟩ := ih
    exact ⟨_, h.loosened tighter⟩
  | rightOperand tighter left operator _ ih =>
    obtain ⟨_, h⟩ := ih
    exact ⟨_, h.rightOperand tighter left operator⟩
  | operand operator _ ih =>
    obtain ⟨_, h⟩ := ih
    exact ⟨_, h.operand operator⟩
  | arguments function opening _ _ ih =>
    obtain ⟨_, h⟩ := ih
    exact ⟨_, h.arguments function opening⟩
  | noStart | notInteger => exact ⟨_, .name .atom⟩
  | group opening _ ih =>
    obtain ⟨_, h⟩ := ih
    exact ⟨_, h.group opening⟩
  | groupClosing opening complete => exact ⟨_, (Completes.of_derives complete).group opening⟩
  | conditionOpening word =>
    exact ⟨filler .leftParen :: filler .ident :: filler .rightParen :: emptyBlock, _, _,
      .conditional word rfl (derives_name _) rfl derives_emptyBlock⟩
  | condition word opening _ ih =>
    obtain ⟨_, h⟩ := ih
    exact ⟨_, h.condition word opening⟩
  | conditionClosing word opening complete =>
    exact ⟨_, (Completes.of_derives complete).condition word opening⟩
  | consequenceOpening word opening condition closing =>
    exact ⟨_, noBlock.consequence word opening condition closing⟩
  | consequence word opening condition closing _ ih =>
    obtain ⟨_, h⟩ := ih
    exact ⟨_, h.consequence word opening condition closing⟩
  | alternativeOpening word opening condition closing consequence otherwise =>
    exact ⟨_, noBlock.alternative word opening condition closing consequence otherwise⟩
  | alternative word opening condition closing consequence otherwise _ ih =>
    obtain ⟨_, h⟩ := ih
    exact ⟨_, h.alternative word opening condition closing consequence otherwise⟩
  | parametersOpening word =>
    exact ⟨filler .leftParen :: filler .rightParen :: emptyBlock, _, _,
      .functionLiteral word rfl .noParameters rfl derives_emptyBlock⟩
  | parameters word opening _ _ ih =>
    obtain ⟨_, h⟩ := ih
    exact ⟨_, h.parameters word opening⟩
  | bodyOpening word opening parameters closing =>
    exact ⟨_, noBlock.body word opening parameters closing⟩
  | body word opening parameters closing _ ih =>
    obtain ⟨_, h⟩ := ih
    exact ⟨_, h.body word opening parameters closing⟩
  | firstItem _ ih =>
    obtain ⟨_, h⟩ := ih
    exact ⟨_, h.firstItem⟩
  | itemEnd complete => exact ⟨_, (Completes.of_derives complete).firstItem⟩
  | laterItem first comma _ ih =>
    obtain ⟨_, h⟩ := ih
    exact ⟨_, h.laterItem first comma⟩
  | noName => exact ⟨[filler .ident], _, .oneName rfl⟩
  | nameEnd name => exact ⟨[], _, .oneName name⟩
  | laterName name comma _ ih =>
    obtain ⟨_, h⟩ := ih
    exact ⟨_, h.laterName name comma⟩
  | noLetName word =>
    exact ⟨[filler .ident, filler .assign, filler .ident, filler .semicolon], _,
      .closedStatement (.letStatement word rfl rfl (derives_name _)) (by decide) rfl⟩
  | noLetSign word name =>
    exact ⟨[filler .assign, filler .ident, filler .semicolon], _,
      .closedStatement (.letStatement word name rfl (derives_name _)) (by decide) rfl⟩
  | letValue word name sign _ ih =>
    obtain ⟨_, h⟩ := ih
    exact ⟨_, h.letValue word name sign⟩
  | returnValue word _ ih =>
    obtain ⟨_, h⟩ := ih
    exact ⟨_, h.returnValue word⟩
  | expressionStatement _ _ ih =>
    obtain ⟨_, h⟩ := ih
    exact ⟨_, h.expressionStatement⟩
  | @firstStatement t ts _ _ _ ih =>
    obtain ⟨_, h⟩ := ih
    -- before the first token of a statement none has to come
    by_cases hts : ts = []
    · exact ⟨[], ⟨[], by rw [hts]; exact .noStatements⟩, fun _ => rfl⟩
    · exact ⟨_, h.firstStatement hts⟩
  | laterStatement first stops _ ih =>
    obtain ⟨_, h⟩ := ih
    exact ⟨_, h.laterStatement first stops⟩
  | block opening _ ih =>
    obtain ⟨_, h⟩ := ih
    exact ⟨_, h.block opening⟩
  | blockEnd opening complete => exact ⟨[filler .rightBrace], _, .block opening complete rfl⟩

end Breaks

end Pratt
