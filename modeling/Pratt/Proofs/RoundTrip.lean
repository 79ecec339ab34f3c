import Pratt.Node.Render
import Pratt.Node.Same
import Pratt.Node.Walk
import Pratt.Proofs.Lexing
import Pratt.Proofs.Soundness

/-!
# Pratt — trees are read back from their text

The text of a tree (`Node.render`) without conditionals and functions is read
back as a tree that is the same, with the same text, provided that statements
which end in nothing keep apart from those behind them (`Node.Separated`).

The tree is given with a derivation of the tokens it was made from, and those
tokens are what a cursor gives, so that each has the kind that its own text has
(`Token.Lexical`). By induction on the derivation two things are known of the text
of each part (`Symbol.Rereads`): into which lexemes it falls, with any text behind
it that does not go on with it, and that tokens with these lexemes can be derived
again, with such a tree. Every operator is written between parentheses of its own,
so the new derivation needs no strata: operands are groups, words or calls, and fit
anywhere.

Main results:

* `rereads_of_derives`: the induction, with one lemma `rereads_...` for each
  production.
* `parseProgram_render`: the text of a program is parsed without a diagnostic again,
  to a tree that is the same and has the same text. From the lexemes to the tree
  this is `parseProgram_of_reads`.
-/

namespace Pratt

/-! ## Trees that can be read back -/

namespace Node

/-- Conditionals and functions, whose blocks are written without their braces. -/
def hasBlock : Node → Bool
  | .ifExpression _ _ _ _ | .functionLiteral _ _ _ => true
  | _ => false

/-- There is no conditional and no function in the tree. -/
def Plain (n : Node) : Prop :=
  ∀ m ∈ n.walk, m.hasBlock = false

/-- The second statement keeps apart from the first one, also when it is written right behind. A
`let` and a `return` end in a semicolon, an expression may not. -/
def Separated (m n : Node) : Prop :=
  ∀ t e, m = .expressionStatement t e →
    (m.render.toList.getLast? = some ')' ∧ n.render.toList.head? ≠ some '(') ∨
      (∃ u i, e = some (.integerLiteral u i)) ∧
        ∃ c, n.render.toList.head? = some c ∧ isWordStart c = true

/-- The text of the expression does not go on with the character. -/
def EndsBefore : Node → Char → Prop
  | .identifier _ _, c | .boolean _ _, c => isWordChar c = false
  | .integerLiteral _ _, c => c.isDigit = false
  | _, _ => True

/-- The text of the statement does not go on with the character. -/
def ClosesBefore : Node → Char → Prop
  | .expressionStatement _ (some n), c => n.EndsBefore c
  | _, _ => True

/-- No expression goes on with a character that is no part of a word. -/
theorem endsBefore_of_isWordChar {c : Char} (hc : isWordChar c = false) (n : Node) :
    n.EndsBefore c := by
  unfold EndsBefore
  split
  · exact hc
  · exact hc
  · exact isDigit_eq_false_of_isWordChar hc
  · trivial

/-- Children none of which is absent are compared as nodes are. -/
theorem sameChildren_map_some (ms ns : List Node) :
    sameChildren (ms.map some) (ns.map some) = sameEach ms ns := by
  -- item by item in both lists
  induction ms generalizing ns with
  | nil => cases ns <;> simp [sameChildren, sameEach]
  | cons m ms ih => cases ns <;> simp [sameChildren, sameEach, sameChild, ih]

/-- What is plain is plain throughout. -/
theorem Plain.below {m n : Node} (h : n.Plain) (hm : ∀ k ∈ m.walk, k ∈ n.walk) : m.Plain :=
  fun k hk => h k (hm k hk)

end Node

/-! ## Lexemes of signs -/

/-- An opening parenthesis. -/
abbrev Lexeme.opening : Lexeme := ⟨.leftParen, ['(']⟩

/-- A closing parenthesis. -/
abbrev Lexeme.closing : Lexeme := ⟨.rightParen, [')']⟩

namespace Spells

variable {text text' : List Char} {xs ys : List Lexeme} {free free' : Char → Prop}

/-- A sign of which no longer one starts with it. -/
theorem sign {x : Lexeme} (h : lexemeAt? x.text = some x) (known : x.kind ≠ .illegal)
    (hk : ∀ k ∈ [Kind.int, .assign, .bang] ++ Kind.words, x.kind ≠ k) :
    Spells x.text [x] fun _ => True := by
  -- what would go on with a lexeme is a letter, a digit or an equals sign
  refine (Spells.lexeme h known).mono fun c _ => ⟨fun hmem => ?_, fun hint => ?_, fun hsign => ?_⟩
  · exact absurd rfl (hk _ (List.mem_append_right _ hmem))
  · exact absurd hint (hk .int (by decide))
  · rcases hsign with hassign | hbang
    · exact absurd hassign (hk .assign (by decide))
    · exact absurd hbang (hk .bang (by decide))

/-- An opening parenthesis may have anything behind it. -/
theorem opening : Spells ['('] [Lexeme.opening] fun _ => True :=
  .sign (x := .opening) (by decide) (by decide) (by decide)

/-- A closing parenthesis may have anything behind it. -/
theorem closing : Spells [')'] [Lexeme.closing] fun _ => True :=
  .sign (x := .closing) (by decide) (by decide) (by decide)

/-- A text between parentheses. -/
theorem parenthesized (h : Spells text xs free) (hfree : free ')') :
    Spells ('(' :: (text ++ [')'])) (.opening :: (xs ++ [.closing])) fun _ => True := by
  -- the closing parenthesis comes where the text may end
  have inside := h.append closing ⟨')', [], rfl, hfree⟩
  obtain ⟨c, tail, htext⟩ : ∃ c tail, text ++ [')'] = c :: tail :=
    List.exists_cons_of_ne_nil (by simp)
  exact opening.append inside ⟨c, tail, htext, trivial⟩

/-- Two parts with a space between them. -/
theorem spaced (h : Spells text xs free) (hfree : free ' ') (h' : Spells text' ys free') :
    Spells (text ++ ' ' :: text') (xs ++ ys) free' :=
  h.append h'.space ⟨' ', text', rfl, hfree⟩

end Spells

namespace Token

variable {t u : Token}

/-- Tokens have the same lexeme if they have the same kind and the same text. -/
theorem lexeme_eq_iff : u.lexeme = t.lexeme ↔ u.kind = t.kind ∧ u.literal = t.literal := by
  simp [lexeme, String.toList_inj]

/-- The kind of a token is that of its lexeme. -/
theorem kind_of_lexeme {x : Lexeme} (h : t.lexeme = x) : t.kind = x.kind :=
  congrArg Lexeme.kind h

end Token

/-- Tokens that make a text between parentheses. -/
theorem exists_parens_of_map_lexeme {us : List Token} {xs : List Lexeme}
    (h : us.map Token.lexeme = .opening :: (xs ++ [.closing])) :
    ∃ p p' vs, us = p :: (vs ++ [p']) ∧ p.kind = .leftParen ∧ p'.kind = .rightParen ∧
      vs.map Token.lexeme = xs := by
  obtain ⟨p, rest, rfl, hp, hrest⟩ := List.map_eq_cons_iff.1 h
  obtain ⟨vs, last, rfl, hvs, hlast⟩ := List.map_eq_append_iff.1 hrest
  obtain ⟨p', rfl, hp'⟩ := List.map_eq_singleton_iff.1 hlast
  exact ⟨p, p', vs, rfl, Token.kind_of_lexeme hp, Token.kind_of_lexeme hp', hvs⟩

/-! ## The text of a tree -/

/-- How the text of a tree starts, and the first lexeme of it: never so that what stands before goes
on with it, unless it is an opening parenthesis. -/
def Node.Begins (n : Node) (xs : List Lexeme) : Prop :=
  ∃ x ys c text, xs = x :: ys ∧ n.render.toList = c :: text ∧ c ≠ '=' ∧ x.kind ≠ .minus ∧
    (x.kind = .leftParen → c = '(')

/-- The text of the tree falls into the lexemes. -/
structure Node.Written (n : Node) (xs : List Lexeme) (free : Char → Prop) : Prop where
  spells : Spells n.render.toList xs free
  begins : n.Begins xs
  closed : n.render.toList.getLast? = some ')' → ∀ c, free c

/-- Whatever tokens have the lexemes, `D` holds of them and of a tree that is the same and has the
same text. -/
def Node.ReadsBack (n : Node) (xs : List Lexeme) (D : List Token → Node → Prop) : Prop :=
  ∀ us : List Token, us.map Token.lexeme = xs → ∃ m, D us m ∧ m.same n = true ∧ m.render = n.render

/-- The same for several trees. -/
def Node.EachReadsBack (ns : List Node) (xs : List Lexeme) (D : List Token → List Node → Prop) :
    Prop :=
  ∀ us : List Token, us.map Token.lexeme = xs → ∃ ms, D us ms ∧ sameEach ms ns = true ∧
    ms.map render = ns.map render

namespace Node

variable {n : Node} {xs : List Lexeme} {free free' : Char → Prop}

/-- A text that starts with a word or a number. -/
theorem begins_of_word {t : Token} {text : List Char} (ht : t.Lexical)
    (hk : t.kind = .int ∨ t.kind ∈ Kind.words)
    (hn : n.render.toList = t.literal.toList ++ text) : n.Begins (t.lexeme :: xs) := by
  have known : ∀ k ∈ Kind.int :: Kind.words, k ≠ .minus ∧ k ≠ .leftParen := by decide
  obtain ⟨hminus, hparen⟩ := known t.kind (List.mem_cons.2 hk)
  obtain ⟨c, rest, -, hc, -⟩ := exists_cons_of_lexemeAt? ht
  have htext : t.literal.toList = c :: rest := hc
  have hmem : c ∈ t.literal.toList := by
    rw [htext]
    exact List.mem_cons_self
  have hword := isWordChar_of_lexemeAt? ht hk c hmem
  refine ⟨t.lexeme, xs, c, rest ++ text, rfl, by rw [hn, htext]; rfl, ?_, hminus,
    fun h => absurd h hparen⟩
  -- the equals sign is no part of a word
  rintro rfl
  exact absurd hword (by decide)

/-- A tree that is written as one word or number. -/
theorem written_of_word {t : Token} (ht : t.Lexical) (hk : t.kind = .int ∨ t.kind ∈ Kind.words)
    (hn : n.render = t.literal) (hfree : ∀ c, free c → t.kind.EndsBefore c) :
    n.Written [t.lexeme] free := by
  have hillegal : t.kind ≠ .illegal := by
    have known : ∀ k ∈ Kind.int :: Kind.words, k ≠ .illegal := by decide
    exact known t.kind (List.mem_cons.2 hk)
  refine ⟨?_, begins_of_word ht hk (by rw [hn, List.append_nil]), fun hlast => ?_⟩
  · rw [hn]
    exact (Spells.lexeme (x := t.lexeme) ht hillegal).mono hfree
  · -- no word ends in a parenthesis
    rw [hn] at hlast
    have hchar := isWordChar_of_lexemeAt? ht hk ')' (List.mem_of_getLast? hlast)
    exact absurd hchar (by decide)

/-- A tree that is written between parentheses. -/
theorem written_of_parens {text : List Char} (h : Spells text xs free') (hfree : free' ')')
    (hn : n.render.toList = '(' :: (text ++ [')'])) (hall : ∀ c, free c) :
    n.Written (.opening :: (xs ++ [.closing])) free := by
  refine ⟨?_, ⟨.opening, _, '(', _, rfl, hn, by decide, by decide, fun _ => rfl⟩, fun _ => hall⟩
  rw [hn]
  exact (h.parenthesized hfree).mono fun _ _ => trivial

end Node

/-! ## Reading back -/

/-- The text of what is derived from the symbol can be read back. -/
def Symbol.Rereads : (a : Symbol) → a.Tree → Prop
  | .expression _ _, n => n.Plain → ∃ xs, n.Written xs n.EndsBefore ∧
      n.ReadsBack xs (Derives (.expression .call .other))
  | .statement _, n => n.Plain → ∃ xs, n.Written xs n.ClosesBefore ∧
      n.ReadsBack xs fun us m => ∃ e, Derives (.statement e) us m ∧
        (e ≠ .semicolon → ∃ t v, n = .expressionStatement t v)
  | .items, ns => (∀ n ∈ ns, n.Plain) → ∃ xs,
      Spells (", ".intercalate (ns.map Node.render)).toList xs (fun c => isWordChar c = false) ∧
        Node.EachReadsBack ns xs (Derives .items)
  | .arguments, ns => (∀ n ∈ ns, n.Plain) → ∃ xs,
      Spells (", ".intercalate (ns.map Node.render)).toList xs (fun c => isWordChar c = false) ∧
        Node.EachReadsBack ns xs (Derives .arguments)
  | .statements, ns => (∀ n ∈ ns, n.Plain) → (∀ m n, [m, n] <:+: ns → m.Separated n) → ∃ xs,
      Lexes (String.join (ns.map Node.render)).toList xs ∧
        (ns = [] ∧ xs = [] ∨ ∃ n ∈ ns.head?, n.Begins xs) ∧
        Node.EachReadsBack ns xs (Derives .statements)
  | .program, _ | .block, _ | .parameters, _ | .names, _ => True

/-- Only strata below the unary one have infix operators. -/
theorem Stratum.rank_lt_of_mem_operators {c : Stratum} {k : Kind} (hk : k ∈ c.operators) :
    c.rank < unary.rank := by
  cases c <;> first | decide | exact absurd hk List.not_mem_nil

/-- A tree that is written as one word or number is read back as such. -/
theorem rereads_of_word {c : Stratum} {e : Ending} {t : Token} {n : Node} (f : Token → Node)
    (ht : t.Lexical) (hk : t.kind = .int ∨ t.kind ∈ Kind.words) (hn : n.render = t.literal)
    (hfree : ∀ c, n.EndsBefore c → t.kind.EndsBefore c)
    (hf : ∀ u : Token, u.kind = t.kind → u.literal = t.literal →
      Derives (.expression .atom .other) [u] (f u) ∧ (f u).same n = true ∧
        (f u).render = u.literal) :
    Symbol.Rereads (.expression c e) n := by
  intro _
  refine ⟨[t.lexeme], Node.written_of_word ht hk hn hfree, fun us hus => ?_⟩
  obtain ⟨u, rfl, hu⟩ := List.map_eq_singleton_iff.1 hus
  obtain ⟨hkind, hliteral⟩ := Token.lexeme_eq_iff.1 hu
  obtain ⟨hderives, hsame, hrender⟩ := hf u hkind hliteral
  exact ⟨f u, hderives.loosen (by decide), hsame, by rw [hrender, hn, hliteral]⟩

/-- A name is read back as a name. -/
theorem rereads_identifier {c : Stratum} {e : Ending} {t : Token} (ht : t.Lexical)
    (hk : t.kind = .ident) : Symbol.Rereads (.expression c e) (.identifier t t.literal) := by
  -- names are words, so that they end before all that is no part of a word
  have hwords : t.kind ∈ Kind.words := hk ▸ List.mem_cons_self
  refine rereads_of_word (fun u => .identifier u u.literal) ht (.inr hwords) rfl
    (fun c hc => Kind.endsBefore_of_mem_words hwords hc) fun u hkind hliteral => ?_
  exact ⟨.identifier (hkind.trans hk), by simp [Node.same, hliteral], rfl⟩

/-- A truth value is read back as the word for it. -/
theorem rereads_boolean {c : Stratum} {e : Ending} {t : Token} {b : Bool} (ht : t.Lexical)
    (hk : t.kind = if b then .trueWord else .falseWord) :
    Symbol.Rereads (.expression c e) (.boolean t b) := by
  have hwords : t.kind ∈ Kind.words := by
    rw [hk]
    cases b <;> decide
  refine rereads_of_word (fun u => .boolean u b) ht (.inr hwords) rfl
    (fun c hc => Kind.endsBefore_of_mem_words hwords hc) fun u hkind hliteral => ?_
  refine ⟨?_, by simp [Node.same], rfl⟩
  cases b with
  | true => exact .trueWord (hkind.trans hk)
  | false => exact .falseWord (hkind.trans hk)

/-- An integer is written with the digits it was read from, and these make it again. -/
theorem rereads_integerLiteral {c : Stratum} {e : Ending} {t : Token} (ht : t.Lexical)
    (hk : t.kind = .int) (digits : Numeral.isNumeral t.literal.toList = true)
    (short : t.literal.toList.length ≤ Numeral.mostDigits)
    (small : Numeral.value t.literal.toList ≤ Numeral.greatest) :
    Symbol.Rereads (.expression c e) (.integerLiteral t (Numeral.value t.literal.toList)) := by
  refine rereads_of_word (fun u => .integerLiteral u (Numeral.value u.literal.toList)) ht (.inl hk)
    rfl (fun c hc => ?_) fun u hkind hliteral => ?_
  · rw [hk]
    exact ⟨fun h => absurd h (by decide), fun _ => hc, fun h => absurd h (by decide)⟩
  -- the conditions on a literal are about its text
  · rw [← hliteral] at digits short small
    exact ⟨.integerLiteral (hkind.trans hk) digits short small, by simp [Node.same, hliteral], rfl⟩

/-! ### Operators and calls -/

/-- A tree that is written between parentheses is read back as a group. -/
theorem rereads_of_parens {c : Stratum} {e : Ending} {n : Node} {text : List Char}
    {xs : List Lexeme} {free : Char → Prop} (h : Spells text xs free) (hfree : free ')')
    (hn : n.render.toList = '(' :: (text ++ [')'])) (hall : ∀ c, n.EndsBefore c)
    (hback : n.ReadsBack xs fun us m => ∃ d e', Derives (.expression d e') us m) :
    Symbol.Rereads (.expression c e) n := by
  refine fun _ => ⟨_, Node.written_of_parens h hfree hn hall, fun us hus => ?_⟩
  obtain ⟨p, p', vs, rfl, hp, hp', hvs⟩ := exists_parens_of_map_lexeme hus
  obtain ⟨m, ⟨d, e', hderives⟩, hsame, hrender⟩ := hback vs hvs
  have group := Derives.group hp (hderives.loosen (c := .equality) (Nat.zero_le _)) hp'
  exact ⟨m, group.loosen (by decide), hsame, hrender⟩

/-- An operation with a prefix operator is read back as a group around it. -/
theorem rereads_prefixExpression {c : Stratum} {e e' : Ending} {s : Token} {r : Node}
    (hs : s.Lexical) (hk : s.kind ∈ Kind.prefixOperators)
    (right : Symbol.Rereads (.expression .unary e) r) :
    Symbol.Rereads (.expression c e') (.prefixExpression s s.literal r) := by
  intro hplain
  obtain ⟨xs, hr, hback⟩ := right (hplain.below (by simp +contextual [Node.walk, Node.walkChild]))
  have table : ∀ k ∈ Kind.prefixOperators, k ∉ Kind.words ∧ k ≠ .int ∧ k ≠ .illegal := by decide
  obtain ⟨hwords, hint, hillegal⟩ := table _ hk
  obtain ⟨-, -, d, text, -, htext, hd, -⟩ := hr.begins
  -- the operator does not go on with its operand, which starts with no equals sign
  have inside := (Spells.lexeme (x := s.lexeme) hs hillegal).append hr.spells
    ⟨d, text, htext, Kind.endsBefore_of_notMem_words hwords hint hd⟩
  refine rereads_of_parens (c := c) (e := e') inside
    (Node.endsBefore_of_isWordChar (by decide) r) ?_ (fun _ => trivial) (fun us hus => ?_) hplain
  · simp [Node.render, Node.renderChild, Token.lexeme]
  · obtain ⟨s', ws, rfl, hs', hws⟩ := List.map_eq_cons_iff.1 hus
    obtain ⟨hkind, hliteral⟩ := Token.lexeme_eq_iff.1 hs'
    obtain ⟨r', hderives, hsame, hrender⟩ := hback ws hws
    -- the operand is a group, a word or a call, and so of any stratum
    have operation := Derives.prefixExpression (hkind ▸ hk) (hderives.loosen (by decide))
    refine ⟨_, ⟨_, _, operation⟩, ?_, ?_⟩
    · simp [Node.same, Node.sameChild, hliteral, hsame]
    · simp [Node.render, Node.renderChild, hliteral, hrender]

/-- An operation with an infix operator is read back as a group around it. -/
theorem rereads_infixExpression {c d : Stratum} {e e' e'' : Ending} {s : Token} {l r : Node}
    (hd : c.next? = some d) (left : Symbol.Rereads (.expression c e) l) (hs : s.Lexical)
    (hk : s.kind ∈ c.operators) (right : Symbol.Rereads (.expression d e') r) :
    Symbol.Rereads (.expression c e'') (.infixExpression s l s.literal r) := by
  intro hplain
  obtain ⟨xs, hl, hbackl⟩ := left (hplain.below (by simp +contextual [Node.walk, Node.walkChild]))
  obtain ⟨ys, hr, hbackr⟩ := right (hplain.below (by simp +contextual [Node.walk, Node.walkChild]))
  have table : ∀ k ∈ Kind.infixOperators, k ∉ Kind.words ∧ k ≠ .int ∧ k ≠ .illegal := by decide
  obtain ⟨hwords, hint, hillegal⟩ := table _ (Stratum.of_mem_operators hk hd).1
  have operator := Spells.lexeme (x := s.lexeme) hs hillegal
  -- spaces keep the operator from both of its operands
  have inside := hl.spells.spaced (Node.endsBefore_of_isWordChar (by decide) l)
    (operator.spaced (Kind.endsBefore_of_notMem_words hwords hint (by decide)) hr.spells)
  refine rereads_of_parens (c := c) (e := e'') inside
    (Node.endsBefore_of_isWordChar (by decide) r) ?_ (fun _ => trivial) (fun us hus => ?_) hplain
  · simp [Node.render, Node.renderChild, Token.lexeme]
  · obtain ⟨ts, rest, rfl, hts, hrest⟩ := List.map_eq_append_iff.1 hus
    obtain ⟨s', ws, rfl, hs', hws⟩ := List.map_eq_cons_iff.1 hrest
    obtain ⟨hkind, hliteral⟩ := Token.lexeme_eq_iff.1 hs'
    obtain ⟨l', hderivesl, hsamel, hrenderl⟩ := hbackl ts hts
    obtain ⟨r', hderivesr, hsamer, hrenderr⟩ := hbackr ws hws
    -- calls bind tighter than any operator
    have hrank := Stratum.rank_lt_of_mem_operators hk
    have hnext := Stratum.rank_of_next? hd
    have hunary : Stratum.unary.rank < Stratum.call.rank := by decide
    have operation := Derives.infixExpression hd (hderivesl.loosen (by omega)) (hkind ▸ hk)
      (hderivesr.loosen (by omega))
    refine ⟨_, ⟨_, _, operation⟩, ?_, ?_⟩
    · simp [Node.same, Node.sameChild, hliteral, hsamel, hsamer]
    · simp [Node.render, Node.renderChild, hliteral, hrenderl, hrenderr]

/-- A call is read back as one, without parentheses around it. -/
theorem rereads_callExpression {c : Stratum} {e e' : Ending} {p : Token} {n : Node}
    {ns : List Node} (function : Symbol.Rereads (.expression .call e) n)
    (arguments : Symbol.Rereads .arguments ns) :
    Symbol.Rereads (.expression c e') (.callExpression p n (ns.map some)) := by
  intro hplain
  obtain ⟨xs, hn, hback⟩ := function
    (hplain.below (by simp +contextual [Node.walk, Node.walkChild]))
  obtain ⟨ys, hspells, hbacks⟩ := arguments fun m hm => hplain.below fun k hk => by
    simp only [Node.walk, Node.walkChildren_map_some, List.mem_cons, List.mem_append]
    exact .inr (.inr (Node.mem_walkEach.2 ⟨m, hm, hk⟩))
  have list := hspells.parenthesized (by decide)
  -- the parenthesis behind a word or a number goes on with neither
  have whole := hn.spells.append list ⟨'(', _, rfl, Node.endsBefore_of_isWordChar (by decide) n⟩
  have hrender : (Node.callExpression p n (ns.map some)).render.toList =
      n.render.toList ++
        ('(' :: ((", ".intercalate (ns.map Node.render)).toList ++ [')'])) := by
    simp [Node.render, Node.renderChild, Node.renderChildren_map_some]
  refine ⟨xs ++ .opening :: (ys ++ [.closing]), ⟨?_, ?_, fun _ _ => trivial⟩, fun us hus => ?_⟩
  · rw [hrender]
    exact whole.mono fun _ _ => trivial
  -- the text starts as that of what is called
  · obtain ⟨x, zs, d, text, rfl, htext, hd⟩ := hn.begins
    exact ⟨x, _, d, _, rfl, by rw [hrender, htext]; rfl, hd⟩
  · obtain ⟨ts, rest, rfl, hts, hrest⟩ := List.map_eq_append_iff.1 hus
    obtain ⟨q, q', ws, rfl, hq, hq', hws⟩ := exists_parens_of_map_lexeme hrest
    obtain ⟨m, hderives, hsame, hm⟩ := hback ts hts
    obtain ⟨ms, hderivess, hsames, hms⟩ := hbacks ws hws
    refine ⟨_, .callExpression hderives hq hderivess hq', ?_, ?_⟩
    · simp [Node.same, Node.sameChild, hsame, Node.sameChildren_map_some, hsames]
    · simp [Node.render, Node.renderChild, Node.renderChildren_map_some, hm, hms]

/-! ### Lists -/

/-- No arguments are written as nothing between the parentheses. -/
theorem rereads_noArguments : Symbol.Rereads .arguments [] := by
  refine fun _ => ⟨[], Spells.nil, fun us hus => ?_⟩
  obtain rfl := List.map_eq_nil_iff.1 hus
  exact ⟨[], .noArguments, by simp [Node.sameEach], rfl⟩

/-- A list of one item is written as the item. -/
theorem rereads_oneItem {e : Ending} {n : Node}
    (item : Symbol.Rereads (.expression .equality e) n) : Symbol.Rereads .items [n] := by
  intro hplain
  obtain ⟨xs, hn, hback⟩ := item (hplain n List.mem_cons_self)
  refine ⟨xs, ?_, fun us hus => ?_⟩
  · have text := hn.spells.mono fun c hc => Node.endsBefore_of_isWordChar hc n
    simpa using text
  · obtain ⟨m, hderives, hsame, hm⟩ := hback us hus
    refine ⟨[m], .oneItem (hderives.loosen (by decide)), ?_, by simp [hm]⟩
    simp [Node.sameEach, hsame]

/-- A list of items has at least one. -/
theorem Derives.items_ne_nil {ts : List Token} {ns : List Node} (h : Derives .items ts ns) :
    ns ≠ [] := by
  cases h with
  | oneItem => exact List.cons_ne_nil _ _
  | moreItems => exact List.cons_ne_nil _ _

/-- In front of more items stand the item, a comma and a space. -/
theorem rereads_moreItems {e : Ending} {n : Node} {ns : List Node}
    (item : Symbol.Rereads (.expression .equality e) n) (hns : ns ≠ [])
    (later : Symbol.Rereads .items ns) : Symbol.Rereads .items (n :: ns) := by
  intro hplain
  obtain ⟨hn, hns'⟩ := List.forall_mem_cons.1 hplain
  obtain ⟨xs, hspells, hback⟩ := item hn
  obtain ⟨ys, hlater, hbacks⟩ := later hns'
  have comma : Spells [','] [⟨.comma, [',']⟩] fun _ => True :=
    .sign (x := ⟨.comma, [',']⟩) (by decide) (by decide) (by decide)
  -- a comma and a space stand between two items
  have rest := comma.append hlater.space ⟨' ', _, rfl, trivial⟩
  have whole := hspells.spells.append rest
    ⟨',', _, rfl, Node.endsBefore_of_isWordChar (by decide) n⟩
  refine ⟨xs ++ ⟨.comma, [',']⟩ :: ys, ?_, fun us hus => ?_⟩
  -- the text of a list puts the separator only before a second item
  · obtain ⟨m, ms, rfl⟩ := List.exists_cons_of_ne_nil hns
    simpa [String.toList_intercalate] using whole
  · obtain ⟨ts, rest, rfl, hts, hrest⟩ := List.map_eq_append_iff.1 hus
    obtain ⟨s, ws, rfl, hs, hws⟩ := List.map_eq_cons_iff.1 hrest
    obtain ⟨m, hderives, hsame, hm⟩ := hback ts hts
    obtain ⟨ms, hderivess, hsames, hms⟩ := hbacks ws hws
    refine ⟨m :: ms, .moreItems (hderives.loosen (by decide)) (Token.kind_of_lexeme hs) hderivess,
      ?_, by simp [hm, hms]⟩
    simp [Node.sameEach, hsame, hsames]

/-- Arguments are written as the items they are. -/
theorem rereads_someArguments {ns : List Node} (items : Symbol.Rereads .items ns) :
    Symbol.Rereads .arguments ns := by
  intro hplain
  obtain ⟨xs, hspells, hback⟩ := items hplain
  refine ⟨xs, hspells, fun us hus => ?_⟩
  obtain ⟨ms, hderives, hms⟩ := hback us hus
  exact ⟨ms, .someArguments hderives, hms⟩

/-! ### Statements -/

/-- The semicolon behind a value. -/
theorem spells_closed {n : Node} {xs : List Lexeme} (h : n.Written xs n.EndsBefore) :
    Spells (n.render.toList ++ [';']) (xs ++ [⟨.semicolon, [';']⟩]) fun _ => True :=
  h.spells.append (.sign (x := ⟨.semicolon, [';']⟩) (by decide) (by decide) (by decide))
    ⟨';', [], rfl, Node.endsBefore_of_isWordChar (by decide) n⟩

/-- Tokens that make a value with its semicolon. -/
theorem exists_closed_of_map_lexeme {us : List Token} {xs : List Lexeme}
    (h : us.map Token.lexeme = xs ++ [⟨.semicolon, [';']⟩]) :
    ∃ ts s, us = ts ++ [s] ∧ ts.map Token.lexeme = xs ∧ s.kind = .semicolon := by
  obtain ⟨ts, rest, rfl, hts, hrest⟩ := List.map_eq_append_iff.1 h
  obtain ⟨s, rfl, hs⟩ := List.map_eq_singleton_iff.1 hrest
  exact ⟨ts, s, rfl, hts, Token.kind_of_lexeme hs⟩

/-- A word as the first part of a text, with a space behind it. -/
theorem spells_word {t : Token} {text : List Char} {xs : List Lexeme} {free : Char → Prop}
    (ht : t.Lexical) (hk : t.kind ∈ Kind.words) (h : Spells text xs free) :
    Spells (t.literal.toList ++ ' ' :: text) (t.lexeme :: xs) free := by
  have known : ∀ k ∈ Kind.words, k ≠ .illegal := by decide
  exact (Spells.lexeme (x := t.lexeme) ht (known _ hk)).spaced
    (Kind.endsBefore_of_mem_words hk (by decide)) h

/-- A binding is written with its word, its sign and a semicolon, whether or not the source had
one. -/
theorem rereads_letStatement {e e' : Ending} {t i : Token} {n : Node} (ht : t.Lexical)
    (hkt : t.kind = .letWord) (hi : i.Lexical) (hki : i.kind = .ident)
    (value : Symbol.Rereads (.expression .equality e) n) :
    Symbol.Rereads (.statement e') (.letStatement t (some (.identifier i i.literal)) n) := by
  intro hplain
  obtain ⟨xs, hn, hback⟩ := value (hplain.below (by simp +contextual [Node.walk, Node.walkChild]))
  have hwordt : t.kind ∈ Kind.words := by rw [hkt]; decide
  have hwordi : i.kind ∈ Kind.words := by rw [hki]; decide
  have sign : Spells ['='] [⟨.assign, ['=']⟩] (Kind.EndsBefore .assign) :=
    .lexeme (x := ⟨.assign, ['=']⟩) (by decide) (by decide)
  -- the words and the sign have a space behind them, the value its semicolon
  have whole := spells_word ht hwordt (spells_word hi hwordi
    (sign.spaced (Kind.endsBefore_of_notMem_words (by decide) (by decide) (by decide))
      (spells_closed hn)))
  have hrender : (Node.letStatement t (some (.identifier i i.literal)) n).render.toList =
      t.literal.toList ++ ' ' :: (i.literal.toList ++ ' ' :: (['='] ++
        ' ' :: (n.render.toList ++ [';']))) := by
    simp [Node.render, Node.renderChild, Node.literalOfToken]
  refine ⟨t.lexeme :: i.lexeme :: ⟨.assign, ['=']⟩ :: (xs ++ [⟨.semicolon, [';']⟩]),
    ⟨?_, Node.begins_of_word ht (.inr hwordt) hrender, fun _ _ => trivial⟩, fun us hus => ?_⟩
  · rw [hrender]
    exact whole.mono fun _ _ => trivial
  · obtain ⟨t', us, rfl, ht', hus⟩ := List.map_eq_cons_iff.1 hus
    obtain ⟨i', us, rfl, hi', hus⟩ := List.map_eq_cons_iff.1 hus
    obtain ⟨s, us, rfl, hs, hus⟩ := List.map_eq_cons_iff.1 hus
    obtain ⟨ts, s', rfl, hts, hs'⟩ := exists_closed_of_map_lexeme hus
    obtain ⟨hkindt, hliteralt⟩ := Token.lexeme_eq_iff.1 ht'
    obtain ⟨hkindi, hliterali⟩ := Token.lexeme_eq_iff.1 hi'
    obtain ⟨m, hderives, hsame, hm⟩ := hback ts hts
    have statement := Derives.letStatement (hkindt.trans hkt) (hkindi.trans hki)
      (Token.kind_of_lexeme hs) (hderives.loosen (c := .equality) (by decide))
    have closed := Derives.closedStatement statement (by decide) hs'
    -- a closed statement may have anything behind it
    refine ⟨_, ⟨.semicolon, closed, fun h => absurd rfl h⟩, ?_, ?_⟩
    · simp [Node.same, Node.sameChild, hliterali, hsame]
    · simp [Node.render, Node.renderChild, Node.literalOfToken, hliteralt, hliterali, hm]

/-- A return is written with its word and a semicolon. -/
theorem rereads_returnStatement {e e' : Ending} {t : Token} {n : Node} (ht : t.Lexical)
    (hk : t.kind = .returnWord) (value : Symbol.Rereads (.expression .equality e) n) :
    Symbol.Rereads (.statement e') (.returnStatement t n) := by
  intro hplain
  obtain ⟨xs, hn, hback⟩ := value (hplain.below (by simp +contextual [Node.walk, Node.walkChild]))
  have hword : t.kind ∈ Kind.words := by rw [hk]; decide
  -- the word, a space, the value and its semicolon
  have whole := spells_word ht hword (spells_closed hn)
  have hrender : (Node.returnStatement t n).render.toList =
      t.literal.toList ++ ' ' :: (n.render.toList ++ [';']) := by
    simp [Node.render, Node.renderChild, Node.literalOfToken]
  refine ⟨t.lexeme :: (xs ++ [⟨.semicolon, [';']⟩]),
    ⟨?_, Node.begins_of_word ht (.inr hword) hrender, fun _ _ => trivial⟩, fun us hus => ?_⟩
  · rw [hrender]
    exact whole.mono fun _ _ => trivial
  · obtain ⟨t', us, rfl, ht', hus⟩ := List.map_eq_cons_iff.1 hus
    obtain ⟨ts, s', rfl, hts, hs'⟩ := exists_closed_of_map_lexeme hus
    obtain ⟨hkind, hliteral⟩ := Token.lexeme_eq_iff.1 ht'
    obtain ⟨m, hderives, hsame, hm⟩ := hback ts hts
    have statement := Derives.returnStatement (hkind.trans hk)
      (hderives.loosen (c := .equality) (by decide))
    have closed := Derives.closedStatement statement (by decide) hs'
    refine ⟨_, ⟨.semicolon, closed, fun h => absurd rfl h⟩, ?_, ?_⟩
    · simp [Node.same, Node.sameChild, hsame]
    · simp [Node.render, Node.renderChild, Node.literalOfToken, hliteral, hm]

/-- An expression as a statement is written as the expression, without a semicolon. -/
theorem rereads_expressionStatement {e e' : Ending} {t : Token} {n : Node}
    (expression : Symbol.Rereads (.expression .equality e) n) :
    Symbol.Rereads (.statement e') (.expressionStatement t n) := by
  intro hplain
  obtain ⟨xs, hn, hback⟩ := expression
    (hplain.below (by simp +contextual [Node.walk, Node.walkChild]))
  have hrender : (Node.expressionStatement t n).render = n.render := rfl
  refine ⟨xs, ⟨?_, ?_, ?_⟩, fun us hus => ?_⟩
  · exact hn.spells
  · exact hn.begins
  · exact hn.closed
  -- the statement has the token that the new tree starts with, which need not be alike
  · obtain ⟨m, hderives, hsame, hm⟩ := hback us hus
    obtain ⟨u, us, rfl, -⟩ := hderives.starts
    refine ⟨.expressionStatement u m, ⟨.other, ?_, fun _ => ⟨t, n, rfl⟩⟩, ?_, ?_⟩
    · exact .expressionStatement (hderives.loosen (by decide))
    · simp [Node.same, Node.sameChild, hsame]
    · rw [hrender, ← hm]
      rfl

/-- A statement that is kept apart from the one behind it does not go on with it. -/
theorem closesBefore_of_separated {m n : Node} {c : Char} (h : m.Separated n)
    (hclosed : m.render.toList.getLast? = some ')' → ∀ c, m.ClosesBefore c)
    (hc : n.render.toList.head? = some c) : m.ClosesBefore c := by
  cases m with
  | expressionStatement t e =>
    cases e with
    | none => trivial
    | some k =>
      -- a text that ends in a parenthesis, or a number before a word
      rcases h t k rfl with ⟨hlast, -⟩ | ⟨⟨u, i, hk⟩, d, hd, hstart⟩
      · exact hclosed hlast c
      · cases hk
        cases hc.symm.trans hd
        exact isDigit_eq_false_of_isWordStart hstart
  | _ => trivial

/-- No statements are written as nothing. -/
theorem rereads_noStatements : Symbol.Rereads .statements [] := by
  refine fun _ _ => ⟨[], .empty, .inl ⟨rfl, rfl⟩, fun us hus => ?_⟩
  obtain rfl := List.map_eq_nil_iff.1 hus
  exact ⟨[], .noStatements, by simp [Node.sameEach], rfl⟩

/-- A statement that keeps apart from what is behind it may be written in front of it. -/
theorem rereads_moreStatements {e : Ending} {n : Node} {ns : List Node}
    (first : Symbol.Rereads (.statement e) n) (later : Symbol.Rereads .statements ns) :
    Symbol.Rereads .statements (n :: ns) := by
  intro hplain hapart
  obtain ⟨hn, hns⟩ := List.forall_mem_cons.1 hplain
  obtain ⟨xs, hwritten, hback⟩ := first hn
  obtain ⟨ys, hlexes, hbegins, hbacks⟩ :=
    later hns fun m k h => hapart m k (h.trans (List.suffix_cons n ns).isInfix)
  -- What stands behind begins with the text of a statement that keeps apart from the first one.
  have hnext : ∀ k ∈ ns.head?, n.Separated k := by
    intro k hk
    obtain ⟨ks, rfl⟩ := List.head?_eq_some_iff.1 hk
    exact hapart n k ⟨[], ks, rfl⟩
  -- so nothing of its text goes on with the first one
  have hfree : ∀ c ∈ (String.join (ns.map Node.render)).toList.head?, n.ClosesBefore c := by
    rcases hbegins with ⟨rfl, -⟩ | ⟨k, hk, x, zs, c, text, -, hc, -⟩
    · nofun
    · intro c' hc'
      refine closesBefore_of_separated (hnext k hk) hwritten.closed ?_
      obtain ⟨ks, rfl⟩ := List.head?_eq_some_iff.1 hk
      simpa [hc] using hc'
  refine ⟨xs ++ ys, ?_, .inr ⟨n, rfl, ?_⟩, fun us hus => ?_⟩
  · simpa using hwritten.spells _ _ hfree hlexes
  · obtain ⟨x, zs, c, text, rfl, hx⟩ := hwritten.begins
    exact ⟨x, zs ++ ys, c, text, rfl, hx⟩
  · obtain ⟨ts, vs, rfl, hts, hvs⟩ := List.map_eq_append_iff.1 hus
    obtain ⟨m, ⟨e', hderives, hopen⟩, hsame, hm⟩ := hback ts hts
    obtain ⟨ms, hderivess, hsames, hms⟩ := hbacks vs hvs
    refine ⟨m :: ms, .moreStatements hderives hderivess fun he u hu => ?_, ?_, by simp [hm, hms]⟩
    -- an open statement needs no minus and no parenthesis behind it
    · obtain ⟨t, v, rfl⟩ := hopen he
      obtain ⟨vs, rfl⟩ := List.head?_eq_some_iff.1 hu
      rcases hbegins with ⟨-, rfl⟩ | ⟨k, hk, x, zs, c, text, rfl, hc, -, hminus, hparen⟩
      · cases hvs
      · obtain rfl : u.lexeme = x := (List.cons.inj hvs).1
        refine ⟨hminus, fun h => ?_⟩
        obtain rfl : c = '(' := hparen h
        rcases hnext k hk t v rfl with ⟨-, hne⟩ | ⟨-, d, hd, hstart⟩
        · exact hne (by rw [hc]; rfl)
        · rw [hc] at hd
          cases hd
          exact absurd hstart (by decide)
    · simp [Node.sameEach, hsame, hsames]

/-! ## Every symbol -/

/-- The text of what is derived from tokens that have the kinds of their texts can be read back. -/
theorem rereads_of_derives {a : Symbol} {ts : List Token} {tree : a.Tree} (h : Derives a ts tree)
    (hts : ∀ t ∈ ts, t.Lexical) : a.Rereads tree := by
  -- on the derivation: one lemma for each production, with what its parts are known to read back as
  induction h with
  | program | block | noParameters | someParameters | oneName | moreNames => trivial
  | noStatements => exact rereads_noStatements
  | moreStatements _ _ _ ihf ihl =>
    obtain ⟨hfirst, hlater⟩ := List.forall_mem_append.1 hts
    exact rereads_moreStatements (ihf hfirst) (ihl hlater)
  | letStatement word name _ _ ih =>
    simp only [List.forall_mem_cons] at hts
    exact rereads_letStatement hts.1 word hts.2.1 name (ih hts.2.2.2)
  | returnStatement word _ ih =>
    obtain ⟨ht, hts⟩ := List.forall_mem_cons.1 hts
    exact rereads_returnStatement ht word (ih hts)
  | expressionStatement _ ih => exact rereads_expressionStatement (ih hts)
  -- the semicolon is not in the tree
  | closedStatement _ _ _ ih => exact ih (List.forall_mem_append.1 hts).1
  | loosened _ _ ih => exact ih hts
  | infixExpression tighter _ operator _ ihl ihr =>
    simp only [List.forall_mem_append, List.forall_mem_cons] at hts
    exact rereads_infixExpression tighter (ihl hts.1) hts.2.1 operator (ihr hts.2.2)
  | prefixExpression operator _ ih =>
    obtain ⟨hs, hts⟩ := List.forall_mem_cons.1 hts
    exact rereads_prefixExpression hs operator (ih hts)
  | callExpression _ _ _ _ ihf iha =>
    simp only [List.forall_mem_append, List.forall_mem_cons] at hts
    exact rereads_callExpression (ihf hts.1) (iha hts.2.2.1)
  | identifier name => exact rereads_identifier (hts _ List.mem_cons_self) name
  | integerLiteral number digits short small =>
    exact rereads_integerLiteral (hts _ List.mem_cons_self) number digits short small
  | trueWord word => exact rereads_boolean (hts _ List.mem_cons_self) word
  | falseWord word => exact rereads_boolean (hts _ List.mem_cons_self) word
  -- neither are the parentheses of a group
  | group _ _ _ ih =>
    simp only [List.forall_mem_append, List.forall_mem_cons] at hts
    exact ih hts.2.1
  | conditional | alternative | functionLiteral =>
    -- These are not plain.
    exact fun hplain => absurd (hplain _ List.mem_cons_self) (by simp [Node.hasBlock])
  | noArguments => exact rereads_noArguments
  | someArguments _ ih => exact rereads_someArguments (ih hts)
  | oneItem _ ih => exact rereads_oneItem (ih hts)
  | moreItems _ _ later ihf ihl =>
    simp only [List.forall_mem_append, List.forall_mem_cons] at hts
    exact rereads_moreItems (ihf hts.1) later.items_ne_nil (ihl hts.2.2)

/-- The text of a program that was parsed without a diagnostic and has no conditional and no
function, and whose statements keep apart, is parsed without a diagnostic again, to a tree that is
the same and has the same text. -/
theorem parseProgram_render {source : String} {tracing : Bool} {tree : Node} {s : State Cursor}
    (hrun : parseProgram (Cursor.ofString source) tracing = (.ok tree, s))
    (hs : s.diagnostics = []) (hplain : tree.Plain)
    (hapart : ∀ m n, [m, n] <:+: tree.topStatements → m.Separated n) (tracing' : Bool) :
    ∃ tree' s', parseProgram (Cursor.ofString tree.render) tracing' = (.ok tree', s') ∧
      s'.diagnostics = [] ∧ tree'.same tree = true ∧ tree'.render = tree.render := by
  obtain ⟨ts, w, hts, hderives, -⟩ := exists_derives_of_diagnostics_eq_nil hrun hs
  -- the tokens came from the source, so each has the kind that its text has
  have hlexical := Cursor.lexical_of_reads hts hderives.ne_eof
  cases hderives with
  | @program _ ns body =>
    have hplains : ∀ n ∈ ns, n.Plain := fun n hn => hplain.below fun m hm => by
      rw [Node.walk]
      exact List.mem_cons_of_mem _ (Node.mem_walkEach.2 ⟨n, hn, hm⟩)
    obtain ⟨xs, hlexes, -, hback⟩ := rereads_of_derives body hlexical hplains hapart
    -- the new cursor is before the whole text
    have hrest : (Cursor.ofString (Node.program ns).render).rest =
        (String.join (ns.map Node.render)).toList := by
      rw [Node.render, Node.renderEach_eq_map]
      exact Cursor.rest_of_nonneg (Int.le_refl 0)
    -- the text falls into the lexemes, and the tokens read from it are a program again
    obtain ⟨us, w', hus, hw', hxs⟩ := Cursor.exists_reads_of_lexes hlexes hrest
    obtain ⟨ms, hderives', hsame, hms⟩ := hback us hxs
    obtain ⟨s', hrun', hs', -⟩ := parseProgram_of_reads (.program hderives') hus hw' tracing'
    refine ⟨.program ms, s', hrun', hs', ?_, ?_⟩
    · rw [Node.same, hsame]
    · simp only [Node.render, Node.renderEach_eq_map, hms]

/-- The first of these statements ends in a parenthesis, and the second is a number before a
name. -/
theorem parseProgram_render_statements :
    let token (kind : Kind) (literal : String) (column : Int) : Token := ⟨kind, literal, ⟨1, column⟩⟩
    let a := token .ident "a" 2
    let f := token .ident "f" 6
    let b := token .ident "b" 8
    let five := token .int "5" 11
    let c := token .ident "c" 13
    let negation := Node.prefixExpression (token .minus "-" 1) "-" (some (.identifier a "a"))
    let call := Node.callExpression (token .leftParen "(" 7) (some (.identifier f "f"))
      [some (.identifier b "b")]
    let product := Node.infixExpression (token .asterisk "*" 4) (some negation) "*" (some call)
    let tree := Node.program [.expressionStatement (token .minus "-" 1) (some product),
      .expressionStatement five (some (.integerLiteral five 5)),
      .expressionStatement c (some (.identifier c "c"))]
    ∃ tree' s', parseProgram (Cursor.ofString "((-a) * f(b))5c") false = (.ok tree', s') ∧
      s'.diagnostics = [] ∧ tree'.same tree = true ∧ tree'.render = "((-a) * f(b))5c" := by
  intro token a f b five c negation call product tree
  have hrun : parseProgram (Cursor.ofString "-a * f(b) 5 c") false = (.ok tree, _) :=
    Prod.ext rfl rfl
  have hrender : tree.render = "((-a) * f(b))5c" := by decide
  have hplain : tree.Plain := by
    simp [Node.Plain, tree, product, call, negation, Node.walk, Node.walkEach, Node.walkChild,
      Node.walkChildren, Node.hasBlock]
  have hapart : ∀ m n, [m, n] <:+: tree.topStatements → m.Separated n := by
    intro m n h
    have hpairs : m = .expressionStatement (token .minus "-" 1) (some product) ∧
          n = .expressionStatement five (some (.integerLiteral five 5)) ∨
        m = .expressionStatement five (some (.integerLiteral five 5)) ∧
          n = .expressionStatement c (some (.identifier c "c")) := by
      simpa [Node.topStatements, tree, List.infix_cons_iff] using h
    rcases hpairs with ⟨rfl, rfl⟩ | ⟨rfl, rfl⟩
    · exact fun _ _ _ => .inl ⟨by decide, by decide⟩
    · refine fun _ _ he => .inr ⟨⟨five, 5, ?_⟩, 'c', by decide, by decide⟩
      cases he
      rfl
  have hread := parseProgram_render hrun rfl hplain hapart false
  rwa [hrender] at hread

end Pratt
