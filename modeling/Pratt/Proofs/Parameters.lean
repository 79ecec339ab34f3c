import Pratt.Proofs.Ahead
import Pratt.Proofs.Fuel

/-!
# Pratt — parameter lists

Behind the opening parenthesis of a function there are names with commas between them and the
closing parenthesis, or the closing parenthesis alone (`ParameterList`). A parser in any state, with
any tables, reads such a list if one is ahead, and only then. Otherwise there is a first token that
departs from all such lists (`State.Departs`), and the parser stops before it with one diagnostic
(`functionParameters_iff`).

Whether there is a list ahead or a token departs is decided by one walk over the tokens to come,
which is that of the rule (`Parse.list_or_departs`). The walk ends because the source does.
-/

namespace Pratt

/-! ## Lists -/

/-- One name or several, with commas between them, and the closing parenthesis. -/
inductive NameList : List Kind → Prop where
  | last : NameList [.ident, .rightParen]
  | more {ks : List Kind} (later : NameList ks) : NameList (.ident :: .comma :: ks)

/-- What stands behind the opening parenthesis of a function, up to the closing one. -/
def ParameterList (ks : List Kind) : Prop :=
  ks = [.rightParen] ∨ NameList ks

/-- The names among tokens, each with its own token. -/
def names (ts : List Token) : List Node :=
  (ts.filter fun t => t.kind = .ident).map fun t => Node.identifier (some t) t.literal

/-- A name is kept, with its own token. -/
theorem names_cons_of_ident {t : Token} (h : t.kind = .ident) (ts : List Token) :
    names (t :: ts) = Node.identifier (some t) t.literal :: names ts := by
  simp [names, h]

/-- A token of any other kind is left out. -/
theorem names_cons_of_ne {t : Token} {k : Kind} (h : t.kind = k) (hk : k ≠ .ident)
    (ts : List Token) : names (t :: ts) = names ts := by
  simp [names, h, hk]

/-- A list of names ends with the closing parenthesis. -/
theorem NameList.getLast? {ks : List Kind} (h : NameList ks) : ks.getLast? = some .rightParen := by
  induction h with
  | last => rfl
  | more later ih => rw [List.getLast?_cons_cons, List.getLast?_cons, ih]; rfl

/-- A list of names starts with a name, and behind it stands the closing parenthesis or a comma and
more names. -/
theorem nameList_cons {k : Kind} {ks : List Kind} : NameList (k :: ks) ↔
    k = .ident ∧ (ks = [.rightParen] ∨ ∃ later, ks = .comma :: later ∧ NameList later) := by
  constructor
  · intro h
    cases h with
    | last => exact ⟨rfl, .inl rfl⟩
    | more later => exact ⟨rfl, .inr ⟨_, rfl, later⟩⟩
  · rintro ⟨rfl, rfl | ⟨later, rfl, h⟩⟩
    · exact .last
    · exact .more h

/-- A parameter list ends with the closing parenthesis, also where it is nothing else. -/
theorem ParameterList.getLast? {ks : List Kind} (h : ParameterList ks) :
    ks.getLast? = some .rightParen := by
  rcases h with rfl | h
  · rfl
  · exact h.getLast?

variable {σ : Type} [TokenSource σ]

namespace State

variable {s : State σ} {t : Token} {ts : List Token}

/-- Where a list of names is ahead a name comes next. -/
theorem peek_kind_of_ahead (h : s.Ahead ts) (hlist : NameList (ts.map (·.kind))) :
    s.peek.kind = .ident := by
  cases ts with
  | nil => cases hlist
  | cons t ts =>
    rw [(ahead_cons.1 h).1]
    exact (nameList_cons.1 hlist).1

/-- Moving over a list that is ahead leads onto its closing parenthesis. -/
theorem current_kind_of_ahead (h : s.Ahead ts) (hlist : ParameterList (ts.map (·.kind))) :
    (advance^[ts.length] s).current.kind = .rightParen := by
  have hlast := hlist.getLast?
  rw [List.getLast?_map] at hlast
  obtain ⟨t, ht, hkind⟩ := Option.map_eq_some_iff.1 hlast
  -- the last token that was moved over is the current one
  rw [current_of_ahead h, List.getLastD_eq_getLast?, ht]
  exact hkind

/-- Of the lists for which `L` stands, the tokens ahead are the beginning of one, but they are not
with the token `d` behind them. The kind that is missed is that of a name, at the start and behind
a comma, or that of the closing parenthesis, behind a name. -/
structure Departs (L : List Kind → Prop) (s : State σ) (ts : List Token) (d : Token)
    (missed : Kind) : Prop where
  ahead : s.Ahead (ts ++ [d])
  fits : ∃ k ks, L (ts.map (·.kind) ++ k :: ks)
  departs : ∀ ks, ¬L (ts.map (·.kind) ++ d.kind :: ks)
  missed : (∀ t ∈ ts.getLast?, t.kind = .comma) ∧ missed = .ident ∨
    (∃ t ∈ ts.getLast?, t.kind = .ident) ∧ missed = .rightParen

namespace Departs

variable {d : Token} {missed : Kind}

/-- No name where one has to be. -/
theorem noName (h : s.peek.kind ≠ .ident) : Departs NameList s [] s.peek .ident where
  ahead := ahead_cons.2 ⟨rfl, ahead_nil _⟩
  fits := ⟨_, _, .last⟩
  departs _ hlist := h (nameList_cons.1 hlist).1
  missed := .inl ⟨nofun, rfl⟩

/-- Neither a comma nor the closing parenthesis behind a name. -/
theorem nameEnd (hname : s.peek.kind = .ident) (hcomma : s.advance.peek.kind ≠ .comma)
    (hclosing : s.advance.peek.kind ≠ .rightParen) :
    Departs NameList s [s.peek] s.advance.peek .rightParen where
  ahead := ahead_cons.2 ⟨rfl, ahead_cons.2 ⟨rfl, ahead_nil _⟩⟩
  fits := ⟨_, _, nameList_cons.2 ⟨hname, .inl rfl⟩⟩
  departs ks hlist := by
    rcases (nameList_cons.1 hlist).2 with hlast | ⟨later, hlater, -⟩
    · exact hclosing (List.cons.inj hlast).1
    · exact hcomma (List.cons.inj hlater).1
  missed := .inr ⟨⟨s.peek, rfl, hname⟩, rfl⟩

/-- What departs behind a name and a comma. -/
theorem more (hname : s.peek.kind = .ident) (hcomma : s.advance.peek.kind = .comma)
    (h : Departs NameList s.advance.advance ts d missed) :
    Departs NameList s (s.peek :: s.advance.peek :: ts) d missed where
  ahead := ahead_cons.2 ⟨rfl, ahead_cons.2 ⟨rfl, h.ahead⟩⟩
  fits := by
    obtain ⟨k, ks, hlist⟩ := h.fits
    exact ⟨k, ks, nameList_cons.2 ⟨hname, .inr ⟨_, congrArg (· :: _) hcomma, hlist⟩⟩⟩
  departs ks hlist := by
    rcases (nameList_cons.1 hlist).2 with hlast | ⟨later, hlater, hmore⟩
    · -- no list ends at the comma
      have hclosing : s.advance.peek.kind = .rightParen := (List.cons.inj hlast).1
      rw [hcomma] at hclosing
      exact absurd hclosing (by decide)
    · obtain ⟨-, rfl⟩ := List.cons.inj hlater
      exact h.departs ks hmore
  missed := by
    cases ts with
    | nil =>
      -- the comma is the last token that fits
      obtain ⟨-, hmissed⟩ | ⟨⟨_, hlast, -⟩, -⟩ := h.missed
      · refine .inl ⟨fun t ht => ?_, hmissed⟩
        obtain rfl : s.advance.peek = t := Option.some.inj ht
        exact hcomma
      · cases hlast
    | cons t ts =>
      rw [List.getLast?_cons_cons, List.getLast?_cons_cons]
      exact h.missed

/-- What departs from all lists of names departs from all parameter lists, unless these are closed
at once. -/
theorem ofNames (hclosing : s.peek.kind ≠ .rightParen) (h : Departs NameList s ts d missed) :
    Departs ParameterList s ts d missed where
  ahead := h.ahead
  fits := by
    obtain ⟨k, ks, hlist⟩ := h.fits
    exact ⟨k, ks, .inr hlist⟩
  departs ks hlist := by
    rcases hlist with hclosed | hlist
    · -- nothing fits in front of the closing parenthesis alone
      cases ts with
      | nil =>
        rw [(ahead_cons.1 h.ahead).1] at hclosing
        exact hclosing (List.cons.inj hclosed).1
      | cons t ts => exact absurd (List.cons.inj hclosed).2 (by simp)
    · exact h.departs ks hlist
  missed := h.missed

end Departs

end State

namespace Parse

variable {s : State σ} {ts : List Token} {parse : Recur σ}

/-- Without a name the rule reports what it finds, and gives nothing. -/
theorem parameters_of_ne (h : s.peek.kind ≠ .ident) :
    parameters parse s = .ok none (s.record (.diagnostic ⟨s.peek, .expected .ident⟩)) :=
  bind_eq_of_ok (expect?_of_ne h)

/-- Behind a name and a comma the rule gives the name and what it gives for the rest. -/
theorem parameters_of_comma {v : Option (List Node)} {t : State σ} (hname : s.peek.kind = .ident)
    (hcomma : s.advance.peek.kind = .comma)
    (hlater : parse .parameters s.advance.advance = .ok v t) :
    parameters parse s = .ok (v.map (Node.identifier (some s.peek) s.peek.literal :: ·)) t := by
  refine (bind_eq_of_ok (expect?_of_eq hname)).trans ?_
  show (if s.advance.peek.kind = .comma then _ else _ : Parse σ _) s.advance = _
  rw [if_pos hcomma]
  refine (bind_eq_of_ok (advance_eq _)).trans ((bind_eq_of_ok hlater).trans ?_)
  cases v <;> rfl

/-- Behind a name the closing parenthesis ends the list. -/
theorem parameters_of_last (hname : s.peek.kind = .ident)
    (hclosing : s.advance.peek.kind = .rightParen) :
    parameters parse s = .ok (some [Node.identifier (some s.peek) s.peek.literal])
      s.advance.advance := by
  refine (bind_eq_of_ok (expect?_of_eq hname)).trans ?_
  show (if s.advance.peek.kind = .comma then _ else _ : Parse σ _) s.advance = _
  rw [if_neg (by rw [hclosing]; decide)]
  exact bind_eq_of_ok (expect?_of_eq hclosing)

/-- Behind a name anything else is reported. -/
theorem parameters_of_nameEnd (hname : s.peek.kind = .ident)
    (hcomma : s.advance.peek.kind ≠ .comma) (hclosing : s.advance.peek.kind ≠ .rightParen) :
    parameters parse s =
      .ok none (s.advance.record (.diagnostic ⟨s.advance.peek, .expected .rightParen⟩)) := by
  refine (bind_eq_of_ok (expect?_of_eq hname)).trans ?_
  show (if s.advance.peek.kind = .comma then _ else _ : Parse σ _) s.advance = _
  rw [if_neg hcomma]
  exact bind_eq_of_ok (expect?_of_ne hclosing)

variable [LawfulTokenSource σ]

/-- After a name and a comma there is less to come. -/
theorem ahead_lt_of_comma (hname : s.peek.kind = .ident) :
    s.advance.advance.view.window.ahead < s.view.window.ahead := by
  have hpeek : s.view.window.peek.kind ≠ .eof := by
    show s.peek.kind ≠ .eof
    rw [hname]
    decide
  exact Nat.lt_of_le_of_lt s.advance.view.window.ahead_advance_le
    (Window.ahead_advance_lt hpeek)

/-- A list of names that is ahead is read. -/
theorem run_parameters_of_list {ks : List Kind} (hlist : NameList ks)
    (hkinds : ts.map (·.kind) = ks) (hahead : s.Ahead ts) {fuel : Nat}
    (hfuel : s.view.window.ahead < fuel) :
    run fuel .parameters s = .ok (some (names ts)) (State.advance^[ts.length] s) := by
  -- the rule calls itself behind each comma, as the list goes on there
  induction hlist generalizing s ts fuel with
  | last =>
    obtain ⟨t, _, rfl, hname, hrest⟩ := List.map_eq_cons_iff.1 hkinds
    obtain ⟨p, _, rfl, hclosing, hnil⟩ := List.map_eq_cons_iff.1 hrest
    obtain rfl := List.map_eq_nil_iff.1 hnil
    obtain ⟨rfl, hp⟩ := State.ahead_cons.1 hahead
    obtain ⟨rfl, -⟩ := State.ahead_cons.1 hp
    obtain ⟨fuel, rfl⟩ : ∃ n, fuel = n + 1 := ⟨fuel - 1, by omega⟩
    have hnames : names [s.peek, s.advance.peek] = [.identifier (some s.peek) s.peek.literal] := by
      rw [names_cons_of_ident hname, names_cons_of_ne hclosing (by decide)]
      rfl
    rw [hnames]
    exact parameters_of_last hname hclosing
  | more later ih =>
    obtain ⟨t, _, rfl, hname, hrest⟩ := List.map_eq_cons_iff.1 hkinds
    obtain ⟨c, ts, rfl, hcomma, hlater⟩ := List.map_eq_cons_iff.1 hrest
    obtain ⟨rfl, hc⟩ := State.ahead_cons.1 hahead
    obtain ⟨rfl, hts⟩ := State.ahead_cons.1 hc
    obtain ⟨fuel, rfl⟩ : ∃ n, fuel = n + 1 := ⟨fuel - 1, by omega⟩
    have hlt := ahead_lt_of_comma hname
    rw [names_cons_of_ident hname, names_cons_of_ne hcomma (by decide)]
    exact parameters_of_comma hname hcomma (ih hlater hts (by omega))

/-- The walk over the tokens to come: a list of names is ahead, or a token departs from all of them,
and then it is reported and nothing is given. -/
theorem names_or_departs {fuel : Nat} (hfuel : s.view.window.ahead < fuel) :
    (∃ ts, s.Ahead ts ∧ NameList (ts.map (·.kind))) ∨
      ∃ ts d missed, State.Departs NameList s ts d missed ∧
        run fuel .parameters s = .ok none
          ((State.advance^[ts.length] s).record (.diagnostic ⟨d, .expected missed⟩)) := by
  -- on the fuel, as there may be no list for an induction; the source ends before it does
  induction fuel generalizing s with
  | zero => exact absurd hfuel (Nat.not_lt_zero _)
  | succ fuel ih =>
    -- the rule asks in this order: for a name, for a comma, for the closing parenthesis
    by_cases hname : s.peek.kind = .ident
    · by_cases hcomma : s.advance.peek.kind = .comma
      · have hlt := ahead_lt_of_comma hname
        rcases ih (s := s.advance.advance) (by omega) with
          ⟨ts, hts, hlist⟩ | ⟨ts, d, missed, h, hrun⟩
        · refine .inl ⟨s.peek :: s.advance.peek :: ts, ?_, ?_⟩
          · exact State.ahead_cons.2 ⟨rfl, State.ahead_cons.2 ⟨rfl, hts⟩⟩
          · exact nameList_cons.2 ⟨hname, .inr ⟨_, congrArg (· :: _) hcomma, hlist⟩⟩
        · exact .inr ⟨_, d, missed, h.more hname hcomma, parameters_of_comma hname hcomma hrun⟩
      · by_cases hclosing : s.advance.peek.kind = .rightParen
        · refine .inl ⟨[s.peek, s.advance.peek], ?_, ?_⟩
          · exact State.ahead_cons.2 ⟨rfl, State.ahead_cons.2 ⟨rfl, State.ahead_nil _⟩⟩
          · exact nameList_cons.2 ⟨hname, .inl (congrArg (· :: _) hclosing)⟩
        · exact .inr ⟨_, _, _, .nameEnd hname hcomma hclosing,
            parameters_of_nameEnd hname hcomma hclosing⟩
    · exact .inr ⟨_, _, _, .noName hname, parameters_of_ne hname⟩

omit [LawfulTokenSource σ] in
/-- The rule for the whole list is not traced, and is given more fuel than the walk needs. -/
theorem perform_functionParameters (s : State σ) : ∃ fuel, s.view.window.ahead < fuel ∧
    perform .functionParameters s = functionParameters (run fuel) s := by
  have hahead := ahead_add_one_lt_enough s
  -- one unit goes to this rule, and the rest is above what is ahead
  obtain ⟨fuel, henough⟩ : ∃ n, enough s = n + 1 := ⟨enough s - 1, by omega⟩
  refine ⟨fuel, by omega, ?_⟩
  unfold perform
  rw [henough]
  show traced .functionParameters (functionParameters (run fuel)) s = _
  exact traced_of_not_shown (by simp [Rule.isTraced]) _

omit [LawfulTokenSource σ] in
/-- A list that is closed at once is empty. -/
theorem functionParameters_of_closing (h : s.peek.kind = .rightParen) :
    functionParameters parse s = .ok (some []) s.advance := by
  show (if s.peek.kind = .rightParen then _ else _ : Parse σ _) s = _
  rw [if_pos h]
  rfl

omit [LawfulTokenSource σ] in
/-- Any other list is one of names. -/
theorem functionParameters_of_ne (h : s.peek.kind ≠ .rightParen) :
    functionParameters parse s = parse .parameters s := by
  show (if s.peek.kind = .rightParen then _ else _ : Parse σ _) s = _
  rw [if_neg h]

/-- A list that is ahead is read, be it empty or not. -/
theorem perform_functionParameters_of_list (hlist : ParameterList (ts.map (·.kind)))
    (hahead : s.Ahead ts) :
    perform .functionParameters s = .ok (some (names ts)) (State.advance^[ts.length] s) := by
  obtain ⟨fuel, hfuel, hperform⟩ := perform_functionParameters s
  rw [hperform]
  rcases hlist with hclosed | hlist
  · obtain ⟨p, _, rfl, hclosing, hnil⟩ := List.map_eq_cons_iff.1 hclosed
    obtain rfl := List.map_eq_nil_iff.1 hnil
    obtain ⟨rfl, -⟩ := State.ahead_cons.1 hahead
    rw [names_cons_of_ne hclosing (by decide)]
    exact functionParameters_of_closing hclosing
  · -- a list of names starts with one
    have hname : s.peek.kind ≠ .rightParen := by
      rw [State.peek_kind_of_ahead hahead hlist]
      decide
    rw [functionParameters_of_ne hname]
    exact run_parameters_of_list hlist rfl hahead hfuel

/-- A list is ahead, or a token departs from all of them and is reported. -/
theorem list_or_departs (s : State σ) :
    (∃ ts, s.Ahead ts ∧ ParameterList (ts.map (·.kind))) ∨
      ∃ ts d missed, State.Departs ParameterList s ts d missed ∧
        perform .functionParameters s = .ok none
          ((State.advance^[ts.length] s).record (.diagnostic ⟨d, .expected missed⟩)) := by
  by_cases hclosing : s.peek.kind = .rightParen
  · exact .inl ⟨[s.peek], State.ahead_cons.2 ⟨rfl, State.ahead_nil _⟩,
      .inl (congrArg (· :: _) hclosing)⟩
  · obtain ⟨fuel, hfuel, hperform⟩ := perform_functionParameters s
    rw [hperform, functionParameters_of_ne hclosing]
    rcases names_or_departs hfuel with ⟨ts, hahead, hlist⟩ | ⟨ts, d, missed, h, hrun⟩
    · exact .inl ⟨ts, hahead, .inr hlist⟩
    · exact .inr ⟨ts, d, missed, h.ofNames hclosing, hrun⟩

end Parse

open Parse

variable [LawfulTokenSource σ]

/-- A parser in any state gives the names of a parameter list, onto the closing parenthesis of which
it has moved without recording anything, if and only if such a list is ahead. Otherwise it gives
nothing and has recorded one diagnostic: there are tokens ahead that begin a list, and a token
behind them that does not go on with one, and the parser has moved onto the last of those that fit
and reports the other, which is ahead then. -/
theorem functionParameters_iff (s : State σ) :
    (∀ ns t, (perform .functionParameters s = .ok (some ns) t ∧ t.current.kind = .rightParen ∧
        t.journal = s.journal) ↔
      ∃ ts, s.Ahead ts ∧ ParameterList (ts.map (·.kind)) ∧ ns = names ts ∧
        t = State.advance^[ts.length] s) ∧
    ((∀ ts, s.Ahead ts → ¬ParameterList (ts.map (·.kind))) →
      ∃ ts d missed t, State.Departs ParameterList s ts d missed ∧
        perform .functionParameters s = .ok none t ∧
        t = (State.advance^[ts.length] s).record (.diagnostic ⟨d, .expected missed⟩) ∧
        t.diagnostics = s.diagnostics ++ [⟨d, .expected missed⟩] ∧
        t.current = ts.getLastD s.current ∧ t.peek = d) := by
  constructor
  · intro ns t
    constructor
    · rintro ⟨hrun, -⟩
      rcases list_or_departs s with ⟨ts, hahead, hlist⟩ | ⟨ts, d, missed, -, hnone⟩
      · rw [perform_functionParameters_of_list hlist hahead] at hrun
        cases hrun
        exact ⟨ts, hahead, hlist, rfl, rfl⟩
      · -- where a token departs nothing is given
        rw [hnone] at hrun
        cases hrun
    · rintro ⟨ts, hahead, hlist, rfl, rfl⟩
      exact ⟨perform_functionParameters_of_list hlist hahead,
        State.current_kind_of_ahead hahead hlist, State.journal_iterate_advance _ s⟩
  · intro hno
    rcases list_or_departs s with ⟨ts, hahead, hlist⟩ | ⟨ts, d, missed, h, hrun⟩
    · exact absurd hlist (hno ts hahead)
    · refine ⟨ts, d, missed, _, h, hrun, rfl, ?_, State.current_of_ahead h.ahead.of_append,
        State.peek_of_ahead h.ahead⟩
      rw [State.diagnostics_record, State.diagnostics, State.journal_iterate_advance]
      rfl

/-- Two names, and a comma without a name behind it. -/
theorem functionParameters_iff_twoNames :
    let opening := Token.unplaced .leftParen "("
    let a := Token.unplaced .ident "a"
    let comma := Token.unplaced .comma ","
    let b := Token.unplaced .ident "b"
    let closing := Token.unplaced .rightParen ")"
    let s : State (List Token) := .start [opening, a, comma, b, closing] true
    let u : State (List Token) := .start [opening, a, comma, closing] true
    (∃ t, perform .functionParameters s =
        .ok (some [.identifier (some a) "a", .identifier (some b) "b"]) t ∧ t.current = closing) ∧
      ∃ t, perform .functionParameters u = .ok none t ∧ t.current = comma ∧ t.peek = closing ∧
        t.diagnostics = [⟨closing, .expected .ident⟩] := by
  intro opening a comma b closing s u
  have hlist : ParameterList ([a, comma, b, closing].map (·.kind)) := .inr (.more .last)
  have hahead : s.Ahead [a, comma, b, closing] := ⟨_, rfl, rfl, rfl, rfl, rfl⟩
  obtain ⟨hs, -⟩ := ((functionParameters_iff s).1 _ _).2 ⟨_, hahead, hlist, rfl, rfl⟩
  have hu : perform .functionParameters u =
    .ok none (u.advance.advance.record (.diagnostic ⟨closing, .expected .ident⟩)) := rfl
  -- had there been a list, it would have been read
  have hno : ∀ ts, u.Ahead ts → ¬ParameterList (ts.map (·.kind)) := by
    intro ts hts hlist'
    obtain ⟨hrun, -⟩ := ((functionParameters_iff u).1 _ _).2 ⟨ts, hts, hlist', rfl, rfl⟩
    rw [hu] at hrun
    cases hrun
  obtain ⟨ts, d, missed, t, -, hrun, -, -, -, -⟩ := (functionParameters_iff u).2 hno
  obtain ⟨-, rfl⟩ := EStateM.Result.ok.inj (hu.symm.trans hrun)
  exact ⟨⟨_, hs, rfl⟩, _, hrun, rfl, rfl, rfl⟩

end Pratt
