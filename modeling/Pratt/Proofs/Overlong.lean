import Pratt.Proofs.Description
import Pratt.Proofs.Shortening

/-!
# Pratt — where an overlong integer is an error

An integer with too many digits ends a parse in a fault, but only if it is read as an integer. It
may stand where something else should be, and is then reported as any token is; and it may be
skipped. Which of these it is can be told from a shorter integer that is out of range: where that
one is reported not to be an integer, the overlong one is a fault.

The parse of the shortened tokens goes on where the parse of the tokens stops
(`Parse.outlasts_perform`), and comes to the same otherwise. Several tokens may be equal in all their
parts; for telling which of them is reported, each is put in a line of its own (`Token.numbered`).

* `Refuses` — a diagnostic says of a token that it is no integer.
* `stops_at_overlong` — when a parse ends in a fault, and in which state; and that otherwise the
  parse of the shortened tokens is no different.
-/

namespace Pratt

/-! ## The parse of the shortened tokens -/

/-- A parser of shortened tokens sees them in the place of the tokens themselves. -/
theorem relates_shorten (ts : List Token) (tracing tracing' : Bool) :
    shortening.Relates (State.start ts tracing) (State.start (ts.map Token.shorten) tracing') := by
  have hend : Token.endOfInput.shorten = .endOfInput := Token.shorten_of_ne nofun
  refine ⟨⟨rfl, rfl⟩, ⟨rfl, rfl⟩, fun i => ?_, rfl⟩
  show (Window.filled (ts.map Token.shorten)).nth i = ((Window.filled ts).nth i).shorten
  rw [Window.nth_filled, Window.nth_filled]
  conv_lhs => rw [← hend]
  exact List.getD_map ts .endOfInput Token.shorten

/-- The parse of the shortened tokens gives a tree. The parse of the tokens themselves gives the
same one, not shortened; or it stopped at an overlong integer, with nothing reported but what is
reported in front of that one. -/
theorem exists_parse_of_shortened (ts : List Token) (tracing : Bool) :
    ∃ tree s t, parseProgram (ts.map Token.shorten) tracing = (.ok (shortening.node tree), t) ∧
      shortening.Relates s t ∧ (parseProgram ts tracing = (.ok tree, s) ∨
        ∃ u, parseProgram ts tracing =
            (.error (.oversizedInteger u.current.literal.length), u) ∧ u.current.Overlong ∧
          u.diagnostics.map shortening.diagnostic ++ [⟨u.current.shorten, .notInteger⟩] <+:
            t.diagnostics) := by
  have short : ∀ t ∈ ts.map Token.shorten, t.kind = .int → ∀ digits,
      Numeral.read t.literal.toList ≠ .oversized digits := by
    rintro _ ht hk
    obtain ⟨t, -, rfl⟩ := List.mem_map.1 ht
    exact Token.read_shorten_ne_oversized (t.kind_shorten ▸ hk)
  -- with shortened tokens nothing stops the parse
  obtain ⟨tree', t, hrun⟩ := exists_tree_of_parseProgram short tracing
  have hshort : Parse.perform .program (State.start (ts.map Token.shorten) tracing) =
      .ok tree' t := Parse.eq_ok_of_outcome hrun
  have outlasts : Parse.Outlasts (σ := List Token) (τ := List Token) shortening.node
      (Parse.perform .program) (Parse.perform .program) := Parse.outlasts_perform .program
  obtain ⟨-, x, ends, hx⟩ := outlasts _ _ (relates_shorten ts tracing tracing)
  rw [hshort] at ends hx
  cases ends with
  | @ok tree s _ related =>
    refine ⟨tree, s, t, hrun, related, ?_⟩
    unfold parseProgram Parse.outcome
    rcases hx with heq | ⟨u, hstop, hlong, hreported⟩
    · rw [heq]
      exact .inl rfl
    · rw [hstop]
      exact .inr ⟨u, rfl, hlong, hreported⟩

/-! ## Tokens in lines of their own -/

namespace Token

/-- The tokens with each in a line of its own, so that equal ones can be told from each other. -/
def numbered (ts : List Token) : List Token :=
  ts.mapIdx fun i t => t.relocate fun _ => ⟨i + 1, 1⟩

/-- Where a token stands in the list, told from the line it has when the list is numbered. -/
def original (ts : List Token) (t : Token) : Location :=
  ((.endOfInput :: ts).getD t.location.line.toNat .endOfInput).location

/-- Each token is moved to the line of its number. -/
theorem getElem?_numbered (ts : List Token) (i : Nat) :
    (numbered ts)[i]? = ts[i]?.map (relocate fun _ => ⟨i + 1, 1⟩) :=
  List.getElem?_mapIdx

/-- What stands at a number was there before, in another place. -/
theorem exists_of_numbered {ts : List Token} {i : Nat} {t : Token} (h : t ∈ (numbered ts)[i]?) :
    ∃ u, ts[i]? = some u ∧ t = u.relocate fun _ => ⟨i + 1, 1⟩ := by
  rw [getElem?_numbered] at h
  obtain ⟨u, hu, rfl⟩ := Option.map_eq_some_iff.1 h
  exact ⟨u, hu, rfl⟩

/-- Shortening looks at no place, so it can be done before numbering or after. -/
theorem numbered_map_shorten (ts : List Token) :
    numbered (ts.map shorten) = (numbered ts).map shorten := by
  refine List.ext_getElem? fun i => ?_
  rw [getElem?_numbered, List.getElem?_map, List.getElem?_map, getElem?_numbered, Option.map_map,
    Option.map_map]
  exact congrArg (Option.map · ts[i]?) (funext fun t => (shorten_relocate _).symm)

/-- What stands behind the list included, a numbered token is in no other place than its own. -/
theorem place_of_location (ts : List Token) {i m : Nat}
    (h : ((numbered ts).getD m .endOfInput).location = ⟨i + 1, 1⟩) : m = i := by
  rw [List.getD_eq_getElem?_getD, getElem?_numbered] at h
  cases hm : ts[m]? with
  | none =>
    rw [hm] at h
    cases h
  | some t =>
    rw [hm] at h
    have hline : (m : Int) + 1 = i + 1 := congrArg Location.line h
    omega

/-- A token that is no end of the input stands in the list. -/
theorem getElem?_of_getD {ts : List Token} {i : Nat} {t : Token}
    (h : ts.getD i .endOfInput = t) (hk : t.kind ≠ .eof) : ts[i]? = some t := by
  rw [List.getD_eq_getElem?_getD] at h
  cases hi : ts[i]? with
  | none =>
    rw [hi] at h
    exact absurd (congrArg kind h).symm hk
  | some u =>
    rw [hi] at h
    exact congrArg some h

/-- The tokens of the list are the numbered ones, where they stood. -/
theorem getD_numbered (ts : List Token) (i : Nat) :
    ts.getD i .endOfInput = ((numbered ts).getD i .endOfInput).relocate (original ts) := by
  rw [List.getD_eq_getElem?_getD, List.getD_eq_getElem?_getD, getElem?_numbered]
  cases hi : ts[i]? with
  | none =>
    -- the end of the input is in line zero, and so it stays where it is
    rfl
  | some t =>
    have hline : ((i : Int) + 1).toNat = i + 1 := by omega
    show t = t.relocate fun _ => ((.endOfInput :: ts).getD ((i : Int) + 1).toNat _).location
    rw [hline, List.getD_cons_succ, List.getD_eq_getElem?_getD, hi]
    rfl

end Token

/-- A parser of the tokens sees the numbered ones, where they stood. -/
theorem relates_numbered (ts : List Token) (tracing : Bool) :
    (relocation (Token.original ts)).Relates (State.start (Token.numbered ts) false)
      (State.start ts tracing) := by
  refine ⟨⟨rfl, rfl⟩, ⟨rfl, rfl⟩, fun i => ?_, rfl⟩
  show (Window.filled ts).nth i = ((Window.filled (Token.numbered ts)).nth i).relocate _
  rw [Window.nth_filled, Window.nth_filled, Token.getD_numbered]

/-- The parse of the numbered tokens is the parse of the tokens, at other places. -/
theorem exists_parse_of_numbered (ts : List Token) (tracing : Bool) :
    ∃ t, parseProgram ts tracing = ((parseProgram (Token.numbered ts) false).1.map
        (relocation (Token.original ts)).node, t) ∧
      (relocation (Token.original ts)).Relates (parseProgram (Token.numbered ts) false).2 t := by
  obtain ⟨r, s, t, hnumbered, hrun, hrelates⟩ := Parse.exists_outcome_respelled
    (verbatim_relocation _) (relates_numbered ts tracing) .program
  change parseProgram (Token.numbered ts) false = _ at hnumbered
  rw [hnumbered]
  exact ⟨t, hrun, hrelates⟩

/-! ## What is refused -/

/-- The token in the place is an integer with too many digits to be converted. -/
def OverlongAt (ts : List Token) (i : Nat) : Prop :=
  ∃ t ∈ ts[i]?, t.Overlong

/-- In the parse of the tokens the diagnostic number `k` says of the token in place `i` that it is
no integer. -/
def Refuses (ts : List Token) (k i : Nat) : Prop :=
  ∃ t ∈ (Token.numbered ts)[i]?,
    (parseProgram (Token.numbered ts) false).2.diagnostics[k]? = some ⟨t, .notInteger⟩

/-- What is refused by the parse of the numbered tokens is refused by that of the tokens. -/
theorem Refuses.exists_diagnostic {ts : List Token} {k i : Nat} (h : Refuses ts k i)
    (tracing : Bool) : ∃ t, ts[i]? = some t ∧
      (parseProgram ts tracing).2.diagnostics[k]? = some ⟨t, .notInteger⟩ := by
  obtain ⟨u, hu, hd⟩ := h
  obtain ⟨s, hrun, hrelates⟩ := exists_parse_of_numbered ts tracing
  obtain ⟨t, ht, -⟩ := Token.exists_of_numbered hu
  have hplace : t = u.relocate (Token.original ts) := by
    have hget := Token.getD_numbered ts i
    rwa [List.getD_eq_getElem?_getD, List.getD_eq_getElem?_getD, ht, Option.mem_def.1 hu] at hget
  refine ⟨t, ht, ?_⟩
  rw [hrun, hrelates.diagnostics, List.getElem?_map, hd, hplace]
  rfl

/-- Whether or not a parse ends in a fault, it has reported in order and with reason. -/
theorem orderly_warranted (ts : List Token) (tracing : Bool) :
    (parseProgram ts tracing).2.view.Orderly (View.start ts).window 1 ∧
      (parseProgram ts tracing).2.view.Warranted := by
  have ordered : (View.start ts).Orderly (View.start ts).window 0 := ⟨0, rfl, .nil _ _⟩
  have warranted : (View.start ts).Warranted := fun d hd => absurd hd List.not_mem_nil
  have achieves : Parse.Achieves .program (View.start ts)
      (fun _ y => y.Orderly (View.start ts).window 1 ∧ y.Warranted)
      fun _ y => y.Orderly (View.start ts).window 1 ∧ y.Warranted := by
    intro fuel
    -- the two are kept by the same run, so they hold together where it ends
    have keeps := (Parse.keepsOrder (View.start ts).window fuel .program ordered).and
      (Parse.keepsWarranted fuel .program warranted)
    exact keeps.imp (fun _ _ h => ⟨View.Orderly.relax h.1, h.2⟩) fun _ _ h _ => h
  rcases achieves.parseProgram tracing with ⟨tree, s, hrun, h⟩ | ⟨e, s, hrun, h⟩
  · rwa [hrun]
  · rwa [hrun]

/-- The window is on two tokens that stand one behind the other. -/
theorem View.Orderly.exists_place {ts : List Token} {slack : Nat} {y : View (List Token)}
    (h : y.Orderly (View.start ts).window slack) :
    ∃ i, ts.getD i .endOfInput = y.current ∧ ts.getD (i + 1) .endOfInput = y.peek := by
  obtain ⟨i, hwindow, -⟩ := h
  have hcurrent : (View.start ts).window.nth i = y.current := congrArg Window.current hwindow.symm
  have hpeek : (View.start ts).window.nth (i + 1) = y.peek := by
    show (Window.advance^[i + 1] (View.start ts).window).current = y.window.advance.current
    rw [Function.iterate_succ_apply', hwindow]
  exact ⟨i, (Window.nth_filled ts i).symm.trans hcurrent,
    (Window.nth_filled ts (i + 1)).symm.trans hpeek⟩

/-- Refused tokens stand in the order in which they are refused. -/
theorem Refuses.mono {ts : List Token} {k l i j : Nat} (h : Refuses ts k i) (h' : Refuses ts l j)
    (hle : k ≤ l) : i ≤ j := by
  obtain ⟨⟨-, -, places, htokens, hsorted, -⟩, -⟩ := orderly_warranted (Token.numbered ts) false
  -- each diagnostic is in the place of its token
  have place : ∀ {k i : Nat}, Refuses ts k i → places[k]? = some i := by
    rintro k i ⟨t, ht, hd⟩
    have htoken := congrArg (·[k]?) htokens
    rw [List.getElem?_map, List.getElem?_map,
      show (parseProgram (Token.numbered ts) false).2.view.diagnostics[k]? = _ from hd] at htoken
    obtain ⟨m, hm, hnth⟩ := Option.map_eq_some_iff.1 htoken.symm
    obtain rfl : m = i := by
      refine Token.place_of_location ts ?_
      rw [← Window.nth_filled]
      obtain ⟨_, -, rfl⟩ := Token.exists_of_numbered ht
      exact congrArg Token.location hnth
    exact hm
  -- and the places are sorted
  obtain ⟨hk, rfl⟩ := List.getElem?_eq_some_iff.1 (place h)
  obtain ⟨hl, rfl⟩ := List.getElem?_eq_some_iff.1 (place h')
  rcases hle.eq_or_lt with rfl | hlt
  · exact le_rfl
  · exact List.pairwise_iff_getElem.1 hsorted k l hk hl hlt

/-- No parse refuses an overlong integer. -/
theorem not_overlongAt_of_mem {ts : List Token} {d : Diagnostic} {i : Nat}
    (hd : d ∈ (parseProgram (Token.numbered ts) false).2.diagnostics)
    (hcause : d.cause = .notInteger) (hplace : d.token.location = ⟨i + 1, 1⟩) :
    ¬OverlongAt ts i := by
  rintro ⟨t, ht, hlong⟩
  obtain ⟨⟨-, -, places, htokens, -, -⟩, hwarranted⟩ := orderly_warranted (Token.numbered ts) false
  -- the token of the diagnostic is the one in the place
  have hmem : d.token ∈ places.map (View.start (Token.numbered ts)).window.nth :=
    htokens ▸ List.mem_map_of_mem hd
  obtain ⟨m, -, hm⟩ := List.mem_map.1 hmem
  have hnth : (Token.numbered ts).getD m .endOfInput = d.token :=
    (Window.nth_filled _ m).symm.trans hm
  obtain rfl : m = i := Token.place_of_location ts (hnth ▸ hplace)
  rw [List.getD_eq_getElem?_getD, Token.getElem?_numbered, Option.mem_def.1 ht] at hnth
  refine (hwarranted d hd).not_overlong hcause ?_
  rw [← hnth]
  exact hlong

/-! ## When a parse ends in a fault -/

/-- The parse of the tokens ended in a fault at the overlong one in place `i`. It is the first one
of which the parse of the shortened tokens says that it is no integer, which is its diagnostic
number `k`, and those before this one are all that was reported. -/
structure StoppedAt (ts : List Token) (k i : Nat) (e : Fault) (s s' : State (List Token)) :
    Prop where
  refused : Refuses (ts.map Token.shorten) k i
  overlong : OverlongAt ts i
  first : ∀ l j, Refuses (ts.map Token.shorten) l j → OverlongAt ts j → k ≤ l ∧ i ≤ j
  fault : e = .oversizedInteger s.current.literal.length
  current : ts[i]? = some s.current
  peek : s.peek = ts.getD (i + 1) .endOfInput
  messages : s.diagnostics.map Diagnostic.message = (s'.diagnostics.take k).map Diagnostic.message

section Compared

variable {ts : List Token} {tree' : Node} {s' : State (List Token)}
  (hshort : parseProgram ((Token.numbered ts).map Token.shorten) false = (.ok tree', s'))
include hshort

/-- What the parse of the shortened numbered tokens reports of a token is refused. -/
theorem refuses_of_getElem? {k i : Nat} {t : Token} (ht : (Token.numbered ts)[i]? = some t)
    (hd : s'.diagnostics[k]? = some ⟨t.shorten, .notInteger⟩) :
    Refuses (ts.map Token.shorten) k i := by
  refine ⟨t.shorten, ?_, ?_⟩
  · rw [Token.numbered_map_shorten, List.getElem?_map, ht]
    rfl
  · rw [Token.numbered_map_shorten, hshort]
    exact hd

/-- What is refused is reported in the line of its own. -/
theorem Refuses.exists_getElem? {k i : Nat} (h : Refuses (ts.map Token.shorten) k i) :
    ∃ d, s'.diagnostics[k]? = some d ∧ d.cause = .notInteger ∧
      d.token.location = ⟨i + 1, 1⟩ := by
  obtain ⟨t, ht, hd⟩ := h
  rw [Token.numbered_map_shorten, hshort] at hd
  obtain ⟨u, -, rfl⟩ := Token.exists_of_numbered ht
  exact ⟨_, hd, rfl, rfl⟩

omit hshort in
/-- What is reported of a shortened token is reported of no other token than the one in its
place. -/
theorem not_overlongAt_of_shortened {ds : List Diagnostic} {k i : Nat} {d : Diagnostic}
    (hds : ∀ d ∈ ds, d ∈ (parseProgram (Token.numbered ts) false).2.diagnostics)
    (hget : (ds.map shortening.diagnostic)[k]? = some d) (hcause : d.cause = .notInteger)
    (hlocation : d.token.location = ⟨i + 1, 1⟩) : ¬OverlongAt ts i := by
  rw [List.getElem?_map] at hget
  obtain ⟨d, hd, rfl⟩ := Option.map_eq_some_iff.1 hget
  exact not_overlongAt_of_mem (hds d (List.mem_of_getElem? hd)) hcause
    (d.token.location_shorten ▸ hlocation)

/-- Where the parse of the numbered tokens stopped, that of the tokens did. -/
theorem stoppedAt_of_fault {u t t' : State (List Token)} (hlong : u.current.Overlong)
    (hfault : parseProgram (Token.numbered ts) false =
      (.error (.oversizedInteger u.current.literal.length), u))
    (hbefore : u.diagnostics.map shortening.diagnostic ++ [⟨u.current.shorten, .notInteger⟩] <+:
      s'.diagnostics)
    (hrelates : (relocation (Token.original ts)).Relates u t)
    (hrelates' : (relocation (Token.original (ts.map Token.shorten))).Relates s' t') :
    ∃ k i, StoppedAt ts k i (.oversizedInteger u.current.literal.length) t t' := by
  have hknown := orderly_warranted (Token.numbered ts) false
  rw [hfault] at hknown
  obtain ⟨hordered, hwarranted⟩ := hknown
  obtain ⟨i, hcurrent, hpeek⟩ := hordered.exists_place
  change (Token.numbered ts).getD i .endOfInput = u.current at hcurrent
  change (Token.numbered ts).getD (i + 1) .endOfInput = u.peek at hpeek
  have htoken : t.current = u.current.relocate (Token.original ts) := hrelates.tokens 0
  have hne : u.current.kind ≠ .eof := by
    rw [hlong.1]
    decide
  have hplace : ts[i]? = some t.current := by
    refine Token.getElem?_of_getD ?_ (htoken ▸ hne)
    rw [Token.getD_numbered, hcurrent, htoken]
  obtain ⟨later, hlater⟩ := hbefore
  have hlength : (u.diagnostics.map shortening.diagnostic).length = u.diagnostics.length :=
    List.length_map ..
  have refused : Refuses (ts.map Token.shorten) u.diagnostics.length i := by
    refine refuses_of_getElem? hshort (Token.getElem?_of_getD hcurrent hne) ?_
    rw [← hlater, List.append_assoc, List.getElem?_append_right hlength.le, hlength, Nat.sub_self]
    rfl
  have first : ∀ l j, Refuses (ts.map Token.shorten) l j → OverlongAt ts j →
      u.diagnostics.length ≤ l ∧ i ≤ j := by
    intro l j hl hj
    have hle : u.diagnostics.length ≤ l := by
      -- what comes earlier was reported by the parse that stopped, too
      by_contra hlt
      obtain ⟨d, hget, hcause, hlocation⟩ := hl.exists_getElem? hshort
      rw [← hlater, List.append_assoc,
        List.getElem?_append_left (hlength.symm ▸ not_le.1 hlt)] at hget
      refine not_overlongAt_of_shortened (fun d hd => ?_) hget hcause hlocation hj
      rwa [hfault]
    exact ⟨hle, refused.mono hl hle⟩
  have messages : t.diagnostics.map Diagnostic.message =
      (t'.diagnostics.take u.diagnostics.length).map Diagnostic.message := by
    rw [hrelates.diagnostics, hrelates'.diagnostics, ← List.map_take,
      (verbatim_relocation _).map_message_diagnostic,
      (verbatim_relocation _).map_message_diagnostic, ← hlater, List.append_assoc, ← hlength,
      List.take_left]
    exact (map_message_shorten hwarranted).symm
  exact ⟨u.diagnostics.length, i,
    { refused := refused
      overlong := ⟨t.current, hplace, htoken ▸ Token.overlong_relocate.2 hlong⟩
      first := first
      fault := by rw [htoken]; rfl
      current := hplace
      peek := by
        rw [Token.getD_numbered, hpeek]
        exact hrelates.tokens 1
      messages := messages }⟩

/-- Where the parse of the numbered tokens gave a tree, nothing overlong was refused, and that of
the tokens gave the same tree and messages as that of the shortened ones. -/
theorem unrefused_of_parsed {tree : Node} {s t t' : State (List Token)}
    (hparsed : parseProgram (Token.numbered ts) false = (.ok tree, s))
    (hshortened : shortening.Relates s s')
    (hrelates : (relocation (Token.original ts)).Relates s t)
    (hrelates' : (relocation (Token.original (ts.map Token.shorten))).Relates s' t') :
    (∀ k i, Refuses (ts.map Token.shorten) k i → ¬OverlongAt ts i) ∧
      tree.same (shortening.node tree) = true ∧
      t.diagnostics.map Diagnostic.message = t'.diagnostics.map Diagnostic.message := by
  -- what the parse did not stop at is reported as it is, with the same message
  have hknown := orderly_warranted (Token.numbered ts) false
  rw [hparsed] at hknown
  obtain ⟨-, hwarranted⟩ := hknown
  refine ⟨fun k i h => ?_, ?_, ?_⟩
  · obtain ⟨d, hget, hcause, hlocation⟩ := h.exists_getElem? hshort
    rw [hshortened.diagnostics] at hget
    refine not_overlongAt_of_shortened (fun d hd => ?_) hget hcause hlocation
    rwa [hparsed]
  · obtain ⟨ns, rfl, hns⟩ := shaped_of_parseProgram hparsed
    rw [Node.same_iff_withoutTokens, Respelling.node, Node.withoutTokens, Node.withoutTokens,
      shortening.each_eq_map, Node.withoutTokensEach_eq_map, Node.withoutTokensEach_eq_map,
      List.map_map]
    exact congrArg Node.program
      (List.map_congr_left fun n hn => (hns n hn).withoutTokens_shorten.symm)
  · rw [hrelates.diagnostics, hrelates'.diagnostics,
      (verbatim_relocation _).map_message_diagnostic,
      (verbatim_relocation _).map_message_diagnostic, hshortened.diagnostics]
    exact (map_message_shorten hwarranted).symm

end Compared

/-- A parse ends in a fault exactly if that of the shortened tokens says of an overlong one that it
is no integer. Then it stopped at the first of which this is said, and had reported what is reported
before that. Otherwise the two parses give equal trees and report the same. -/
theorem stops_at_overlong (ts : List Token) (tracing : Bool) :
    ∃ tree' s', parseProgram (ts.map Token.shorten) tracing = (.ok tree', s') ∧
      (∀ k i, Refuses (ts.map Token.shorten) k i → ∃ t, (ts.map Token.shorten)[i]? = some t ∧
        s'.diagnostics[k]? = some ⟨t, .notInteger⟩) ∧
      ((∃ e s, parseProgram ts tracing = (.error e, s)) ↔
        ∃ k i, Refuses (ts.map Token.shorten) k i ∧ OverlongAt ts i) ∧
      (∀ e s, parseProgram ts tracing = (.error e, s) → ∃ k i, StoppedAt ts k i e s s') ∧
      ∀ tree s, parseProgram ts tracing = (.ok tree, s) → (tree == tree') = true ∧
        s.diagnostics.map Diagnostic.message = s'.diagnostics.map Diagnostic.message := by
  obtain ⟨tree, s, s', hshort, hshortened, hends⟩ :=
    exists_parse_of_shortened (Token.numbered ts) false
  obtain ⟨t, hrun, hrelates⟩ := exists_parse_of_numbered ts tracing
  obtain ⟨t', hrun', hrelates'⟩ := exists_parse_of_numbered (ts.map Token.shorten) tracing
  rw [Token.numbered_map_shorten, hshort] at hrun' hrelates'
  refine ⟨_, t', hrun', fun k i h => ?_, ?_⟩
  · have hrefused := h.exists_diagnostic tracing
    rwa [hrun'] at hrefused
  rcases hends with hparsed | ⟨u, hfault, hlong, hbefore⟩
  -- nothing overlong was read
  · rw [hparsed] at hrun hrelates
    obtain ⟨unrefused, hsame, hmessages⟩ :=
      unrefused_of_parsed hshort hparsed hshortened hrelates hrelates'
    rw [hrun]
    refine ⟨⟨?_, ?_⟩, ?_, ?_⟩
    · rintro ⟨e, s, h⟩
      cases h
    · rintro ⟨k, i, hrefused, hlong⟩
      exact absurd hlong (unrefused k i hrefused)
    · rintro e s h
      cases h
    · rintro _ _ h
      cases h
      refine ⟨?_, hmessages⟩
      rw [Node.beq_eq_same, Node.same_iff_describe, (verbatim_relocation _).describe_node,
        (verbatim_relocation _).describe_node, ← Node.same_iff_describe]
      exact hsame
  -- the parse stopped at the token that the lenient one reported next
  · rw [hfault] at hrun hrelates
    obtain ⟨k, i, hstopped⟩ := stoppedAt_of_fault hshort hlong hfault hbefore hrelates hrelates'
    rw [hrun]
    refine ⟨⟨fun _ => ⟨k, i, hstopped.refused, hstopped.overlong⟩, fun _ => ⟨_, _, rfl⟩⟩, ?_, ?_⟩
    · rintro e s h
      cases h
      exact ⟨k, i, hstopped⟩
    · rintro tree s h
      cases h

/-- Of two overlong integers the first one stands where a name should be, and is reported for that.
It is the second one that the parse stops at. -/
theorem stops_at_second_overlong :
    let long := Token.unplaced .int (String.ofList (List.replicate 4301 '7'))
    let tokens := [.unplaced .letWord "let", long, .unplaced .semicolon ";", long]
    long.Overlong ∧ ∃ e s, parseProgram tokens false = (.error e, s) ∧ s.current = long ∧
      s.peek = .endOfInput ∧ s.diagnostics.map Diagnostic.message =
        ["expected next token to be IDENT, got INT instead"] := by
  intro long tokens
  have htext : long.literal.toList = List.replicate 4301 '7' := String.toList_ofList
  have hlong : long.Overlong := by
    refine ⟨rfl, ?_, ?_⟩
    · rw [htext, Numeral.isNumeral_iff]
      exact ⟨nofun, fun c hc => List.eq_of_mem_replicate hc ▸ by decide⟩
    · rw [htext, List.length_replicate]
      decide
  let short := Token.unplaced .int "9223372036854775808"
  let shortened := [.unplaced .letWord "let", short, .unplaced .semicolon ";", short]
  have hshortened : tokens.map Token.shorten = shortened := by
    simp only [tokens, List.map_cons, Token.shorten_of_overlong hlong]
    rfl
  have hreported : (parseProgram (Token.numbered shortened) false).2.diagnostics =
    [⟨⟨.int, "9223372036854775808", ⟨2, 1⟩⟩, .expected .ident⟩,
      ⟨⟨.int, "9223372036854775808", ⟨4, 1⟩⟩, .notInteger⟩] := by decide +kernel
  have hmessages : ((parseProgram shortened false).2.diagnostics.take 1).map Diagnostic.message =
      ["expected next token to be IDENT, got INT instead"] := by decide +kernel
  have hrefused : Refuses (tokens.map Token.shorten) 1 3 := by
    rw [hshortened]
    exact ⟨⟨.int, "9223372036854775808", ⟨4, 1⟩⟩, rfl, by rw [hreported]; rfl⟩
  obtain ⟨_, s', hrun', -, hfaults, hstops, -⟩ := stops_at_overlong tokens false
  obtain ⟨e, s, hrun⟩ := hfaults.2 ⟨1, 3, hrefused, long, rfl, hlong⟩
  obtain ⟨k, i, hstopped⟩ := hstops e s hrun
  obtain ⟨hk, -⟩ := hstopped.first 1 3 hrefused ⟨long, rfl, hlong⟩
  obtain ⟨t, ht, hd⟩ := hstopped.refused
  rw [hshortened] at ht hd hrun'
  rw [hreported] at hd
  -- it is the second diagnostic, which is at the last token
  obtain rfl : k = 1 := by
    rcases Nat.le_one_iff_eq_zero_or_eq_one.1 hk with rfl | rfl
    · cases hd
    · rfl
  obtain rfl : i = 3 := by
    refine Token.place_of_location shortened ?_
    rw [List.getD_eq_getElem?_getD, Option.mem_def.1 ht]
    cases hd
    rfl
  refine ⟨hlong, e, s, hrun, (Option.some.inj hstopped.current).symm, hstopped.peek, ?_⟩
  rw [hstopped.messages, ← hmessages, hrun']

end Pratt
