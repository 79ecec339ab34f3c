import Pratt.Lexer.Scan
import Pratt.Parser.Diagnostic
import Pratt.Text.Numeral

/-!
# Pratt — the state of a parser

A parser pulls tokens from a source, one at a time, and sees two of them: the
current token and the one after it. Anything that always has a next token can be
a source: a cursor over a text, or a list of tokens, which goes on with
end-of-input tokens when it is used up.

`Parse σ α` is an action of a parser over a source of type `σ`. It works on the
parser's `State` and ends with a result or with a `Fault`; the state is kept in
both cases. What is merely wrong in the input is not a fault but a diagnostic in
the journal of the state.
-/

namespace Pratt

/-! ## Sources of tokens -/

/-- What tokens can be pulled from without end. `remaining` bounds how many more tokens the
source has before it gives nothing but end-of-input tokens. -/
class TokenSource (σ : Type) where
  next : σ → Token × σ
  remaining : σ → Nat

instance : TokenSource Cursor where
  next := Cursor.scan
  remaining c := c.rest.length

/-- The next token of a list, which goes on without end. -/
def nextOfList : List Token → Token × List Token
  | [] => (.endOfInput, [])
  | t :: ts => (t, ts)

instance : TokenSource (List Token) where
  next := nextOfList
  remaining := List.length

/-! ## States and actions -/

/-- Why a parser cannot go on. -/
inductive Fault where
  /-- The text of an integer has more digits than can be converted. -/
  | oversizedInteger (digits : Nat)
  /-- A rule that has to be given something is registered where nothing is given. -/
  | missingArgument (rule : Rule)
  /-- A rule that takes nothing is registered where a left operand is given. -/
  | surplusArgument (rule : Rule)
  /-- An operand of the named kind is given as a bound and would have to be compared. -/
  | incomparableBound (kindName : String)
  /-- The rules of the tables lead back to each other without reading a token. -/
  | endlessRules
  deriving DecidableEq, Repr

/-- The text of a fault. -/
def Fault.message : Fault → String
  | .oversizedInteger digits =>
    "Exceeds the limit (" ++ toString Numeral.mostDigits ++
      " digits) for integer string conversion: value has " ++ toString digits ++
      " digits; use sys.set_int_max_str_digits() to increase the limit"
  | .missingArgument rule =>
    "Parser." ++ rule.name ++ "() missing 1 required positional argument: '" ++
      rule.argument?.getD "" ++ "'"
  | .surplusArgument rule =>
    "Parser." ++ rule.name ++ "() takes 1 positional argument but 2 were given"
  | .incomparableBound kindName =>
    "'<' not supported between instances of '" ++ kindName ++ "' and 'Precedence'"
  | .endlessRules => "the registered rules do not come to an end"

/-- The state of a parser. -/
structure State (σ : Type) where
  source : σ
  current : Token
  peek : Token
  /-- The rules for the tokens that start an expression. -/
  starting : RuleTable
  /-- The rules for the tokens that continue an expression. -/
  continuing : RuleTable
  tracing : Bool
  /-- How many traced rules are under way. -/
  depth : Nat
  journal : Array Event

/-- An action of a parser. -/
abbrev Parse (σ : Type) := EStateM Fault (State σ)

/-- What a parser sees of its input. -/
structure Window (σ : Type) where
  source : σ
  current : Token
  peek : Token

/-- What a parser sees of its input, and what it found wrong so far. The rest of its state is the
tables of rules and what belongs to a trace. -/
structure View (σ : Type) where
  window : Window σ
  diagnostics : List Diagnostic

namespace State

variable {σ : Type}

/-- The state with an entry added to the journal. -/
def record (s : State σ) (e : Event) : State σ :=
  { s with journal := s.journal.push e }

/-- What the parser found wrong so far. -/
def diagnostics (s : State σ) : List Diagnostic :=
  s.journal.toList.filterMap Event.diagnostic?

/-- What a state shows of the input and of the diagnostics. -/
def view (s : State σ) : View σ :=
  ⟨⟨s.source, s.current, s.peek⟩, s.diagnostics⟩

/-- The state at the start of a traced rule. -/
def enter (s : State σ) (r : Rule) : State σ :=
  { s.record (.enter s.depth r) with depth := s.depth + 1 }

/-- The state at the end of a traced rule. -/
def leave (s : State σ) (r : Rule) : State σ :=
  { s.record (.leave (s.depth - 1) r) with depth := s.depth - 1 }

variable [TokenSource σ]

/-- The state with the window moved on by one token. -/
def advance (s : State σ) : State σ :=
  let pulled := TokenSource.next s.source
  { s with source := pulled.2, current := s.peek, peek := pulled.1 }

/-- The state of a new parser: the window on the first two tokens, the rules of the language. -/
def start (source : σ) (tracing : Bool) : State σ :=
  let unfilled : State σ :=
    { source, tracing, current := .endOfInput, peek := .endOfInput,
      starting := .starting, continuing := .continuing, depth := 0, journal := #[] }
  -- Two pulls push the placeholders out of the window.
  unfilled.advance.advance

/-! ### The diagnostics of a state -/

omit [TokenSource σ] in
/-- An entry of the journal adds a diagnostic if it is one. -/
theorem diagnostics_record (s : State σ) (e : Event) :
    (s.record e).diagnostics = s.diagnostics ++ e.diagnostic?.toList := by
  simp only [diagnostics, record, Array.toList_push, List.filterMap_append]
  cases h : e.diagnostic? <;> simp [h]

omit [TokenSource σ] in
/-- The entries of a trace are no diagnostics. -/
@[simp] theorem diagnostics_enter (s : State σ) (r : Rule) :
    (s.enter r).diagnostics = s.diagnostics :=
  (diagnostics_record s (.enter s.depth r)).trans (List.append_nil _)

omit [TokenSource σ] in
@[simp] theorem diagnostics_leave (s : State σ) (r : Rule) :
    (s.leave r).diagnostics = s.diagnostics :=
  (diagnostics_record s (.leave (s.depth - 1) r)).trans (List.append_nil _)

@[simp] theorem diagnostics_advance (s : State σ) : s.advance.diagnostics = s.diagnostics := rfl

end State

/-! ## Basic actions -/

namespace Parse

variable {σ α β : Type}

/-- Adds a diagnostic to the journal. -/
def report (token : Token) (cause : Cause) : Parse σ Unit :=
  modify (·.record (.diagnostic ⟨token, cause⟩))

/-- Surrounds an action by the journal entries of a rule, when the parser is tracing and a trace
shows the rule. The end is recorded also when the action ends in a fault. -/
def traced (r : Rule) (action : Parse σ α) : Parse σ α := fun s =>
  if s.tracing && r.isTraced then
    match action (s.enter r) with
    | .ok a s' => .ok a (s'.leave r)
    | .error e s' => .error e (s'.leave r)
  else action s

variable [TokenSource σ]

/-- Moves the window on by one token. -/
def advance : Parse σ Unit :=
  modify State.advance

/-- Moves on to the next token when it is of the kind wanted and gives it; reports it when it is
of another. -/
def expect? (wanted : Kind) : Parse σ (Option Token) := do
  let ahead := (← get).peek
  if ahead.kind = wanted then
    advance
    return some ahead
  else
    report ahead (.expected wanted)
    return none

/-- Moves on over the next token when it is of the given kind. -/
def skipOptional (optional : Kind) : Parse σ Unit := do
  if (← get).peek.kind = optional then advance

/-! ### What the basic actions do -/

omit [TokenSource σ] in
@[simp] theorem report_eq (token : Token) (cause : Cause) (s : State σ) :
    report token cause s = .ok () (s.record (.diagnostic ⟨token, cause⟩)) := rfl

@[simp] theorem advance_eq (s : State σ) : advance s = .ok () s.advance := rfl

/-- A token that is there is moved on to and given. -/
theorem expect?_of_eq {s : State σ} {wanted : Kind} (h : s.peek.kind = wanted) :
    expect? wanted s = .ok (some s.peek) s.advance := by
  show (if s.peek.kind = wanted then (do advance; return some s.peek) else _ :
    Parse σ (Option Token)) s = _
  rw [if_pos h]
  rfl

/-- One that is not there is reported, and the window stays where it is. -/
theorem expect?_of_ne {s : State σ} {wanted : Kind} (h : s.peek.kind ≠ wanted) :
    expect? wanted s = .ok none (s.record (.diagnostic ⟨s.peek, .expected wanted⟩)) := by
  show (if s.peek.kind = wanted then _ else (do report s.peek (.expected wanted); return none) :
    Parse σ (Option Token)) s = _
  rw [if_neg h]
  rfl

/-- A token that may be there is passed over in silence if it is. -/
theorem skipOptional_eq (optional : Kind) (s : State σ) :
    skipOptional optional s = .ok () (if s.peek.kind = optional then s.advance else s) := by
  show (if s.peek.kind = optional then advance else pure () : Parse σ Unit) s = _
  split <;> rfl

omit [TokenSource σ] in
/-- After a result the second action is carried out in the state that the first one left. -/
theorem bind_eq_of_ok {a : Parse σ α} {f : α → Parse σ β} {s t : State σ} {v : α}
    (h : a s = .ok v t) : (a >>= f) s = f v t := by
  show EStateM.bind a f s = f v t
  unfold EStateM.bind
  rw [h]

omit [TokenSource σ] in
/-- A fault of the first action is one of the whole, and the second one is not carried out. -/
theorem bind_eq_of_error {a : Parse σ α} {f : α → Parse σ β} {s t : State σ} {e : Fault}
    (h : a s = .error e t) : (a >>= f) s = .error e t := by
  show EStateM.bind a f s = .error e t
  unfold EStateM.bind
  rw [h]

omit [TokenSource σ] in
/-- What comes next sees no more of the first action than how it ended. -/
theorem bind_eq_bind {a b : Parse σ α} {f : α → Parse σ β} {s : State σ} (h : a s = b s) :
    (a >>= f) s = (b >>= f) s := by
  show EStateM.bind a f s = EStateM.bind b f s
  unfold EStateM.bind
  rw [h]

/-- How an action ended, with something done to the state behind it, be it a result or a fault. -/
def afterwards (f : State σ → State σ) :
    EStateM.Result Fault (State σ) α → EStateM.Result Fault (State σ) α
  | .ok a s => .ok a (f s)
  | .error e s => .error e (f s)

omit [TokenSource σ] in
/-- Nothing done behind an action is no difference. -/
theorem afterwards_id (r : EStateM.Result Fault (State σ) α) : afterwards id r = r := by
  cases r <;> rfl

omit [TokenSource σ] in
/-- Where a trace shows the rule, the action is carried out between the two entries. -/
theorem traced_of_shown {r : Rule} {s : State σ} (shown : (s.tracing && r.isTraced) = true)
    (action : Parse σ α) : traced r action s = afterwards (·.leave r) (action (s.enter r)) := by
  unfold traced
  rw [if_pos shown]
  cases action (s.enter r) <;> rfl

omit [TokenSource σ] in
/-- Where a trace does not show the rule, a traced action is the action. -/
theorem traced_of_not_shown {r : Rule} {s : State σ} (hidden : ¬(s.tracing && r.isTraced) = true)
    (action : Parse σ α) : traced r action s = action s :=
  if_neg hidden

omit [TokenSource σ] in
/-- Without tracing, a traced action is the action. -/
theorem traced_of_not_tracing {r : Rule} {action : Parse σ α} {s : State σ}
    (h : s.tracing = false) : traced r action s = action s :=
  traced_of_not_shown (by simp [h]) action

end Parse

end Pratt
