import Pratt.Parser.Program

/-!
# Pratt — parsing by hand

A parser can be driven one request at a time, and each request is carried out where the one before
it left the parser, be it in a fault. `Parse.reported` says of any action what came of it
(`Report`), and `session` does so for one request after the other, whatever they are:

* `calls`: goals, each pursued from whatever the current token is;
* `Command`: goals too, but also moves of the window, looks at it, and changes of the tables.
-/

namespace Pratt

/-! ## What comes of a request -/

/-- What came of an action: the outcome, what was added to the journal, and what is seen and how
many traced rules are under way afterwards. -/
structure Report (σ α : Type) where
  outcome : Except Fault α
  events : List Event
  view : View σ
  depth : Nat

variable {σ α ι : Type} {R : ι → Type}

/-- The current token afterwards. -/
def Report.current (r : Report σ α) : Token := r.view.window.current

/-- The token after the current one, afterwards. -/
def Report.peek (r : Report σ α) : Token := r.view.window.peek

/-- The diagnostics among what was added to the journal. -/
def Report.diagnostics (r : Report σ α) : List Diagnostic :=
  r.events.filterMap Event.diagnostic?

/-- A request and what came of it. -/
structure Call (σ : Type) {ι : Type} (R : ι → Type) where
  request : ι
  report : Report σ (R request)

/-- Carries out an action in a state and reports on it. -/
def Parse.reported (action : Parse σ α) (s : State σ) : Report σ α × State σ :=
  let (outcome, s') := action.outcome s
  (⟨outcome, s'.journal.toList.drop s.journal.size, s'.view, s'.depth⟩, s')

/-- Requests carried out one after the other. A fault does not keep the later ones from being
made. -/
def session (perform : (i : ι) → Parse σ (R i)) : List ι → State σ → List (Call σ R)
  | [], _ => []
  | i :: is, s =>
    let (r, s') := (perform i).reported s
    ⟨i, r⟩ :: session perform is s'

/-- Goals pursued one after the other. -/
def calls [TokenSource σ] (gs : List Goal) (s : State σ) : List (Call σ Goal.Result) :=
  session Parse.perform gs s

/-! ## Commands -/

/-- One thing to do with a parser. -/
inductive Command where
  | pursue (g : Goal)
  | diagnostics
  /-- Empties a copy of the list of diagnostics, which changes nothing in the parser. -/
  | clearCopy
  | advance
  | recover
  | expect (wanted : Kind)
  | currentIs (k : Kind)
  | peekIs (k : Kind)
  | currentLevel
  | peekLevel
  | registerStarting (k : Kind) (r : Rule)
  | registerContinuing (k : Kind) (r : Rule)
  | removeStarting (k : Kind)
  | removeContinuing (k : Kind)
  | registered

/-- What a command gives. -/
inductive Reply where
  | node (n : Option Node)
  | nodes (ns : Option (List Node))
  | diagnostics (ds : List Diagnostic)
  | flag (b : Bool)
  | level (n : Int)
  /-- The names of the kinds that have a rule, for starting and for continuing an expression. -/
  | kinds (starting continuing : List String)
  | nothing

/-- The result of a goal as a reply. -/
def Goal.reply : (g : Goal) → g.Result → Reply
  | .program, n | .returnStatement, n | .expressionStatement, n | .identifier, n
  | .boolean, n => .node (some n)
  | .statement, n | .letStatement, n | .blockStatement, n | .expression _, n
  | .integerLiteral, n | .prefixExpression, n | .infixExpression _, n | .groupedExpression, n
  | .ifExpression, n | .functionLiteral, n | .callExpression _, n
  | .continuation _ _, n => .node n
  | .functionParameters, ns | .expressionList _, ns | .parameters, ns => .nodes ns
  | .statements _, ns => .nodes (some ns)
  | .expressions, ns => .nodes (ns.mapM id)
  | .recovery _, _ => .nothing

namespace Command

variable [TokenSource σ]

/-- Carries out a command. -/
def perform : Command → Parse σ Reply
  | .pursue g => return g.reply (← Parse.perform g)
  | .diagnostics => return .diagnostics (← get).diagnostics
  | .clearCopy => return .nothing
  | .advance => do
    Parse.advance
    return .nothing
  | .recover => do
    Parse.perform (.recovery 0)
    return .nothing
  | .expect wanted => return .flag (← Parse.expect? wanted).isSome
  | .currentIs k => return .flag ((← get).current.kind = k)
  | .peekIs k => return .flag ((← get).peek.kind = k)
  | .currentLevel => return .level (← get).current.kind.level
  | .peekLevel => return .level (← get).peek.kind.level
  | .registerStarting k r => do
    modify fun s => { s with starting := s.starting.insert k r }
    return .nothing
  | .registerContinuing k r => do
    modify fun s => { s with continuing := s.continuing.insert k r }
    return .nothing
  | .removeStarting k => do
    let found := ((← get).starting.find? k).isSome
    modify fun s => { s with starting := s.starting.erase k }
    return .flag found
  | .removeContinuing k => do
    let found := ((← get).continuing.find? k).isSome
    modify fun s => { s with continuing := s.continuing.erase k }
    return .flag found
  | .registered => do
    let s ← get
    return .kinds s.starting.kindNames s.continuing.kindNames

/-- Carries out a command in a state and reports on it. -/
def report (c : Command) (s : State σ) : Report σ Reply × State σ :=
  c.perform.reported s

end Command

end Pratt
