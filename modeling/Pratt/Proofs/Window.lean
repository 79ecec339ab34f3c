import Pratt.Parser.State

/-!
# Pratt — what a parser sees of its input

A parser reaches its input through a `Window`: the current token, the one after
it, and the source behind them. All that a run does to its input is to move the
window on, so an input is described by what windows read:

* `Window.Reads w ts w'` — the tokens `ts` stand at the front of what `w` sees,
  and `w'` sees what comes after them.

Reading is a function of the window and the tokens (`Reads.unique`), and reading
two lists one after the other is reading their concatenation (`reads_append`).

For a source that is a list of tokens, `Window.ofList` is the window at its
start; what it reads, as long as no end of input is among it, is a prefix of the
list (`exists_append_of_reads_ofList`).
-/

namespace Pratt

namespace Window

variable {σ : Type} [TokenSource σ]

/-- The window moved on by one token. -/
def advance (w : Window σ) : Window σ :=
  let pulled := TokenSource.next w.source
  ⟨pulled.2, w.peek, pulled.1⟩

/-- The tokens stand at the front of what the first window sees, and the second sees what comes
after them. -/
def Reads : Window σ → List Token → Window σ → Prop
  | w, [], w' => w = w'
  | w, t :: ts, w' => w.current = t ∧ w.advance.Reads ts w'

/-! ## Reading -/

@[simp] theorem source_advance (w : Window σ) :
    w.advance.source = (TokenSource.next w.source).2 := rfl

@[simp] theorem current_advance (w : Window σ) : w.advance.current = w.peek := rfl

@[simp] theorem peek_advance (w : Window σ) :
    w.advance.peek = (TokenSource.next w.source).1 := rfl

@[simp] theorem reads_nil {w w' : Window σ} : w.Reads [] w' ↔ w = w' := Iff.rfl

@[simp] theorem reads_cons {w w' : Window σ} {t : Token} {ts : List Token} :
    w.Reads (t :: ts) w' ↔ w.current = t ∧ w.advance.Reads ts w' := Iff.rfl

/-- Reading two lists one after the other is reading their concatenation. -/
theorem reads_append {w w' : Window σ} {xs ys : List Token} :
    w.Reads (xs ++ ys) w' ↔ ∃ v, w.Reads xs v ∧ v.Reads ys w' := by
  induction xs generalizing w with
  | nil => simp
  | cons t xs ih =>
    -- the first token is read either way
    rw [List.cons_append, reads_cons, ih]
    constructor
    · rintro ⟨hcur, v, hxs, hys⟩
      exact ⟨v, ⟨hcur, hxs⟩, hys⟩
    · rintro ⟨v, ⟨hcur, hxs⟩, hys⟩
      exact ⟨hcur, v, hxs, hys⟩

theorem Reads.append {w v w' : Window σ} {xs ys : List Token} (hxs : w.Reads xs v)
    (hys : v.Reads ys w') : w.Reads (xs ++ ys) w' :=
  reads_append.2 ⟨v, hxs, hys⟩

/-- One token more is read by moving on from it. -/
theorem Reads.concat {w v : Window σ} {xs : List Token} (hxs : w.Reads xs v) :
    w.Reads (xs ++ [v.current]) v.advance :=
  hxs.append ⟨rfl, rfl⟩

theorem reads_current (w : Window σ) : w.Reads [w.current] w.advance :=
  ⟨rfl, rfl⟩

/-- Where reading leads is determined by where it starts and what is read. -/
theorem Reads.unique {w v v' : Window σ} {ts : List Token} (h : w.Reads ts v)
    (h' : w.Reads ts v') : v = v' := by
  induction ts generalizing w with
  | nil => exact h.symm.trans h'
  | cons t ts ih => exact ih h.2 h'.2

/-! ## A new window -/

/-- The window on the first two tokens of a source. -/
def filled (source : σ) : Window σ :=
  (⟨source, .endOfInput, .endOfInput⟩ : Window σ).advance.advance

/-- A new window is on the first token of its source. -/
theorem current_filled (source : σ) : (filled source).current = (TokenSource.next source).1 := rfl

/-- Moved on, it is a new window on the rest of the source. -/
theorem advance_filled (source : σ) :
    (filled source).advance = filled (TokenSource.next source).2 := rfl

/-! ## Windows on a list -/

/-- The window at the start of a list of tokens. -/
def ofList : List Token → Window (List Token)
  | [] => ⟨[], .endOfInput, .endOfInput⟩
  | [t] => ⟨[], t, .endOfInput⟩
  | t :: u :: ts => ⟨ts, t, u⟩

/-- A window on a list is on its first token, and at the end of the input behind the last one. -/
@[simp] theorem current_ofList (ts : List Token) :
    (ofList ts).current = ts.headD .endOfInput := by
  match ts with
  | [] => rfl
  | [t] => rfl
  | t :: u :: ts => rfl

/-- Moving on leaves the first token behind. -/
@[simp] theorem advance_ofList (ts : List Token) : (ofList ts).advance = ofList ts.tail := by
  match ts with
  | [] => rfl
  | [t] => rfl
  | [t, u] => rfl
  | t :: u :: v :: ts => rfl

/-- What stands at the front of a list is read from it, and the rest is left. -/
theorem reads_ofList (xs ys : List Token) : (ofList (xs ++ ys)).Reads xs (ofList ys) := by
  induction xs with
  | nil => rfl
  | cons x xs ih => exact ⟨by simp, by simpa using ih⟩

/-- How many tokens were read says what is left of a list. -/
theorem eq_of_reads_ofList {ts us : List Token} {w : Window (List Token)}
    (h : (ofList ts).Reads us w) : w = ofList (ts.drop us.length) := by
  induction us generalizing ts with
  | nil => exact h.symm
  | cons u us ih =>
    have hrest := h.2
    rw [advance_ofList] at hrest
    rw [ih hrest, List.drop_tail, List.length_cons]

/-- What a window on a list sees is in the list, or is the end of the input behind it. -/
theorem current_mem_of_reads_ofList {ts us : List Token} {w : Window (List Token)}
    (h : (ofList ts).Reads us w) : w.current ∈ ts ∨ w.current = .endOfInput := by
  rw [eq_of_reads_ofList h, current_ofList]
  cases hdrop : ts.drop us.length with
  | nil => exact .inr rfl
  | cons t rest => exact .inl (List.mem_of_mem_drop (hdrop ▸ List.mem_cons_self))

/-- What is read from a list is a prefix of it, as long as it is not the end of the input, which a
list gives behind its last token. -/
theorem exists_append_of_reads_ofList {ts xs : List Token} {w : Window (List Token)}
    (h : (ofList ts).Reads xs w) (hxs : ∀ t ∈ xs, t.kind ≠ .eof) :
    ∃ rest, ts = xs ++ rest ∧ w = ofList rest := by
  induction xs generalizing ts with
  | nil => exact ⟨ts, rfl, h.symm⟩
  | cons x xs ih =>
    obtain ⟨hcur, hrest⟩ := h
    match ts with
    | [] =>
      -- Behind the list there is nothing but the end of the input.
      exact absurd (congrArg Token.kind hcur).symm (hxs x List.mem_cons_self)
    | t :: ts =>
      rw [advance_ofList] at hrest
      obtain ⟨rest, hts, hw⟩ := ih hrest fun u hu => hxs u (List.mem_cons_of_mem x hu)
      obtain rfl : t = x := by simpa using hcur
      exact ⟨rest, congrArg (t :: ·) hts, hw⟩

end Window

end Pratt
