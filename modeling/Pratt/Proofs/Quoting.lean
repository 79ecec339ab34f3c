import Mathlib.Algebra.Ring.Parity
import Mathlib.Data.List.DropRight
import Mathlib.Data.List.Induction
import Pratt.Text.Quoted

/-!
# Pratt — quoted text is read back

A diagnostic quotes a text by two replacements, of the backslashes and then of the double quotes.
The second one meets no double quote that the first has made, so the two are one pass which puts a
backslash in front of every character of either kind (`escapeEach_escapeEach`).

A reader that takes the character behind a backslash for itself therefore gives the text back
(`unescape?_escapeOnce`), and where the text ends can be told from the backslashes alone: those of
the text come in pairs (`even_backslashesAtEnd`), and only a double quote of the text has one more
in front of it (`odd_backslashesAtEnd`).
-/

namespace Pratt

/-- The text with a backslash put in front of each backslash and each double quote. -/
def escapeOnce (text : List Char) : List Char :=
  text.flatMap fun c => if c ∈ ['\\', '"'] then ['\\', c] else [c]

/-- The text without the backslashes that stand in front of a character, which stands for itself. A
backslash with nothing behind it is in front of none. -/
def unescape? : List Char → Option (List Char)
  | [] => some []
  | ['\\'] => none
  | '\\' :: c :: rest => (unescape? rest).map (c :: ·)
  | c :: rest => (unescape? rest).map (c :: ·)

/-- How many backslashes there are at the end of a text, with nothing between them. -/
def backslashesAtEnd (text : List Char) : Nat :=
  (text.rtakeWhile (· = '\\')).length

/-! ## One pass -/

/-- Two texts are escaped one after the other. -/
theorem escapeOnce_append (a b : List Char) :
    escapeOnce (a ++ b) = escapeOnce a ++ escapeOnce b :=
  List.flatMap_append

/-- A backslash or a double quote gets a backslash in front of it. -/
theorem escapeOnce_cons_of_mem {c : Char} (h : c ∈ ['\\', '"']) (text : List Char) :
    escapeOnce (c :: text) = '\\' :: c :: escapeOnce text := by
  rw [escapeOnce, List.flatMap_cons, if_pos h]
  rfl

/-- Every other character stays as it is. -/
theorem escapeOnce_cons_of_notMem {c : Char} (h : c ∉ ['\\', '"']) (text : List Char) :
    escapeOnce (c :: text) = c :: escapeOnce text := by
  rw [escapeOnce, List.flatMap_cons, if_neg h]
  rfl

/-- A backslash that the first replacement makes is left alone by the second. -/
theorem escapeEach_escapeEach (text : List Char) :
    escapeEach '"' (escapeEach '\\' text) = escapeOnce text := by
  induction text with
  | nil => rfl
  | cons c text ih =>
    rw [escapeEach_cons, escapeEach_append, ih]
    -- each character is of one of three sorts, and the second replacement sees what the first made
    -- of it
    by_cases hslash : c = '\\'
    · subst hslash
      rfl
    · rw [if_neg hslash, escapeEach_cons]
      by_cases hquote : c = '"'
      · subst hquote
        rfl
      · rw [if_neg hquote, escapeOnce_cons_of_notMem (by simp [hslash, hquote])]
        rfl

/-! ## Reading -/

/-- What is no backslash stands for itself. -/
theorem unescape?_cons_of_ne {c : Char} (h : c ≠ '\\') (text : List Char) :
    unescape? (c :: text) = (unescape? text).map (c :: ·) := by
  conv_lhs => unfold unescape?
  split <;> simp_all

/-- An escaped text is read back. -/
theorem unescape?_escapeOnce (text : List Char) : unescape? (escapeOnce text) = some text := by
  induction text with
  | nil => rfl
  | cons c text ih =>
    -- the reader takes off what the escape put in front
    by_cases hescaped : c ∈ ['\\', '"']
    · rw [escapeOnce_cons_of_mem hescaped, unescape?, ih]
      rfl
    · have hslash : c ≠ '\\' := fun hslash => hescaped (by simp [hslash])
      rw [escapeOnce_cons_of_notMem hescaped, unescape?_cons_of_ne hslash, ih]
      rfl

/-- Different texts are quoted differently. -/
theorem quoted_injective : Function.Injective quoted := by
  intro a b hab
  -- the texts between the quotes are the same, and each of them is read back
  have hinside := congrArg String.toList hab
  rw [toList_quoted, toList_quoted, escapeEach_escapeEach, escapeEach_escapeEach] at hinside
  have hescaped := List.append_cancel_right (List.cons.inj hinside).2
  have hread := congrArg unescape? hescaped
  rw [unescape?_escapeOnce, unescape?_escapeOnce] at hread
  exact String.toList_inj.1 (Option.some.inj hread)

/-! ## Backslashes -/

/-- A backslash at the end is one more. -/
theorem backslashesAtEnd_concat_backslash (text : List Char) :
    backslashesAtEnd (text ++ ['\\']) = backslashesAtEnd text + 1 := by
  rw [backslashesAtEnd, List.rtakeWhile_concat_pos _ _ _ (by simp), List.length_append]
  rfl

/-- Any other character at the end leaves none. -/
theorem backslashesAtEnd_concat_of_ne {c : Char} (h : c ≠ '\\') (text : List Char) :
    backslashesAtEnd (text ++ [c]) = 0 := by
  rw [backslashesAtEnd, List.rtakeWhile_concat_neg _ _ _ (by simpa using h)]
  rfl

/-- The backslashes at the end of an escaped text are those of the text, each with its own. -/
theorem even_backslashesAtEnd (text : List Char) : Even (backslashesAtEnd (escapeOnce text)) := by
  -- from the end, which is where the backslashes are counted
  induction text using List.reverseRecOn with
  | nil => exact Even.zero
  | append_singleton text c ih =>
    rw [escapeOnce_append]
    -- a backslash adds a pair, and any other character stands at the end itself
    by_cases hslash : c = '\\'
    · have hpair : escapeOnce [c] = ['\\'] ++ ['\\'] := by rw [hslash]; rfl
      rw [hpair, ← List.append_assoc, backslashesAtEnd_concat_backslash,
        backslashesAtEnd_concat_backslash]
      exact ih.add even_two
    · obtain ⟨front, hlast⟩ : ∃ front, escapeOnce [c] = front ++ [c] := by
        by_cases hquote : c = '"'
        · exact ⟨['\\'], by rw [hquote]; rfl⟩
        · exact ⟨[], escapeOnce_cons_of_notMem (by simp [hslash, hquote]) []⟩
      rw [hlast, ← List.append_assoc, backslashesAtEnd_concat_of_ne hslash]
      exact Even.zero

/-- A double quote in an escaped text is one of the text, behind its own backslash. -/
theorem escapeOnce_eq_append_quote {text us vs : List Char}
    (h : escapeOnce text = us ++ '"' :: vs) : ∃ front, us = escapeOnce front ++ ['\\'] := by
  -- on the text, as far as what stands in front of the quote goes
  induction text generalizing us with
  | nil => simp [escapeOnce] at h
  | cons c text ih =>
    by_cases hescaped : c ∈ ['\\', '"']
    · rw [escapeOnce_cons_of_mem hescaped] at h
      -- the quote is the second of two characters, or stands behind them
      match us, h with
      | [], h => simp at h
      | [u], h =>
        obtain ⟨rfl, -⟩ := List.cons.inj h
        exact ⟨[], rfl⟩
      | u :: u' :: us, h =>
        obtain ⟨rfl, htail⟩ := List.cons.inj h
        obtain ⟨rfl, hrest⟩ := List.cons.inj htail
        obtain ⟨front, rfl⟩ := ih hrest
        exact ⟨c :: front, by rw [escapeOnce_cons_of_mem hescaped]; rfl⟩
    · rw [escapeOnce_cons_of_notMem hescaped] at h
      cases us with
      | nil => exact absurd (List.cons.inj h).1 fun hquote => hescaped (by simp [hquote])
      | cons u us =>
        obtain ⟨rfl, hrest⟩ := List.cons.inj h
        obtain ⟨front, rfl⟩ := ih hrest
        exact ⟨c :: front, by rw [escapeOnce_cons_of_notMem hescaped]; rfl⟩

/-- In front of a double quote in an escaped text there is an odd number of backslashes: pairs, and
the one that goes with the quote. -/
theorem odd_backslashesAtEnd {text us vs : List Char} (h : escapeOnce text = us ++ '"' :: vs) :
    Odd (backslashesAtEnd us) := by
  obtain ⟨front, rfl⟩ := escapeOnce_eq_append_quote h
  rw [backslashesAtEnd_concat_backslash]
  exact (even_backslashesAtEnd front).add_one

/-! ## Quoted texts -/

/-- Between the quotes of a quoted text stands the text, escaped in one pass, which is what the two
replacements come to. Each double quote in it has an odd number of backslashes in front of it, and
the closing one an even number. Read with each backslash standing for the character behind it, it is
the text again, so different texts are quoted differently. -/
theorem quoted_lossless :
    (∀ text : String, ∃ inside, (quoted text).toList = '"' :: inside ++ ['"'] ∧
      (∀ us vs, inside = us ++ '"' :: vs → Odd (backslashesAtEnd us)) ∧
      Even (backslashesAtEnd inside) ∧ unescape? inside = some text.toList ∧
      inside = escapeOnce text.toList) ∧
    Function.Injective quoted ∧
    ∀ text, escapeEach '"' (escapeEach '\\' text) = escapeOnce text := by
  refine ⟨fun text => ?_, quoted_injective, escapeEach_escapeEach⟩
  refine ⟨escapeOnce text.toList, ?_, fun us vs => odd_backslashesAtEnd,
    even_backslashesAtEnd _, unescape?_escapeOnce _, rfl⟩
  rw [toList_quoted, escapeEach_escapeEach]

/-- A text with a backslash, a double quote right behind it, and a backslash at its end. -/
theorem quoted_lossless_of_mixed :
    let front := ['a', '\\', '\\', '\\']
    let inside := front ++ ['"', '\\', '\\']
    (quoted "a\\\"\\").toList = '"' :: inside ++ ['"'] ∧ Odd (backslashesAtEnd front) ∧
      Even (backslashesAtEnd inside) ∧ unescape? inside = some ['a', '\\', '"', '\\'] := by
  intro front inside
  obtain ⟨_, htext, hodd, heven, hread, hinside⟩ := quoted_lossless.1 "a\\\"\\"
  obtain rfl : _ = inside := hinside.trans (by rfl)
  exact ⟨htext, hodd front _ rfl, heven, hread⟩

end Pratt
