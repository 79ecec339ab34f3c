import Pratt.Node.Outline
import Pratt.Proofs.Lexing
import Pratt.Proofs.LiteralText

/-!
# Pratt — outlines shown as text can be read back

An outline can be shown as nested constructor calls, without the texts of its tokens. What is shown
is one flat text, in which a text of the outline may look like anything else: it may hold quotes,
commas, brackets, or a whole call. Still, an outline without its tokens can be told from what is
shown, as long as its names are made of letters.

* `Outline.shown` — the flat text. `Outline.withoutTokens` — what is shown of an outline.
* `Outline.WellNamed` — all names are runs of letters. With other names outlines can be confused.
* `Outline.shown_append_inj` — two shown outlines with something behind each agree only if the
  outlines do, tokens apart, and what is behind them does.
* `Outline.eq_of_withoutTokens` — the texts of the tokens, in the order in which they come, are all
  that is missing.
-/

namespace Pratt

/-- The items with a comma and a space between them. -/
def commaSeparated (items : List (List Char)) : List Char :=
  [',', ' '].intercalate items

namespace Outline

/-! ## What is shown, and of what -/

mutual

/-- The outline as nested constructor calls. -/
def shown : Outline → List Char
  | .absent => "None".toList
  | .text value => (literalOf value).toList
  | .integer value => (toString value).toList
  | .flag value => if value then "True".toList else "False".toList
  | .list items => '[' :: commaSeparated (shownEach items) ++ [']']
  | .record kind _ fields => kind.toList ++ '(' :: commaSeparated (shownFields fields) ++ [')']

/-- Several outlines, each as nested constructor calls. -/
def shownEach : List Outline → List (List Char)
  | [] => []
  | o :: os => o.shown :: shownEach os

/-- Several fields, each with its name in front. -/
def shownFields : List (String × Outline) → List (List Char)
  | [] => []
  | (name, o) :: fields => (name.toList ++ '=' :: o.shown) :: shownFields fields

end

mutual

/-- The outline with no text in the place of each token. -/
def withoutTokens : Outline → Outline
  | .absent => .absent
  | .text value => .text value
  | .integer value => .integer value
  | .flag value => .flag value
  | .list items => .list (withoutTokensEach items)
  | .record kind _ fields => .record kind "" (withoutTokensFields fields)

/-- The outlines with no text in the place of each token. -/
def withoutTokensEach : List Outline → List Outline
  | [] => []
  | o :: os => o.withoutTokens :: withoutTokensEach os

/-- The fields with no text in the place of each token. -/
def withoutTokensFields : List (String × Outline) → List (String × Outline)
  | [] => []
  | (name, o) :: fields => (name, o.withoutTokens) :: withoutTokensFields fields

end

mutual

/-- The texts of the tokens, those of a record in front of those of its fields. -/
def tokens : Outline → List String
  | .record _ token fields => token :: tokensFields fields
  | .list items => tokensEach items
  | .absent | .text _ | .integer _ | .flag _ => []

/-- The texts of the tokens of several outlines. -/
def tokensEach : List Outline → List String
  | [] => []
  | o :: os => o.tokens ++ tokensEach os

/-- The texts of the tokens of several fields. -/
def tokensFields : List (String × Outline) → List String
  | [] => []
  | (_, o) :: fields => o.tokens ++ tokensFields fields

end

/-- A field as it is shown. -/
def shownField (field : String × Outline) : List Char :=
  field.1.toList ++ '=' :: field.2.shown

/-- Several outlines are shown one by one. -/
theorem shownEach_eq_map (os : List Outline) : shownEach os = os.map shown := by
  induction os with
  | nil => rfl
  | cons o os ih => rw [shownEach, List.map_cons, ih]

/-- Several fields are shown one by one. -/
theorem shownFields_eq_map (fields : List (String × Outline)) :
    shownFields fields = fields.map shownField := by
  induction fields with
  | nil => rfl
  | cons field fields ih => rw [shownFields, List.map_cons, ih, shownField]

/-- Tokens are taken out of several outlines one by one. -/
theorem withoutTokensEach_eq_map (os : List Outline) :
    withoutTokensEach os = os.map withoutTokens := by
  induction os with
  | nil => rfl
  | cons o os ih => rw [withoutTokensEach, List.map_cons, ih]

/-- Tokens are taken out of several fields one by one, and the names stay. -/
theorem withoutTokensFields_eq_map (fields : List (String × Outline)) :
    withoutTokensFields fields = fields.map fun field => (field.1, field.2.withoutTokens) := by
  induction fields with
  | nil => rfl
  | cons field fields ih => rw [withoutTokensFields, List.map_cons, ih]

mutual

/-- Nothing of the tokens is shown. -/
theorem shown_withoutTokens (o : Outline) : o.withoutTokens.shown = o.shown := by
  cases o with
  | list items => rw [withoutTokens, shown, shown, shownEach_withoutTokens items]
  | record kind token fields => rw [withoutTokens, shown, shown, shownFields_withoutTokens fields]
  | _ => rfl

/-- Nothing of the tokens is shown in several outlines. -/
theorem shownEach_withoutTokens (os : List Outline) :
    shownEach (withoutTokensEach os) = shownEach os := by
  cases os with
  | nil => rfl
  | cons o os =>
    rw [withoutTokensEach, shownEach, shownEach, shown_withoutTokens o, shownEach_withoutTokens os]

/-- Nothing of the tokens is shown in several fields. -/
theorem shownFields_withoutTokens (fields : List (String × Outline)) :
    shownFields (withoutTokensFields fields) = shownFields fields := by
  cases fields with
  | nil => rfl
  | cons field fields =>
    rw [withoutTokensFields, shownFields, shownFields, shown_withoutTokens field.2,
      shownFields_withoutTokens fields]

end

/-! ## Names -/

/-- The text is a name: a word without digits. -/
def IsName (name : String) : Prop :=
  name.toList ≠ [] ∧ ∀ c ∈ name.toList, isWordStart c = true

instance (name : String) : Decidable (IsName name) :=
  decidable_of_iff (name.toList ≠ [] ∧ name.toList.all isWordStart = true)
    (and_congr_right fun _ => List.all_eq_true)

/-- All kinds and fields have names. -/
inductive WellNamed : Outline → Prop
  | absent : WellNamed .absent
  | text (value : String) : WellNamed (.text value)
  | integer (value : Int) : WellNamed (.integer value)
  | flag (value : Bool) : WellNamed (.flag value)
  | list {items : List Outline} (inside : ∀ o ∈ items, WellNamed o) : WellNamed (.list items)
  | record {kind token : String} {fields : List (String × Outline)} (isName : IsName kind)
    (named : ∀ field ∈ fields, IsName field.1) (inside : ∀ field ∈ fields, WellNamed field.2) :
    WellNamed (.record kind token fields)

/-- All fields have names, and so has what is in them. -/
def WellNamedFields (fields : List (String × Outline)) : Prop :=
  ∀ field ∈ fields, IsName field.1 ∧ field.2.WellNamed

/-- An empty list of fields is well named. -/
theorem WellNamedFields.nil : WellNamedFields [] := nofun

/-- One more field with a name keeps them so. -/
theorem WellNamedFields.cons {name : String} {o : Outline} {fields : List (String × Outline)}
    (isName : IsName name) (inside : o.WellNamed) (later : WellNamedFields fields) :
    WellNamedFields ((name, o) :: fields) :=
  List.forall_mem_cons.2 ⟨⟨isName, inside⟩, later⟩

/-- A record is well named by its kind and by its fields together. -/
theorem WellNamed.of_fields {kind token : String} {fields : List (String × Outline)}
    (isName : IsName kind) (inside : WellNamedFields fields) :
    WellNamed (.record kind token fields) :=
  .record isName (fun field hfield => (inside field hfield).1)
    fun field hfield => (inside field hfield).2

/-! ## What stands behind -/

/-- What can stand behind a part of a shown outline. -/
def Closes (rest : List Char) : Prop :=
  ∀ c ∈ rest.head?, c = ',' ∨ c = ')' ∨ c = ']'

/-- Nothing at all closes a part. -/
theorem closes_nil : Closes [] := by
  intro c hc
  cases hc

/-- A comma and a closing bracket do. -/
theorem closes_cons {c : Char} (h : c = ',' ∨ c = ')' ∨ c = ']') (rest : List Char) :
    Closes (c :: rest) := by
  intro d hd
  cases hd
  exact h

/-- A class of characters without the comma and the closing brackets ends where a part is closed. -/
theorem Closes.notMem {isMember : Char → Bool} {rest : List Char} (h : Closes rest)
    (hclass : [',', ')', ']'].any isMember = false) : ∀ c ∈ rest.head?, isMember c = false := by
  intro c hc
  refine Bool.eq_false_iff.2 (List.any_eq_false.1 hclass c ?_)
  rcases h c hc with rfl | rfl | rfl <;> simp

/-- Two runs of a class of characters, neither followed by another of the class, can be told
apart. -/
theorem append_inj_of_run {isMember : Char → Bool} {u v r s : List Char}
    (hu : ∀ c ∈ u, isMember c = true) (hv : ∀ c ∈ v, isMember c = true)
    (hr : ∀ c ∈ r.head?, isMember c = false) (hs : ∀ c ∈ s.head?, isMember c = false)
    (h : u ++ r = v ++ s) : u = v ∧ r = s := by
  -- each of them is the run at the front of what it stands in
  have hu' := takeWhile_append_eq (List.takeWhile_eq_self_iff.2 hu) hr
  have hv' := takeWhile_append_eq (List.takeWhile_eq_self_iff.2 hv) hs
  have huv : u = v := by rw [← hu', h, hv']
  exact ⟨huv, List.append_cancel_left (huv ▸ h)⟩

/-- The two can be told from their texts, whatever closes these: what `key` keeps of them is the
same, and so is what is behind them. -/
def ToldApart {α β : Type} (text : α → List Char) (key : α → β) (a b : α) : Prop :=
  ∀ {r s : List Char}, Closes r → Closes s → text a ++ r = text b ++ s → key a = key b ∧ r = s

section CommaSeparated

variable {α β : Type} {text : α → List Char} {key : α → β} {close : Char} {as bs : List α}
  {r s : List Char}

/-- Items with a comma and a space in front of each. -/
def behindCommas (items : List (List Char)) : List Char :=
  items.flatMap fun item => ',' :: ' ' :: item

/-- The first of the items stands behind the first comma. -/
theorem behindCommas_cons (item : List Char) (items : List (List Char)) :
    behindCommas (item :: items) = ',' :: ' ' :: (item ++ behindCommas items) :=
  List.flatMap_cons

/-- Behind the first item, each stands behind a comma. -/
theorem commaSeparated_cons (item : List Char) (items : List (List Char)) :
    commaSeparated (item :: items) = item ++ behindCommas items := by
  -- on the items behind the first, each of which is the first of those that are left
  induction items generalizing item with
  | nil => simp [commaSeparated, behindCommas]
  | cons other items ih =>
    have hcons : commaSeparated (item :: other :: items) =
        item ++ ',' :: ' ' :: commaSeparated (other :: items) := by
      simp [commaSeparated, List.intercalate]
    rw [hcons, ih]
    rfl

/-- What stands behind an item closes it: a comma, or the bracket. -/
theorem closes_behindCommas (hclose : close = ')' ∨ close = ']') (items : List (List Char))
    (rest : List Char) : Closes (behindCommas items ++ close :: rest) := by
  cases items with
  | nil => exact closes_cons (.inr hclose) rest
  | cons item items => exact closes_cons (.inl rfl) _

/-- Items that can be told apart still can where they stand behind commas, up to a bracket. -/
theorem behindCommas_inj (hclose : close = ')' ∨ close = ']')
    (item : ∀ a ∈ as, ∀ b ∈ bs, ToldApart text key a b)
    (h : behindCommas (as.map text) ++ close :: r = behindCommas (bs.map text) ++ close :: s) :
    as.map key = bs.map key ∧ r = s := by
  have hcomma : close ≠ ',' := by
    rcases hclose with rfl | rfl <;> decide
  -- item by item, since the comma in front says whether there is one
  induction as generalizing bs with
  | nil =>
    cases bs with
    | nil => exact ⟨rfl, List.tail_eq_of_cons_eq h⟩
    | cons b bs => exact absurd (List.head_eq_of_cons_eq h) hcomma
  | cons a as ih =>
    cases bs with
    | nil => exact absurd (List.head_eq_of_cons_eq h).symm hcomma
    | cons b bs =>
      rw [List.map_cons, List.map_cons, behindCommas_cons, behindCommas_cons] at h
      have hrest : text a ++ (behindCommas (as.map text) ++ close :: r) =
          text b ++ (behindCommas (bs.map text) ++ close :: s) := by
        rw [← List.append_assoc, ← List.append_assoc]
        exact List.tail_eq_of_cons_eq (List.tail_eq_of_cons_eq h)
      obtain ⟨hkey, hbehind⟩ := item a List.mem_cons_self b List.mem_cons_self
        (closes_behindCommas hclose _ _) (closes_behindCommas hclose _ _) hrest
      obtain ⟨hkeys, hrest⟩ := ih (fun a' ha' b' hb' =>
        item a' (List.mem_cons_of_mem _ ha') b' (List.mem_cons_of_mem _ hb')) hbehind
      exact ⟨by rw [List.map_cons, List.map_cons, hkey, hkeys], hrest⟩

/-- Items that can be told apart still can where they stand between commas, up to a bracket, if no
item begins with the bracket. -/
theorem commaSeparated_inj (hclose : close = ')' ∨ close = ']')
    (item : ∀ a ∈ as, ∀ b ∈ bs, ToldApart text key a b)
    (first : ∀ a, a ∈ as ∨ a ∈ bs → ∀ rest, (text a ++ rest).head? ≠ some close)
    (h : commaSeparated (as.map text) ++ close :: r =
      commaSeparated (bs.map text) ++ close :: s) :
    as.map key = bs.map key ∧ r = s := by
  cases as with
  | nil =>
    cases bs with
    | nil => exact ⟨rfl, List.tail_eq_of_cons_eq h⟩
    | cons b bs =>
      -- one text begins with the bracket, and no item does
      rw [List.map_cons, commaSeparated_cons, List.append_assoc] at h
      exact absurd (congrArg List.head? h).symm (first b (.inr List.mem_cons_self) _)
  | cons a as =>
    rw [List.map_cons, commaSeparated_cons, List.append_assoc] at h
    cases bs with
    | nil => exact absurd (congrArg List.head? h) (first a (.inl List.mem_cons_self) _)
    | cons b bs =>
      rw [List.map_cons, commaSeparated_cons, List.append_assoc] at h
      obtain ⟨hkey, hbehind⟩ := item a List.mem_cons_self b List.mem_cons_self
        (closes_behindCommas hclose _ _) (closes_behindCommas hclose _ _) h
      obtain ⟨hkeys, hrest⟩ := behindCommas_inj hclose (fun a' ha' b' hb' =>
        item a' (List.mem_cons_of_mem _ ha') b' (List.mem_cons_of_mem _ hb')) hbehind
      exact ⟨by rw [List.map_cons, List.map_cons, hkey, hkeys], hrest⟩

end CommaSeparated

/-! ## How an outline begins -/

/-- What a shown outline can begin with, and anything else. -/
inductive Lead where
  | quote | number | bracket | word | other
  deriving DecidableEq

/-- What a first character tells. -/
def Lead.ofChar (c : Char) : Lead :=
  if c = '\'' ∨ c = '"' then .quote
  else if c = '-' ∨ c.isDigit = true then .number
  else if c = '[' then .bracket
  else if isWordStart c then .word
  else .other

/-- What an outline begins with. -/
def lead : Outline → Lead
  | .text _ => .quote
  | .integer _ => .number
  | .list _ => .bracket
  | .absent | .flag _ | .record _ _ _ => .word

/-- Letters and underscores begin words. -/
theorem Lead.ofChar_of_isWordStart {c : Char} (h : isWordStart c = true) :
    Lead.ofChar c = .word := by
  have hother : ∀ d : Char, isWordStart d = false → c ≠ d := by
    intro d hd hc
    rw [hc, hd] at h
    exact absurd h nofun
  have hdigit := isDigit_eq_false_of_isWordStart h
  unfold Lead.ofChar
  -- it is none of the characters that are asked for first
  rw [if_neg, if_neg, if_neg, if_pos h]
  · exact hother '[' (by decide)
  · rw [hdigit]
    exact not_or.2 ⟨hother '-' (by decide), nofun⟩
  · exact not_or.2 ⟨hother '\'' (by decide), hother '"' (by decide)⟩

/-- The characters of a decimal number, those of the sign included. -/
def isNumberChar (c : Char) : Bool :=
  c = '-' || c.isDigit

/-- Digits and the sign begin numbers. -/
theorem Lead.ofChar_of_isNumberChar {c : Char} (h : isNumberChar c = true) :
    Lead.ofChar c = .number := by
  have hother : ∀ d : Char, isNumberChar d = false → c ≠ d := by
    intro d hd hc
    rw [hc, hd] at h
    exact absurd h nofun
  unfold Lead.ofChar
  rw [if_neg, if_pos]
  · simpa [isNumberChar] using h
  · exact not_or.2 ⟨hother '\'' (by decide), hother '"' (by decide)⟩

/-- A natural number is written in digits. -/
theorem isNumberChar_of_mem_toDigits {n : Nat} {c : Char} (h : c ∈ Nat.toDigits 10 n) :
    isNumberChar c = true := by
  rw [isNumberChar, Nat.isDigit_of_mem_toDigits (by decide) (by decide) h, Bool.or_true]

/-- An integer is written with the digits of its absolute value, and with a sign in front of them if
it is negative. -/
theorem toList_toString_int (v : Int) : (toString v).toList =
    if v < 0 then '-' :: Nat.toDigits 10 v.natAbs else Nat.toDigits 10 v.natAbs := by
  cases v with
  | ofNat n =>
    show (Nat.repr n).toList = _
    rw [Nat.repr_eq_ofList_toDigits, String.toList_ofList]
    rfl
  | negSucc n =>
    show ("-" ++ Nat.repr (n + 1)).toList = _
    rw [if_pos (Int.negSucc_lt_zero n), String.toList_append, Nat.repr_eq_ofList_toDigits,
      String.toList_ofList, String.toList_ofList]
    rfl

/-- An integer is written in digits and the sign. -/
theorem isNumberChar_of_mem_toString {v : Int} {c : Char} (h : c ∈ (toString v).toList) :
    isNumberChar c = true := by
  rw [toList_toString_int] at h
  split at h
  · rcases List.mem_cons.1 h with rfl | hdigit
    · rfl
    · exact isNumberChar_of_mem_toDigits hdigit
  · exact isNumberChar_of_mem_toDigits h

/-- No integer is written as nothing. -/
theorem toString_ne_nil (v : Int) : (toString v).toList ≠ [] := by
  rw [toList_toString_int]
  split
  · exact nofun
  · exact Nat.toDigits_ne_nil

/-- An integer can be told from how it is written. -/
theorem toString_inj {v w : Int} (h : (toString v).toList = (toString w).toList) : v = w := by
  have digits : ∀ {m n : Nat}, Nat.toDigits 10 m = Nat.toDigits 10 n → m = n := by
    intro m n h
    rw [← Nat.ofDigitChars_ten_toDigits (n := m), h, Nat.ofDigitChars_ten_toDigits]
  -- the sign is no digit
  have sign : ∀ {m n : Nat}, Nat.toDigits 10 m ≠ '-' :: Nat.toDigits 10 n := by
    intro m n h
    have hmem : '-' ∈ Nat.toDigits 10 m := h ▸ List.mem_cons_self
    exact absurd (Nat.isDigit_of_mem_toDigits (by decide) (by decide) hmem) (by decide)
  rw [toList_toString_int, toList_toString_int] at h
  -- by the signs of the two integers
  split at h <;> split at h
  · have := digits (List.tail_eq_of_cons_eq h)
    omega
  · exact absurd h.symm sign
  · exact absurd h sign
  · have := digits h
    omega

/-- What a text begins with, whatever is behind it. -/
theorem exists_head?_append {isMember : Char → Bool} {text : List Char} (hne : text ≠ [])
    (h : ∀ c ∈ text, isMember c = true) (rest : List Char) :
    ∃ c, (text ++ rest).head? = some c ∧ isMember c = true := by
  cases text with
  | nil => exact absurd rfl hne
  | cons c text => exact ⟨c, rfl, h c List.mem_cons_self⟩

/-- The first character of a shown outline tells what the outline begins with. -/
theorem exists_lead {o : Outline} (h : o.WellNamed) (rest : List Char) :
    ∃ c, (o.shown ++ rest).head? = some c ∧ Lead.ofChar c = o.lead := by
  cases h with
  | absent => exact ⟨'N', rfl, rfl⟩
  | text value =>
    have hquote := isQuote_literalQuote value.toList
    -- a literal begins with its quote
    refine ⟨literalQuote value.toList, ?_, if_pos hquote⟩
    rw [shown, toList_literalOf]
    rfl
  | integer value =>
    obtain ⟨c, hc, hmember⟩ := exists_head?_append (toString_ne_nil value)
      (fun _ => isNumberChar_of_mem_toString) rest
    exact ⟨c, hc, Lead.ofChar_of_isNumberChar hmember⟩
  | flag value =>
    cases value with
    | true => exact ⟨'T', rfl, rfl⟩
    | false => exact ⟨'F', rfl, rfl⟩
  | list inside => exact ⟨'[', rfl, rfl⟩
  | @record kind token fields isName named inside =>
    obtain ⟨c, hc, hmember⟩ := exists_head?_append isName.1 isName.2
      ('(' :: commaSeparated (shownFields fields) ++ ([')'] ++ rest))
    refine ⟨c, ?_, Lead.ofChar_of_isWordStart hmember⟩
    rw [shown, List.append_assoc, List.append_assoc]
    exact hc

/-- Outlines that are shown alike begin with the same kind of thing. -/
theorem lead_eq_of_shown_append_eq {o o' : Outline} (h : o.WellNamed) (h' : o'.WellNamed)
    {r s : List Char} (heq : o.shown ++ r = o'.shown ++ s) : o.lead = o'.lead := by
  obtain ⟨c, hc, hlead⟩ := exists_lead h r
  obtain ⟨c', hc', hlead'⟩ := exists_lead h' s
  rw [heq, hc'] at hc
  cases hc
  exact hlead.symm.trans hlead'

/-- No shown outline begins with a closing bracket. -/
theorem head?_shown_append_ne {o : Outline} (h : o.WellNamed) (rest : List Char) :
    (o.shown ++ rest).head? ≠ some ']' := by
  obtain ⟨c, hc, hlead⟩ := exists_lead h rest
  intro hclose
  rw [hc, Option.some.injEq] at hclose
  rw [hclose] at hlead
  -- a bracket that closes is of no kind that outlines begin with
  have hother : o.lead = .other := hlead.symm
  cases h <;> exact absurd hother nofun

/-- No field begins with a closing parenthesis. -/
theorem head?_shownField_append_ne {field : String × Outline} (h : IsName field.1)
    (rest : List Char) : (shownField field ++ rest).head? ≠ some ')' := by
  obtain ⟨c, hc, hmember⟩ := exists_head?_append h.1 h.2 ('=' :: field.2.shown ++ rest)
  intro hclose
  rw [shownField, List.append_assoc, hc, Option.some.injEq] at hclose
  rw [hclose] at hmember
  exact absurd hmember (by decide)

/-! ## Words -/

/-- The word that an outline begins with. -/
def word : Outline → List Char
  | .absent => "None".toList
  | .flag value => if value then "True".toList else "False".toList
  | .record kind _ _ => kind.toList
  | .text _ | .integer _ | .list _ => []

/-- What is shown of an outline behind its word. -/
def behindWord : Outline → List Char
  | .record _ _ fields => '(' :: commaSeparated (shownFields fields) ++ [')']
  | _ => []

/-- An outline that begins with a word is shown as that word and what is behind it. -/
theorem shown_eq_word_append {o : Outline} (h : o.lead = .word) :
    o.shown = o.word ++ o.behindWord := by
  cases o with
  | absent | flag => exact (List.append_nil _).symm
  | record kind token fields => rw [shown, List.append_assoc, word, behindWord]
  | _ => exact absurd h nofun

/-- The word is made of letters and underscores. -/
theorem isWordStart_of_mem_word {o : Outline} (h : o.WellNamed) :
    ∀ c ∈ o.word, isWordStart c = true := by
  cases h with
  | absent => exact List.all_eq_true.1 rfl
  | flag value => cases value <;> exact List.all_eq_true.1 rfl
  | record isName named inside => exact isName.2
  | _ => exact nofun

/-- The word of an outline is as long as it can be. -/
theorem isWordStart_behindWord {o : Outline} {r : List Char} (hr : Closes r) :
    ∀ c ∈ (o.behindWord ++ r).head?, isWordStart c = false := by
  have closing : ∀ c ∈ r.head?, isWordStart c = false := hr.notMem (by decide)
  cases o with
  | record kind token fields =>
    intro c hc
    cases hc
    decide
  | _ => exact closing

/-- The words of two outlines can be told apart. -/
theorem word_inj {o o' : Outline} (h : o.WellNamed) (h' : o'.WellNamed) (hlead : o.lead = .word)
    (hlead' : o'.lead = .word) {r s : List Char} (hr : Closes r) (hs : Closes s)
    (heq : o.shown ++ r = o'.shown ++ s) :
    o.word = o'.word ∧ o.behindWord ++ r = o'.behindWord ++ s := by
  rw [shown_eq_word_append hlead, shown_eq_word_append hlead', List.append_assoc,
    List.append_assoc] at heq
  exact append_inj_of_run (isWordStart_of_mem_word h) (isWordStart_of_mem_word h')
    (isWordStart_behindWord hr) (isWordStart_behindWord hs) heq

/-- What closes a part does not begin with an opening parenthesis. -/
theorem Closes.ne_parenthesis {r : List Char} (hr : Closes r) (text : List Char) :
    r ≠ '(' :: text := by
  rintro rfl
  exact absurd (hr '(' rfl) (by decide)

/-! ## The whole outline -/

/-- A field can be told apart if what it holds can. -/
theorem toldApart_shownField {f g : String × Outline} (hf : IsName f.1) (hg : IsName g.1)
    (h : ToldApart shown withoutTokens f.2 g.2) :
    ToldApart shownField (fun field => (field.1, field.2.withoutTokens)) f g := by
  intro r s hr hs heq
  rw [shownField, shownField, List.append_assoc, List.append_assoc] at heq
  -- a name ends at the sign behind it
  have equals : ∀ {text : List Char}, ∀ c ∈ ('=' :: text).head?, isWordStart c = false := by
    intro text c hc
    cases hc
    decide
  obtain ⟨hname, hbehind⟩ := append_inj_of_run hf.2 hg.2 equals equals heq
  obtain ⟨hvalue, hrest⟩ := h hr hs (List.tail_eq_of_cons_eq hbehind)
  exact ⟨Prod.ext (String.toList_inj.1 hname) hvalue, hrest⟩

/-- Whatever stands behind them, two shown outlines can be told apart if they differ in more than
the texts of their tokens. -/
theorem shown_append_inj {o o' : Outline} (h : o.WellNamed) (h' : o'.WellNamed) :
    ToldApart shown withoutTokens o o' := by
  -- what begins differently is settled by the lead; what begins with the same word can still be a
  -- constant or a record, and only the record has a parenthesis behind the word
  induction h generalizing o' with
  | absent =>
    intro r s hr hs heq
    have hlead := lead_eq_of_shown_append_eq .absent h' heq
    obtain ⟨hword, hbehind⟩ := word_inj .absent h' rfl hlead.symm hr hs heq
    cases h' with
    | absent => exact ⟨rfl, hbehind⟩
    | flag value => cases value <;> exact absurd hword (by decide)
    -- a record that is named like the constant has a parenthesis behind its name
    | record => exact absurd hbehind (hr.ne_parenthesis _)
    | _ => cases hlead
  | text value =>
    intro r s hr hs heq
    have hlead := lead_eq_of_shown_append_eq (.text value) h' heq
    cases h' with
    | text value' =>
      obtain ⟨rfl, hrest⟩ := literalOf_append_inj heq
      exact ⟨rfl, hrest⟩
    | _ => cases hlead
  | integer value =>
    intro r s hr hs heq
    have hlead := lead_eq_of_shown_append_eq (.integer value) h' heq
    cases h' with
    | integer value' =>
      have closing : ∀ {r : List Char}, Closes r → ∀ c ∈ r.head?, isNumberChar c = false :=
        fun hr => hr.notMem (by decide)
      obtain ⟨hdigits, hrest⟩ := append_inj_of_run (fun _ => isNumberChar_of_mem_toString)
        (fun _ => isNumberChar_of_mem_toString) (closing hr) (closing hs) heq
      exact ⟨congrArg Outline.integer (toString_inj hdigits), hrest⟩
    | _ => cases hlead
  | flag value =>
    intro r s hr hs heq
    have hlead := lead_eq_of_shown_append_eq (.flag value) h' heq
    obtain ⟨hword, hbehind⟩ := word_inj (.flag value) h' rfl hlead.symm hr hs heq
    cases h' with
    | absent => cases value <;> exact absurd hword (by decide)
    | flag value' =>
      cases value <;> cases value' <;> first | exact ⟨rfl, hbehind⟩ | exact absurd hword (by decide)
    | record => exact absurd hbehind (hr.ne_parenthesis _)
    | _ => cases hlead
  | @list items inside ih =>
    intro r s hr hs heq
    have hlead := lead_eq_of_shown_append_eq (.list inside) h' heq
    cases h' with
    | @list items' inside' =>
      rw [shown, shown, shownEach_eq_map, shownEach_eq_map, List.append_assoc,
        List.append_assoc] at heq
      obtain ⟨hkeys, hrest⟩ := commaSeparated_inj (.inr rfl)
        (fun o ho o' ho' => ih o ho (inside' o' ho'))
        (fun o ho rest => head?_shown_append_ne (ho.elim (inside o) (inside' o)) rest)
        (List.tail_eq_of_cons_eq heq)
      refine ⟨?_, hrest⟩
      rw [withoutTokens, withoutTokens, withoutTokensEach_eq_map, withoutTokensEach_eq_map, hkeys]
    | _ => cases hlead
  | @record kind token fields isName named inside ih =>
    intro r s hr hs heq
    have hlead := lead_eq_of_shown_append_eq (.record isName named inside) h' heq
    obtain ⟨hword, hbehind⟩ :=
      word_inj (.record isName named inside) h' rfl hlead.symm hr hs heq
    cases h' with
    | absent | flag => exact absurd hbehind.symm (hs.ne_parenthesis _)
    | @record kind' token' fields' isName' named' inside' =>
      have hkind : kind = kind' := String.toList_inj.1 hword
      rw [behindWord, behindWord, shownFields_eq_map, shownFields_eq_map, List.append_assoc,
        List.append_assoc] at hbehind
      obtain ⟨hkeys, hrest⟩ := commaSeparated_inj (.inl rfl)
        (fun f hf g hg => toldApart_shownField (named f hf) (named' g hg)
          (ih f hf (inside' g hg)))
        (fun f hf rest => head?_shownField_append_ne (hf.elim (named f) (named' f)) rest)
        (List.tail_eq_of_cons_eq hbehind)
      refine ⟨?_, hrest⟩
      rw [withoutTokens, withoutTokens, withoutTokensFields_eq_map, withoutTokensFields_eq_map,
        hkind, hkeys]
    | _ => cases hlead

/-! ## Tokens -/

mutual

/-- An outline is made up of what it is without tokens and of the texts of these. -/
theorem eq_of_withoutTokens {o o' : Outline} {r s : List String}
    (h : o.withoutTokens = o'.withoutTokens) (ht : o.tokens ++ r = o'.tokens ++ s) :
    o = o' ∧ r = s := by
  -- only a record and a list hold tokens, and everything else is its own remainder
  cases o with
  | record kind token fields =>
    cases o' with
    | record kind' token' fields' =>
      simp only [withoutTokens, record.injEq] at h
      obtain ⟨rfl, -, hfields⟩ := h
      obtain ⟨rfl, htail⟩ := List.cons.inj ht
      obtain ⟨rfl, hrest⟩ := eq_of_withoutTokensFields hfields htail
      exact ⟨rfl, hrest⟩
    | _ => cases h
  | list items =>
    cases o' with
    | list items' =>
      obtain ⟨rfl, hrest⟩ := eq_of_withoutTokensEach (list.inj h) ht
      exact ⟨rfl, hrest⟩
    | _ => cases h
  | _ =>
    cases o' with
    | record | list => cases h
    | _ => exact ⟨h, ht⟩

/-- The tokens of several outlines come one outline after the other. -/
theorem eq_of_withoutTokensEach {os os' : List Outline} {r s : List String}
    (h : withoutTokensEach os = withoutTokensEach os')
    (ht : tokensEach os ++ r = tokensEach os' ++ s) :
    os = os' ∧ r = s := by
  cases os with
  | nil =>
    cases os' with
    | nil => exact ⟨rfl, ht⟩
    | cons => cases h
  | cons o os =>
    cases os' with
    | nil => cases h
    | cons o' os' =>
      obtain ⟨hfirst, hlater⟩ := List.cons.inj h
      rw [tokensEach, tokensEach, List.append_assoc, List.append_assoc] at ht
      obtain ⟨rfl, htail⟩ := eq_of_withoutTokens hfirst ht
      obtain ⟨rfl, hrest⟩ := eq_of_withoutTokensEach hlater htail
      exact ⟨rfl, hrest⟩

theorem eq_of_withoutTokensFields {fs gs : List (String × Outline)} {r s : List String}
    (h : withoutTokensFields fs = withoutTokensFields gs)
    (ht : tokensFields fs ++ r = tokensFields gs ++ s) : fs = gs ∧ r = s := by
  cases fs with
  | nil =>
    cases gs with
    | nil => exact ⟨rfl, ht⟩
    | cons => cases h
  | cons f fs =>
    cases gs with
    | nil => cases h
    | cons g gs =>
      obtain ⟨hfirst, hlater⟩ := List.cons.inj h
      obtain ⟨hname, hvalue⟩ := Prod.mk.inj hfirst
      rw [tokensFields, tokensFields, List.append_assoc, List.append_assoc] at ht
      obtain ⟨hfield, htail⟩ := eq_of_withoutTokens hvalue ht
      obtain ⟨rfl, hrest⟩ := eq_of_withoutTokensFields hlater htail
      exact ⟨by rw [Prod.ext hname hfield], hrest⟩

end

end Outline
end Pratt
