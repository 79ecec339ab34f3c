/-!
# Pratt — token kinds

Each token has a kind, and each kind has a name, which is what diagnostics call
it. Twenty-seven kinds belong to the language (`Kind.all`). A token list that
was not made by the lexer may hold tokens of any other name; such a kind is
`foreign` and carries its name, together with the fact that the name is not one
of the twenty-seven. So kinds and names correspond one to one: `ofName_name` and
`name_ofName`.

The tables say which text makes which kind: `reservedWords` for identifiers,
`operators` for operators and delimiters.
-/

namespace Pratt

/-- The names of the kinds that belong to the language. -/
def reservedNames : List String :=
  ["ILLEGAL", "EOF", "IDENT", "INT", "ASSIGN", "PLUS", "MINUS", "BANG", "ASTERISK", "SLASH",
   "LT", "GT", "EQ", "NOT_EQ", "COMMA", "SEMICOLON", "LPAREN", "RPAREN", "LBRACE", "RBRACE",
   "FUNCTION", "LET", "TRUE", "FALSE", "IF", "ELSE", "RETURN"]

/-- What sort of token a token is. -/
inductive Kind where
  | illegal | eof | ident | int
  | assign | plus | minus | bang | asterisk | slash
  | less | greater | equal | notEqual
  | comma | semicolon | leftParen | rightParen | leftBrace | rightBrace
  | functionWord | letWord | trueWord | falseWord | ifWord | elseWord | returnWord
  | foreign (label : String) (unreserved : label ∉ reservedNames)
  deriving DecidableEq, Repr

namespace Kind

instance : Inhabited Kind := ⟨.illegal⟩

/-- The name by which diagnostics call a kind. -/
def name : Kind → String
  | .illegal => "ILLEGAL"
  | .eof => "EOF"
  | .ident => "IDENT"
  | .int => "INT"
  | .assign => "ASSIGN"
  | .plus => "PLUS"
  | .minus => "MINUS"
  | .bang => "BANG"
  | .asterisk => "ASTERISK"
  | .slash => "SLASH"
  | .less => "LT"
  | .greater => "GT"
  | .equal => "EQ"
  | .notEqual => "NOT_EQ"
  | .comma => "COMMA"
  | .semicolon => "SEMICOLON"
  | .leftParen => "LPAREN"
  | .rightParen => "RPAREN"
  | .leftBrace => "LBRACE"
  | .rightBrace => "RBRACE"
  | .functionWord => "FUNCTION"
  | .letWord => "LET"
  | .trueWord => "TRUE"
  | .falseWord => "FALSE"
  | .ifWord => "IF"
  | .elseWord => "ELSE"
  | .returnWord => "RETURN"
  | .foreign label _ => label

/-- The kinds that belong to the language, in the order of `reservedNames`. -/
def all : List Kind :=
  [.illegal, .eof, .ident, .int, .assign, .plus, .minus, .bang, .asterisk, .slash,
   .less, .greater, .equal, .notEqual, .comma, .semicolon, .leftParen, .rightParen,
   .leftBrace, .rightBrace, .functionWord, .letWord, .trueWord, .falseWord, .ifWord,
   .elseWord, .returnWord]

/-- The names of the kinds that belong to the language, in the order of their code points. -/
def sortedNames : List String :=
  reservedNames.mergeSort fun a b => decide (a ≤ b)

/-- The kind that a name stands for. -/
def ofName (label : String) : Kind :=
  if h : label ∈ reservedNames then (all.find? (·.name = label)).getD .illegal
  else .foreign label h

/-! ## Which text makes which kind -/

/-- Identifiers that are words of the language. -/
def reservedWords : List (String × Kind) :=
  [("fn", .functionWord), ("let", .letWord), ("true", .trueWord), ("false", .falseWord),
   ("if", .ifWord), ("else", .elseWord), ("return", .returnWord)]

/-- The kind of an identifier: that of a reserved word, else `ident`. -/
def ofWord (word : String) : Kind :=
  (reservedWords.lookup word).getD .ident

/-- The texts of the operators and delimiters. -/
def operators : List (String × Kind) :=
  [("==", .equal), ("!=", .notEqual), ("=", .assign), ("+", .plus), ("-", .minus),
   ("!", .bang), ("*", .asterisk), ("/", .slash), ("<", .less), (">", .greater),
   (",", .comma), (";", .semicolon), ("(", .leftParen), (")", .rightParen),
   ("\x7b", .leftBrace), ("\x7d", .rightBrace)]

/-- The kind of an operator or delimiter, from its text. -/
def ofOperator? (text : String) : Option Kind :=
  operators.lookup text

/-- The operators that may stand before an operand. -/
def prefixOperators : List Kind := [.bang, .minus]

/-- The operators that may stand between two operands, those that bind loosest first. -/
def infixOperators : List Kind :=
  [.equal, .notEqual, .less, .greater, .plus, .minus, .asterisk, .slash]

/-! ## Kinds and names correspond one to one -/

/-- The reserved names are those of the kinds of the language, in the same order. -/
theorem map_name_all : all.map name = reservedNames := rfl

/-- Every kind is one of the language or is foreign to it. -/
theorem mem_all_or_foreign (k : Kind) : k ∈ all ∨ ∃ label h, k = .foreign label h := by
  cases k with
  | foreign label h => exact .inr ⟨label, h, rfl⟩
  | _ => exact .inl (by decide)

theorem name_mem_reservedNames {k : Kind} (h : k ∈ all) : k.name ∈ reservedNames := by
  rw [← map_name_all]
  exact List.mem_map_of_mem h

/-- No two kinds of the language have the same name, so each is found by its own. -/
theorem find_name_of_mem_all : ∀ k ∈ all, all.find? (·.name = k.name) = some k := by
  decide

/-- A kind is told from its name. -/
@[simp] theorem ofName_name (k : Kind) : ofName k.name = k := by
  rcases mem_all_or_foreign k with h | ⟨label, h, rfl⟩
  · rw [ofName, dif_pos (name_mem_reservedNames h), find_name_of_mem_all k h, Option.getD_some]
  · rw [ofName, name, dif_neg h]

/-- Every label is the name of some kind, a foreign one if no other. -/
@[simp] theorem name_ofName (label : String) : (ofName label).name = label := by
  by_cases h : label ∈ reservedNames
  · rw [← map_name_all] at h
    obtain ⟨k, _, rfl⟩ := List.mem_map.1 h
    rw [ofName_name]
  · rw [ofName, dif_neg h, name]

end Kind

end Pratt
