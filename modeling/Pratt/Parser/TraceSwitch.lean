import Pratt.Text.Blank

/-!
# Pratt — the switch for tracing

Unless a parser is told whether to trace, a variable of the environment decides.
Tracing is on when the variable holds one of four words, in any mixture of cases
and with any blank characters around it; it is off when the variable is not set.
-/

namespace Pratt.TraceSwitch

/-- The variable of the environment that decides. -/
def variableName : String := "MONKEY_PARSER_TRACE"

/-- The words that turn tracing on. -/
def words : List String := ["1", "true", "yes", "on"]

/-- Whether a setting of the variable turns tracing on. Only the case of ASCII letters is
disregarded, since no word holds any other. -/
def isOn (setting : Option String) : Bool :=
  match setting with
  | none => false
  | some text => words.contains (String.ofList ((trimBlank text.toList).map Char.toLower))

/-- Whether to trace: as told, or else as set. -/
def resolve (told : Option Bool) (setting : Option String) : Bool :=
  told.getD (isOn setting)

end Pratt.TraceSwitch
