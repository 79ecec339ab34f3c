/-!
# Pratt — quoted text in diagnostics

A diagnostic that names a text puts it between double quotes. Inside, first each
backslash and then each double quote is preceded by a backslash, so that the
quotes which belong to the text can be told from those around it.
-/

namespace Pratt

/-- The text with a backslash put in front of each `mark`. -/
def escapeEach (mark : Char) (text : List Char) : List Char :=
  text.flatMap fun c => if c = mark then ['\\', c] else [c]

/-- The text between double quotes, its backslashes and double quotes escaped. -/
def quoted (text : String) : String :=
  String.ofList ('"' :: escapeEach '"' (escapeEach '\\' text.toList) ++ ['"'])

/-! ## Basic lemmas -/

@[simp] theorem escapeEach_cons (mark c : Char) (text : List Char) :
    escapeEach mark (c :: text) =
      (if c = mark then ['\\', c] else [c]) ++ escapeEach mark text := rfl

/-- Each character is escaped by itself, whatever is around it. -/
theorem escapeEach_append (mark : Char) (a b : List Char) :
    escapeEach mark (a ++ b) = escapeEach mark a ++ escapeEach mark b :=
  List.flatMap_append

/-- The characters of a quoted text: the two passes one after the other, with a quote at either
end. -/
theorem toList_quoted (text : String) :
    (quoted text).toList = '"' :: escapeEach '"' (escapeEach '\\' text.toList) ++ ['"'] :=
  String.toList_ofList

end Pratt
