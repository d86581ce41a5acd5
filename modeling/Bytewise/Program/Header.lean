/-
The header of a generated parser: the state struct and the two functions a
host calls.
-/
import Bytewise.Program.Fields

namespace Bytewise.Program

/-- Lines as text. -/
def joinLines (lines : List String) : String :=
  String.join (lines.map (· ++ "\n"))

/-- The macro that guards the header against a second inclusion. -/
def includeGuard (symbolPrefix : String) : String :=
  "INCLUDE_" ++ symbolPrefix.toUpper ++ "_H_"

/-- The type of the parser state. -/
def stateType (symbolPrefix : String) : String :=
  symbolPrefix ++ "_t"

/-- The line that declares a field. -/
def StateField.line (field : StateField) : String :=
  "  " ++ field.type ++ " " ++ field.name ++ ";"

/-- The lines above the struct: what the header includes, and the type that
the struct is. -/
def openingLines (symbolPrefix : String) : List String := [
  "#ifndef " ++ includeGuard symbolPrefix,
  "#define " ++ includeGuard symbolPrefix,
  "#ifdef __cplusplus",
  "extern \"C\" \x7b",
  "#endif",
  "",
  "#include <stdint.h>",
  "",
  "typedef struct " ++ symbolPrefix ++ "_s " ++ stateType symbolPrefix ++ ";"]

/-- The lines of the struct. -/
def structLines (symbolPrefix : String) (properties : List Property)
    (slots : List SpanSlot) : List String :=
  ["struct " ++ symbolPrefix ++ "_s \x7b"]
    ++ (stateFields properties slots).map StateField.line ++ ["\x7d;"]

/-- The lines below the struct: the functions that a host calls. -/
def closingLines (symbolPrefix : String) : List String := [
  "",
  "int " ++ symbolPrefix ++ "_init(" ++ stateType symbolPrefix ++ "* s);",
  "int " ++ symbolPrefix ++ "_execute(" ++ stateType symbolPrefix
    ++ "* s, const char* p, const char* endp);",
  "",
  "#ifdef __cplusplus",
  "\x7d  /* extern \"C\" */",
  "#endif",
  "#endif  /* " ++ includeGuard symbolPrefix ++ " */"]

/-- The lines of the header. -/
def headerLines (symbolPrefix : String) (properties : List Property)
    (slots : List SpanSlot) : List String :=
  openingLines symbolPrefix ++ structLines symbolPrefix properties slots
    ++ closingLines symbolPrefix

/-- The header as text. -/
def header (symbolPrefix : String) (properties : List Property)
    (slots : List SpanSlot) : String :=
  joinLines (headerLines symbolPrefix properties slots)

end Bytewise.Program
