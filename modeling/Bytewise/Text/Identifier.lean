/-
Identifiers of the target language: an ASCII letter or underscore, then
ASCII letters, digits and underscores.
-/

namespace Bytewise.Text

/-- A character that may stand inside an identifier. -/
def isWordChar (c : Char) : Bool :=
  c.isAlphanum || c == '_'

/-- A character that may open an identifier. -/
def isWordStart (c : Char) : Bool :=
  c.isAlpha || c == '_'

/-- Whether `name` is an identifier. -/
def isIdentifier (name : String) : Bool :=
  match name.toList with
  | [] => false
  | c :: rest => isWordStart c && rest.all isWordChar

/-- `name` with one underscore for every character that no identifier may
hold. -/
def sanitize (name : String) : String :=
  name.map fun c => if isWordChar c then c else '_'

end Bytewise.Text
