/-
Json values as indented text.

Members and elements stand on lines of their own, two spaces deeper than
what holds them; an empty array or object is a pair of brackets. Strings
escape quotes, backslashes and control characters only.
-/
import Bytewise.Json.Value

namespace Bytewise.Json

/-- How `c` is written inside a string. -/
def escapeChar (c : Char) : List Char :=
  if c == '"' then ['\\', '"']
  else if c == '\\' then ['\\', '\\']
  else if c.toNat == 0x08 then ['\\', 'b']
  else if c.toNat == 0x0c then ['\\', 'f']
  else if c == '\n' then ['\\', 'n']
  else if c == '\r' then ['\\', 'r']
  else if c == '\t' then ['\\', 't']
  else if c.toNat < 0x20 then
    ['\\', 'u', '0', '0', Nat.digitChar (c.toNat / 16),
      Nat.digitChar (c.toNat % 16)]
  else [c]

/-- `s` in quotes. -/
def quote (s : String) : String :=
  String.ofList ('"' :: (s.toList.flatMap escapeChar ++ ['"']))

/-- `items` between brackets, one a line. -/
def bracket (opening closing indent : String) : List String → String
  | [] => opening ++ closing
  | items =>
    opening ++ "\n" ++ String.intercalate ",\n"
      (items.map ((indent ++ "  ") ++ ·))
      ++ "\n" ++ indent ++ closing

mutual

/-- `v` as text whose later lines start with `indent`. -/
def Value.pretty (indent : String) : Value → String
  | .null => "null"
  | .bool b => if b then "true" else "false"
  | .int n => toString n
  | .real text => text
  | .string s => quote s
  | .array elements =>
    bracket "[" "]" indent (prettyElements (indent ++ "  ") elements)
  | .object members =>
    bracket "\x7b" "\x7d" indent (prettyMembers (indent ++ "  ") members)

/-- The texts of the elements of an array. -/
def prettyElements (indent : String) : List Value → List String
  | [] => []
  | v :: rest => v.pretty indent :: prettyElements indent rest

/-- The texts of the members of an object. -/
def prettyMembers (indent : String) : List (String × Value) → List String
  | [] => []
  | (name, v) :: rest =>
    (quote name ++ ": " ++ v.pretty indent) :: prettyMembers indent rest

end

end Bytewise.Json
