/-
Json values, and how a text can fail to be what a reader wants.
-/

namespace Bytewise.Json

/-- Why a text was refused. -/
inductive Fault where
  /-- The text ends too early. -/
  | truncated
  /-- The text is not Json. -/
  | malformed
  /-- The text is Json of another shape than wanted. -/
  | mismatch
deriving DecidableEq, Repr, Inhabited

/-- The wording of a fault. -/
def Fault.message : Fault → String
  | truncated => "unexpected end of input"
  | malformed => "invalid JSON"
  | mismatch => "unexpected value"

/-- A Json value. Members keep their order, and a name may occur more than
once. -/
inductive Value where
  | null
  | bool (value : Bool)
  /-- A number written as an integer that fits 64 bits, signed or unsigned. -/
  | int (value : Int)
  /-- Any other number, as written. -/
  | real (text : String)
  | string (value : String)
  | array (elements : List Value)
  | object (members : List (String × Value))
deriving Repr, Inhabited

end Bytewise.Json
