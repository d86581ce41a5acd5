/-
Byte normalization of a dispatch: what is done to an input byte before it
is compared with keys. A transform has a meaning on bytes and a spelling
in the generated source.
-/

namespace Bytewise

/-- How an input byte is normalized before comparison. -/
inductive Transform where
  /-- The byte as it is. -/
  | identity
  /-- ASCII capitals become small letters. -/
  | lower
  /-- Bit 5 is set, whatever the byte: right only where keys are letters. -/
  | lowerUnsafe
deriving DecidableEq, Repr, Inhabited

namespace Transform

/-- Every transform, in the order in which helpers are emitted. -/
def all : List Transform :=
  [identity, lower, lowerUnsafe]

/-- The name used in manifests and in helper names. -/
def name : Transform → String
  | identity => "id"
  | lower => "to_lower"
  | lowerUnsafe => "to_lower_unsafe"

/-- The transform called `name`. -/
def ofName? (name : String) : Option Transform :=
  all.find? (·.name == name)

/-- The meaning on bytes. -/
def apply : Transform → UInt8 → UInt8
  | identity, b => b
  | lower, b => if 0x41 ≤ b && b ≤ 0x5a then b ||| 0x20 else b
  | lowerUnsafe, b => b ||| 0x20

/-- The expression of the generated source that normalizes `value`. -/
def render : Transform → String → String
  | identity, value => value
  | lower, value =>
    "((" ++ value ++ ") >= 'A' && (" ++ value ++ ") <= 'Z' ? (" ++ value
      ++ " | 0x20) : ("
      ++ value ++ "))"
  | lowerUnsafe, value => "((" ++ value ++ ") | 0x20)"

end Transform

end Bytewise
