/-
Codes: what an invoke state or a span calls.

A code is an external callback the user links in, or an intrinsic
operation on one state field. Two codes with equal keys compile to one
function of the generated source, so the key holds the operation, the
field and every constant.
-/

namespace Bytewise

/-- The calling convention of a code. -/
inductive Signature where
  /-- Called with the state and the input. -/
  | plain
  /-- Called with the state, the input and the value of the edge taken. -/
  | value
  /-- Called with the state and the bytes of a span; no invoke state may call
  it. -/
  | span
deriving DecidableEq, Repr, Inhabited

/-- The name of a signature in listings. -/
def Signature.name : Signature → String
  | plain => "match"
  | value => "value"
  | span => "span"

/-- Multiply-and-add with overflow checks: the base, an upper limit and the
sign of the field. -/
structure MulAdd where
  base : Int64
  max : Option Int64 := none
  signed : Bool := false
deriving DecidableEq, Repr, Inhabited

/-- What a code does. -/
inductive CodeKind where
  /-- Calls a function of the user's. -/
  | external (signature : Signature)
  /-- Keeps the bits of the field that are set in `value`. -/
  | and (field : String) (value : Int64)
  /-- Answers whether the field equals `value`. -/
  | isEqual (field : String) (value : Int64)
  /-- Answers the field. -/
  | load (field : String)
  /-- Multiplies the field by a base and adds the edge's value. -/
  | mulAdd (field : String) (options : MulAdd)
  /-- Sets the bits of `value` in the field. -/
  | or (field : String) (value : Int64)
  /-- Sets the field to the edge's value. -/
  | store (field : String)
  /-- Answers whether all bits of `value` are set in the field. -/
  | test (field : String) (value : Int64)
  /-- Sets the field to `value`. -/
  | update (field : String) (value : Int64)
deriving DecidableEq, Repr, Inhabited

namespace CodeKind

/-- The name of the operation in listings. -/
def label : CodeKind → String
  | external signature => signature.name
  | and .. => "and"
  | isEqual .. => "is_equal"
  | load .. => "load"
  | mulAdd .. => "mul_add"
  | or .. => "or"
  | store .. => "store"
  | test .. => "test"
  | update .. => "update"

/-- The calling convention: an intrinsic that stores or adds the edge's value
takes one. -/
def signature : CodeKind → Signature
  | external signature => signature
  | mulAdd .. | store .. => .value
  | _ => .plain

/-- Whether the user supplies the function. -/
def isExternal : CodeKind → Bool
  | external _ => true
  | _ => false

/-- The state field an intrinsic works on. -/
def field? : CodeKind → Option String
  | external _ => none
  | and field _ | isEqual field _ | load field | mulAdd field _ | or field _
  | store field
  | test field _ | update field _ => some field

end CodeKind

/-- A named code. -/
structure Code where
  name : String
  kind : CodeKind
deriving DecidableEq, Repr, Inhabited

namespace Code

/-- A number within a key: a minus sign is written `m`. -/
def numberKey (value : Int64) : String :=
  let v := value.toInt
  if v < 0 then "m" ++ toString v.natAbs else toString v.natAbs

/-- The name an intrinsic is given before it is made unique. -/
def intrinsicName (kind : CodeKind) : String :=
  match kind.field? with
  | some field => kind.label ++ "_" ++ field
  | none => kind.label

/-- Equal keys compile to one function. -/
def key (code : Code) : String :=
  match code.kind with
  | .external _ => "external_" ++ code.name
  | .and field value => "and_" ++ field ++ "_" ++ numberKey value
  | .isEqual field value => "is_equal_" ++ field ++ "_" ++ numberKey value
  | .load field => "load_" ++ field
  | .mulAdd field options =>
    "mul_add_" ++ field ++ "_base_" ++ numberKey options.base
      ++ (match options.max with
          | some max => "_max_" ++ numberKey max
          | none => "")
      ++ (if options.signed then "_signed_true" else "")
  | .or field value => "or_" ++ field ++ "_" ++ numberKey value
  | .store field => "store_" ++ field
  | .test field value => "test_" ++ field ++ "_" ++ numberKey value
  | .update field value => "update_" ++ field ++ "_" ++ numberKey value

/-- The calling convention. -/
def signature (code : Code) : Signature :=
  code.kind.signature

end Code

end Bytewise
