/-
User properties: typed fields of the generated parser state.

A field's type fixes how it is declared and, for integers, the extreme
values under either reading of its bits. A limit is kept as the literal
written into the source together with the integer it denotes.
-/

namespace Bytewise

/-- The type of a state field. -/
inductive FieldType where
  | i8
  | i16
  | i32
  | i64
  | ptr
deriving DecidableEq, Repr, Inhabited

/-- An integer literal of the generated source with its value. -/
structure Literal where
  text : String
  value : Int
deriving DecidableEq, Repr

namespace FieldType

/-- Every field type. -/
def all : List FieldType :=
  [i8, i16, i32, i64, ptr]

/-- The name used in manifests and messages. -/
def name : FieldType → String
  | i8 => "i8"
  | i16 => "i16"
  | i32 => "i32"
  | i64 => "i64"
  | ptr => "ptr"

/-- The field type called `name`. -/
def ofName? (name : String) : Option FieldType :=
  all.find? (·.name == name)

/-- The type a field is declared with: integers are unsigned. -/
def declared : FieldType → String
  | i8 => "uint8_t"
  | i16 => "uint16_t"
  | i32 => "uint32_t"
  | i64 => "uint64_t"
  | ptr => "void*"

/-- The signed type of the same width, for integers. -/
def signed? : FieldType → Option String
  | i8 => some "int8_t"
  | i16 => some "int16_t"
  | i32 => some "int32_t"
  | i64 => some "int64_t"
  | ptr => none

/-- Whether arithmetic is defined on the field. -/
def isInteger (type : FieldType) : Bool :=
  type != ptr

/-- The least and the greatest value of the field read with the given sign, for
integers. -/
def limits? : FieldType → (signed : Bool) → Option (Literal × Literal)
  | i8, true => some (⟨"-0x80", -0x80⟩, ⟨"0x7f", 0x7f⟩)
  | i16, true => some (⟨"-0x8000", -0x8000⟩, ⟨"0x7fff", 0x7fff⟩)
  | i32, true =>
    some (⟨"(-0x7fffffff - 1)", -0x80000000⟩, ⟨"0x7fffffff", 0x7fffffff⟩)
  | i64, true =>
    some (⟨"(-0x7fffffffffffffffLL - 1)", -0x8000000000000000⟩,
      ⟨"0x7fffffffffffffffLL", 0x7fffffffffffffff⟩)
  | i8, false => some (⟨"0", 0⟩, ⟨"0xff", 0xff⟩)
  | i16, false => some (⟨"0", 0⟩, ⟨"0xffff", 0xffff⟩)
  | i32, false => some (⟨"0", 0⟩, ⟨"0xffffffff", 0xffffffff⟩)
  | i64, false =>
    some (⟨"0ULL", 0⟩, ⟨"0xffffffffffffffffULL", 0xffffffffffffffff⟩)
  | ptr, _ => none

end FieldType

/-- A named, typed field of the generated state. -/
structure Property where
  type : FieldType
  name : String
deriving DecidableEq, Repr, Inhabited

end Bytewise
