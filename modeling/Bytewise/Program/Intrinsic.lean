/-
The functions that codes become: declarations of the user's callbacks, and
the bodies of intrinsics.
-/
import Bytewise.Diagnostic
import Bytewise.Program.Basic

namespace Bytewise.Program

/-- The property called `field`. -/
def property (parser : Parser) (field : String) : Except Cause Property :=
  match parser.properties.find? (·.name == field) with
  | some property => .ok property
  | none => .error (.unknownField field)

/-- Refuses a field that arithmetic is not defined on. -/
def requireInteger (property : Property) (operation : String) :
    Except Cause Unit :=
  if property.type.isInteger then .ok ()
  else .error (.unsupportedType property.type property.name operation)

/-- Refuses a code on a field that does not exist, or that it cannot work
on. -/
def checkCode (parser : Parser) (code : Code) : Except Cause Unit :=
  match code.kind with
  | .external _ => .ok ()
  | .mulAdd field _ => do requireInteger (← property parser field) "mulAdd"
  | .and field _ | .isEqual field _ | .load field | .or field _ | .store field
  | .test field _
  | .update field _ => do let _ ← property parser field

/-- Multiplies the field by the base and adds the edge's value. Refuses where
the product, the sum or the sum's limit would be exceeded, before it is. -/
def mulAddBody (type : FieldType) (field : String) (options : MulAdd)
    (low high : Literal) :
    List Step :=
  let value := if options.signed then .aliased else .field field
  let base := .number options.base
  (match options.signed, type.signed? with
    | true, some signed => [.alias signed field]
    | _, _ => [])
  ++ [.comment "Multiplication overflow",
      .refuseIf ⟨value, true, .quotient (.limit high) base⟩]
  ++ (if options.signed then
    [.refuseIf ⟨value, false, .quotient (.limit low) base⟩] else [])
  ++ [.blank,
      .assign value .multiply base,
      .blank,
      .comment "Addition overflow",
      .refuseBySign ⟨value, true, .difference (.limit high) .matched⟩
        ⟨value, false, .difference (.limit low) .matched⟩,
      .assign value .add .matched]
  ++ (match options.max with
    | some max =>
      [.blank, .comment "Enforce maximum",
        .refuseIf ⟨value, true, .number max⟩]
    | none => [])
  ++ [.answer (.number 0)]

/-- The body of an intrinsic on a property. -/
def intrinsicBody (parser : Parser) (kind : CodeKind) :
    Except Cause (List Step) :=
  let done := Step.answer (.number 0)
  match kind with
  | .external _ => .ok []
  | .and field value =>
    .ok [.assign (.field field) .keepBits (.number value), done]
  | .isEqual field value =>
    .ok [.answer (.equal (.field field) (.number value))]
  | .load field => .ok [.answer (.field field)]
  | .or field value =>
    .ok [.assign (.field field) .setBits (.number value), done]
  | .store field => .ok [.assign (.field field) .set .matched, done]
  | .test field value =>
    .ok
      [.answer
      (.equal (.masked (.field field) (.number value)) (.number value))]
  | .update field value =>
    .ok [.assign (.field field) .set (.number value), done]
  | .mulAdd field options => do
    let property ← property parser field
    match property.type.limits? options.signed with
    | some (low, high) =>
      return mulAddBody property.type field options low high
    | none => throw (.unsupportedType property.type property.name "mulAdd")

/-- The function that a code becomes. -/
def functionOf (parser : Parser) (code : Code) : Except Cause Function := do
  if code.kind.isExternal then return ⟨code.name, code.signature, none⟩
  else
    return ⟨code.name, code.signature, some (← intrinsicBody parser code.kind)⟩

end Bytewise.Program
