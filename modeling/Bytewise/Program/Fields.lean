/-
The state struct of a generated parser: the names of its fields, and which
fields there are in what order.
-/
import Bytewise.Parser.Basic

namespace Bytewise.Program

/-- The field that holds how far a sequence has been matched. -/
def indexField : String := "_index"

/-- The field that holds the code of the last error. -/
def errorField : String := "error"

/-- The field that holds the reason of the last error. -/
def reasonField : String := "reason"

/-- The field that holds where the last error happened. -/
def errorPosField : String := "error_pos"

/-- The field that belongs to the host. -/
def dataField : String := "data"

/-- The field that holds the state to go on in. -/
def currentField : String := "_current"

/-- The field that holds where the bytes of the span open in a slot begin. -/
def positionField (slot : SlotId) : String :=
  "_span_pos" ++ toString slot

/-- The field that holds the callback of the span open in a slot. -/
def callbackField (slot : SlotId) : String :=
  "_span_cb" ++ toString slot

/-- A field of the state struct. -/
structure StateField where
  type : String
  name : String
deriving DecidableEq, Repr

/-- The fields of a slot: its position, and its callback if that varies. -/
def slotFields (slot : SlotId) (callbacks : SpanSlot) : List StateField :=
  ⟨"void*", positionField slot⟩
    :: if callbacks.isShared then [⟨"void*", callbackField slot⟩] else []

/-- All fields: the matcher's index, the slots, the words for errors and for
the host, and the properties in order of declaration. -/
def stateFields (properties : List Property) (slots : List SpanSlot) :
    List StateField :=
  [⟨"int32_t", indexField⟩]
    ++ slots.zipIdx.flatMap
      (fun (callbacks, slot) => slotFields slot callbacks)
    ++ [⟨"int32_t", errorField⟩, ⟨"const char*", reasonField⟩,
        ⟨"const char*", errorPosField⟩,
        ⟨"void*", dataField⟩, ⟨"void*", currentField⟩]
    ++ properties.map fun property => ⟨property.type.declared, property.name⟩

end Bytewise.Program
