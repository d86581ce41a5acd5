/-
Compiled parsers: a machine with all that the generated source needs
beside it.
-/
import Bytewise.Machine.Walk
import Bytewise.Property

namespace Bytewise

/-- The external callbacks that a parser links against, each list in order of
name. -/
structure Callbacks where
  spans : List String := []
  plain : List String := []
  values : List String := []
deriving DecidableEq, Repr, Inhabited

/-- The external callbacks among the codes of a machine. -/
def Machine.callbacks (m : Machine) : Callbacks :=
  let named := fun signature =>
    ((m.codes.toList.filter (·.kind == .external signature)).map
      (·.name)).mergeSort
      fun a b => !decide (b < a)
  { spans := named .span, plain := named .plain, values := named .value }

/-- The callbacks that use one span slot, each once. With more than one, the
parser state also holds which of them is active. -/
abbrev SpanSlot := List CodeId

/-- Whether the state must remember the active callback of a slot. -/
def SpanSlot.isShared (slot : SpanSlot) : Bool :=
  1 < slot.length

/-- A compiled parser. -/
structure Parser where
  /-- What the names of its functions and its state type start with. -/
  symbolPrefix : String
  machine : Machine
  /-- The state a run starts in. -/
  root : StateId
  properties : List Property := []
  /-- The span slots, by position. -/
  slots : List SpanSlot := []
  /-- The states in which a call may end and the next one go on, ascending. -/
  resumable : List StateId := []
deriving Repr, Inhabited

namespace Parser

/-- The states of a run: the root, then those it leads to. -/
def liveStates (parser : Parser) : List StateId :=
  parser.root :: parser.machine.enumerate parser.root

/-- Whether the states of the slot at `slot` store their callback. -/
def isSharedSlot (parser : Parser) (slot : SlotId) : Bool :=
  match parser.slots[slot]? with
  | some callbacks => SpanSlot.isShared callbacks
  | none => false

end Parser

end Bytewise
