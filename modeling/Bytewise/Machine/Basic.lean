/-
State machines: what a graph is compiled to.

A state reads a literal, branches on a byte, looks a byte up in a table,
or does one thing on its way. States and codes live in arrays and are
named by their positions. The outgoing edges of a state are addressed by
index, keyed edges first and the otherwise edge last, so that a target can
be changed in place.
-/
import Bytewise.Code
import Bytewise.Transform

namespace Bytewise

/-- A state of a machine: its position. -/
abbrev StateId := Nat

/-- A code of a machine: its position. -/
abbrev CodeId := Nat

/-- A place of the parser state that holds the start of an open span. -/
abbrev SlotId := Nat

namespace Machine

-- ====================================================== states

/-- When an edge applies. -/
inductive Key where
  /-- The next byte is this one. -/
  | byte (b : UInt8)
  /-- The literal of a sequence, or all bytes that a table sends to one
  target. -/
  | bytes (bs : List UInt8)
  /-- The invoked code returned this. -/
  | code (code : Int32)
deriving DecidableEq, Repr, Inhabited

/-- A transition between states. -/
structure Edge where
  /-- None on the edge taken when no key applies. -/
  key : Option Key
  target : StateId
  /-- The transition leaves the byte it looked at. -/
  noAdvance : Bool
  /-- What is passed to the code that the target calls. -/
  value : Option Int64
deriving DecidableEq, Repr, Inhabited

/-- The edge taken when no key applies, without a value. -/
def Edge.otherwise (target : StateId) (noAdvance : Bool) : Edge :=
  ⟨none, target, noAdvance, none⟩

/-- What a state does. -/
inductive StateKind where
  /-- Skips as many bytes as a property holds. -/
  | consume (field : String)
  /-- Goes on at once. -/
  | empty
  /-- Stops for good. -/
  | error (code : Int32) (reason : String)
  /-- Stops until the host resumes. -/
  | pause (code : Int32) (reason : String)
  /-- Calls a code and dispatches on what it returns. -/
  | invoke (callee : CodeId)
  /-- Compares input with a literal. -/
  | sequence
  /-- Branches on the next byte. -/
  | single
  /-- Looks the next byte up in a table. -/
  | table
  /-- Opens a span. -/
  | spanStart (slot : SlotId) (callback : CodeId)
  /-- Closes a span. -/
  | spanEnd (slot : SlotId) (callback : CodeId)
deriving DecidableEq, Repr, Inhabited

/-- The name of a kind in listings. -/
def StateKind.label : StateKind → String
  | consume _ => "consume"
  | empty => "empty"
  | error .. => "error"
  | pause .. => "pause"
  | invoke _ => "invoke"
  | sequence => "sequence"
  | single => "single"
  | table => "table_lookup"
  | spanStart .. => "span_start"
  | spanEnd .. => "span_end"

/-- A state with its outgoing edges. -/
structure State where
  /-- A unique symbol. -/
  name : String
  /-- The name of the node it comes from. -/
  nodeName : String
  kind : StateKind
  /-- What is done to a byte before it is compared. -/
  transform : Option Transform := none
  edges : List Edge := []
  otherwise : Option Edge := none
deriving DecidableEq, Repr, Inhabited

namespace State

/-- The transform in force. -/
def effectiveTransform (state : State) : Transform :=
  state.transform.getD .identity

/-- Keyed edges, then the otherwise edge. -/
def allEdges (state : State) : List Edge :=
  state.edges ++ state.otherwise.toList

/-- The targets of all edges. -/
def targets (state : State) : List StateId :=
  state.allEdges.map (·.target)

/-- The state with the target of edge `index` changed. -/
def retarget (state : State) (index : Nat) (target : StateId) : State :=
  if index < state.edges.length then
    { state with
      edges := state.edges.modify index fun edge => { edge with target } }
  else
    { state with
      otherwise := state.otherwise.map fun edge => { edge with target } }

end State

end Machine

-- ====================================================== machines

/-- States and codes in order of creation. -/
structure Machine where
  states : Array Machine.State := #[]
  codes : Array Code := #[]
deriving DecidableEq, Repr, Inhabited

namespace Machine

/-- The number of states. -/
def size (m : Machine) : Nat :=
  m.states.size

/-- The state `id`. -/
def state (m : Machine) (id : StateId) : State :=
  m.states.getD id default

/-- The code `id`. -/
def code (m : Machine) (id : CodeId) : Code :=
  m.codes.getD id default

/-- The machine with the state `id` changed. -/
def modifyState (m : Machine) (id : StateId) (change : State → State) :
    Machine :=
  { m with states := m.states.modify id change }

/-- The machine with the target of edge `index` of `id` changed. -/
def retarget (m : Machine) (id : StateId) (index : Nat) (target : StateId) :
    Machine :=
  m.modifyState id (·.retarget index target)

end Machine

end Bytewise
