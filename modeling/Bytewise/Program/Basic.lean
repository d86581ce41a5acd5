/-
Generated parsers as programs.

A program is one function that runs from state to state, the functions it
calls, the constants it reads, and the two functions around it that a host
calls. The body of a state is a list of statements. A statement is as
large as one thing the parser does: it waits for input, compares, jumps,
stores, calls or returns.

All state bodies work on the unread input `p … endp`, the value `match` of
the last edge that had one, and the fields of the parser state.
-/
import Bytewise.Program.Fields

namespace Bytewise.Program

-- ====================================================== names

/-- A value of the state field that says where to go on. -/
inductive Label where
  /-- The parser has stopped. -/
  | error
  /-- The state to go on in. -/
  | state (id : StateId)
deriving DecidableEq, Repr, Inhabited

/-- A constant byte array. The vector unit needs an alignment. -/
structure Blob where
  bytes : List UInt8
  alignment : Option Nat := none
deriving DecidableEq, Repr, Inhabited

-- ====================================================== state bodies

/-- Goes on in another state, after a byte is consumed and a value passed on as
told. -/
structure Jump where
  advance : Bool
  value : Option Int64
  target : StateId
deriving DecidableEq, Repr, Inhabited

/-- One thing a state does. -/
inductive Stmt where
  | blank
  /-- Declares a local variable. -/
  | declare (type name : String)
  /-- Tells the debug hook which state is entered. -/
  | trace (hook message : String)
  /-- Returns if all input is read, to go on in this state. -/
  | waitForInput (own : StateId)
  | jump (jump : Jump)
  /-- Returns, to go on at the label. -/
  | leave (label : Label)
  /-- Stores where the next call goes on. -/
  | setCurrent (label : Label)
  /-- Stores an error with its reason and the position it happened at. -/
  | setError (code : Int32) (reason : String)
  /-- Calls a code and jumps by what it returns. -/
  | call (callee : String) (signature : Signature)
      (cases : List (Int32 × Jump)) (default : Jump)
  /-- Compares input with a literal from where the last comparison stopped. -/
  | matchLiteral (transform : Transform) (literal : Blob)
  /-- Jumps by the outcome of the comparison, or returns if it needs more
  input. -/
  | onOutcome (own : StateId) (complete mismatch : Jump)
  /-- Jumps by the next byte. -/
  | onByte (transform : Transform) (cases : List (UInt8 × Jump))
      (default : Jump)
  /-- Declares a table with an entry for each byte. -/
  | declareTable (entries : List UInt8)
  /-- Where 16 bytes are left, skips as many of the next bytes as lie in the
  ranges of a chunk, then reenters the state; jumps if the next byte lies in
  none. -/
  | skipRanges (own : StateId) (chunks : List (List UInt8)) (default : Jump)
  /-- Jumps by the table entry of the next byte: entry `i + 1` means case
  `i`. -/
  | onEntry (transform : Transform) (cases : List Jump) (default : Jump)
  /-- Stores that a span begins at the next byte. -/
  | openSlot (slot : SlotId)
  /-- Stores the callback of the span open in a slot. -/
  | setCallback (slot : SlotId) (callback : String)
  /-- Takes the start of a span out of its slot. -/
  | closeSlot (slot : SlotId)
  /-- Calls a span callback with the bytes since the start. -/
  | callSpan (callback : String)
  /-- If the span callback failed, stores its error and returns. Going on after
  it is at `resume`, one byte further if the span's end consumes. -/
  | onSpanError (advance : Bool) (resume : StateId)
  /-- Reads how many bytes are left and how many to skip. -/
  | measure (field : String)
  /-- If enough bytes are left, skips them and jumps. -/
  | skipAll (field : String) (next : Jump)
  /-- Counts all bytes left as skipped. -/
  | skipRest (field : String)
deriving DecidableEq, Repr, Inhabited

/-- A state of the program. -/
structure State where
  id : StateId
  /-- Whether a call can begin here. -/
  resumable : Bool
  body : List Stmt
deriving DecidableEq, Repr, Inhabited

-- ====================================================== called functions

/-- An integer expression of an intrinsic. -/
inductive Operand where
  /-- A field of the parser state. -/
  | field (name : String)
  /-- The field under a signed type. -/
  | aliased
  /-- The value of the edge taken. -/
  | matched
  | number (value : Int64)
  | limit (literal : Literal)
  | quotient (a b : Operand)
  | difference (a b : Operand)
  | masked (a b : Operand)
  | equal (a b : Operand)
deriving DecidableEq, Repr, Inhabited

/-- How a field is changed. -/
inductive Assignment where
  | set
  | keepBits
  | setBits
  | multiply
  | add
deriving DecidableEq, Repr, Inhabited

/-- A comparison that makes an intrinsic refuse, with return code 1. -/
structure Refusal where
  left : Operand
  /-- Refuses if the left side is greater, else if it is less. -/
  ifGreater : Bool
  right : Operand
deriving DecidableEq, Repr, Inhabited

/-- One step of an intrinsic. -/
inductive Step where
  | blank
  | comment (text : String)
  /-- Makes the field available under a signed type. -/
  | alias (type field : String)
  | assign (target : Operand) (assignment : Assignment) (value : Operand)
  | refuseIf (refusal : Refusal)
  /-- Refuses on one comparison if the edge's value is not negative, else on
  the other. -/
  | refuseBySign (nonnegative negative : Refusal)
  | answer (value : Operand)
deriving DecidableEq, Repr, Inhabited

/-- A function that states or spans call. -/
structure Function where
  name : String
  signature : Signature
  /-- None for a function of the user's. -/
  body : Option (List Step)
deriving DecidableEq, Repr, Inhabited

end Bytewise.Program

namespace Bytewise

-- ====================================================== programs

/-- A generated parser. -/
structure Program where
  symbolPrefix : String
  /-- The header it includes, without extension. -/
  headerName : String
  debugHook : Option String
  /-- The names of all states of the machine, by position. -/
  stateNames : Array String
  blobs : List Program.Blob
  /-- The transforms of the literal comparisons. -/
  matchers : List Transform
  states : List Program.State
  functions : List Program.Function
  root : StateId
  /-- The names of the callbacks of each span slot. -/
  slots : List (List String)
deriving Repr, Inhabited

namespace Program

/-- The number of states, the error state not counted. -/
def stateCount (program : Program) : Nat :=
  program.states.length

end Program

end Bytewise
