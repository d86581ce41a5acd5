/-
The source graph of a parser.

A node of the graph reads input, calls something or stops. A match node
compares bytes: its keyed edges hold byte strings. An invoke node calls a
code: its keyed edges hold return codes. Every node but an error has one
edge without a key, taken when no key applies. An edge consumes what it
matched unless it is marked not to advance.
-/
import Bytewise.Code
import Bytewise.Property
import Bytewise.Transform

namespace Bytewise

-- ====================================================== handles

/-- A node of a graph: its position in order of creation. -/
abbrev NodeId := Nat

/-- A span of a graph: its position in order of creation. -/
abbrev SpanId := Nat

/-- A code of a graph: its position in order of creation. -/
abbrev CodeRef := Nat

-- ====================================================== nodes

/-- What a node does. -/
inductive NodeKind where
  /-- Dispatches on input bytes. -/
  | dispatch (transform : Option Transform)
  /-- Stops for good. -/
  | error (code : Int32) (reason : String)
  /-- Stops until the host resumes. -/
  | pause (code : Int32) (reason : String)
  /-- Skips as many bytes as a property holds. -/
  | consume (field : String)
  /-- Calls a code and dispatches on what it returns. -/
  | invoke (code : CodeRef)
  /-- Opens a span. -/
  | spanStart (span : SpanId)
  /-- Closes a span. -/
  | spanEnd (span : SpanId)
deriving DecidableEq, Repr, Inhabited

/-- When an edge applies. -/
inductive EdgeKey where
  /-- The input continues with these bytes. -/
  | bytes (bs : List UInt8)
  /-- The invoked code returned this. -/
  | code (code : Int32)
deriving DecidableEq, Repr, Inhabited

/-- The first byte of a key of bytes. -/
def EdgeKey.firstByte? : EdgeKey → Option UInt8
  | .bytes bs => bs.head?
  | .code _ => none

/-- A transition between nodes. -/
structure Edge where
  /-- None on the edge taken when no key applies. -/
  key : Option EdgeKey
  target : NodeId
  /-- The transition leaves the byte it looked at. -/
  noAdvance : Bool
  /-- What is passed to the code that the target calls. -/
  value : Option Int64
deriving DecidableEq, Repr, Inhabited

/-- The first byte of the key of an edge, if it has a key of bytes. -/
def Edge.firstByte? (edge : Edge) : Option UInt8 :=
  edge.key.bind EdgeKey.firstByte?

/-- A node with its outgoing edges. -/
structure Node where
  name : String
  kind : NodeKind
  edges : List Edge := []
  otherwise : Option Edge := none
deriving DecidableEq, Repr, Inhabited

namespace Node

/-- Keyed edges, then the otherwise edge. -/
def allEdges (node : Node) : List Edge :=
  node.edges ++ node.otherwise.toList

/-- The targets of all edges. -/
def targets (node : Node) : List NodeId :=
  node.allEdges.map (·.target)

/-- Whether no edge leaves the node. -/
def isTerminal (node : Node) : Bool :=
  node.edges.isEmpty && node.otherwise.isNone

/-- The span that the node opens or closes. -/
def span? (node : Node) : Option SpanId :=
  match node.kind with
  | .spanStart span | .spanEnd span => some span
  | _ => none

end Node

-- ====================================================== graphs

/-- A graph under construction: nodes, codes, spans and properties in order of
creation. A span is the code its bytes go to. The caches hold the span nodes
made for a span and a target. -/
structure Graph where
  nodes : Array Node := #[]
  codes : Array Code := #[]
  spans : Array CodeRef := #[]
  properties : Array Property := #[]
  spanStarts : List ((SpanId × NodeId) × NodeId) := []
  spanEnds : List ((SpanId × NodeId) × NodeId) := []
deriving DecidableEq, Repr, Inhabited

namespace Graph

/-- The number of nodes. -/
def size (g : Graph) : Nat :=
  g.nodes.size

/-- The node `id`. -/
def node (g : Graph) (id : NodeId) : Node :=
  g.nodes.getD id default

/-- The code `ref`. -/
def code (g : Graph) (ref : CodeRef) : Code :=
  g.codes.getD ref default

/-- The code that gets the bytes of `span`. -/
def spanCallback (g : Graph) (span : SpanId) : CodeRef :=
  g.spans.getD span 0

/-- A span is called after its callback. -/
def spanName (g : Graph) (span : SpanId) : String :=
  (g.code (g.spanCallback span)).name

end Graph

end Bytewise
