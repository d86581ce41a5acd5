/-
The program of a parser.

States are emitted in the order in which the bodies before them name them,
from the root on. A body names only what its kind uses: a sequence its
first edge, a state that does not dispatch its otherwise edge alone.
Constants, comparisons and functions are those that the bodies mention,
each once and in the order of first mention; the callbacks of span slots
come before all others.
-/
import Bytewise.Program.Intrinsic
import Bytewise.Program.Ranges

namespace Bytewise.Program

open Machine (StateKind Key)

-- ====================================================== what a body names

/-- The edges that the body of a state follows. -/
def emittedEdges (state : Machine.State) : List Machine.Edge :=
  match state.kind with
  | .error .. => []
  | .invoke _ | .single | .table => state.allEdges
  | .sequence => state.edges.take 1 ++ state.otherwise.toList
  | _ => state.otherwise.toList

/-- The states of the program, in order. -/
def emissionOrder (parser : Parser) : List StateId :=
  Exploration.fromRoot parser.machine.size
    (fun id => (emittedEdges (parser.machine.state id)).map (·.target))
    .queue parser.root

/-- The codes that the body of a state calls or stores. -/
def mentionedCodes (parser : Parser) (state : Machine.State) : List CodeId :=
  match state.kind with
  | .invoke callee => [callee]
  | .spanStart slot callback =>
    if parser.isSharedSlot slot then [callback] else []
  | .spanEnd _ callback => [callback]
  | _ => []

-- ====================================================== bodies

/-- The otherwise edge, which every state but an error needs. -/
def otherwiseOf (state : Machine.State) : Except Cause Machine.Edge :=
  match state.otherwise with
  | some edge => .ok edge
  | none => .error (.missingOtherwise state.nodeName)

/-- Takes an edge and passes its value on. -/
def takeEdge (edge : Machine.Edge) : Jump :=
  ⟨!edge.noAdvance, edge.value, edge.target⟩

/-- Takes an edge without a value. -/
def takePlain (edge : Machine.Edge) : Jump :=
  ⟨!edge.noAdvance, none, edge.target⟩

/-- Waits for input if the edge is going to consume a byte. -/
def waitIfConsuming (own : StateId) (edge : Machine.Edge) : List Stmt :=
  if edge.noAdvance then [] else [.waitForInput own]

/-- The name of a code that the program can hold. -/
def codeName (parser : Parser) (id : CodeId) : Except Cause String := do
  let code := parser.machine.code id
  checkCode parser code
  return code.name

/-- Skips as many bytes as `field` holds. -/
def consumeBody (parser : Parser) (own : StateId) (state : Machine.State)
    (field : String) :
    Except Cause (List Stmt) := do
  let property ← property parser field
  requireInteger property "consume"
  let otherwise ← otherwiseOf state
  return [
    .declare "size_t" "avail",
    .declare property.type.declared "need",
    .blank,
    .measure field,
    .skipAll field (takeEdge otherwise),
    .blank,
    .skipRest field,
    .leave (.state own)]

/-- Calls a code. -/
def invokeBody (parser : Parser) (state : Machine.State) (callee : CodeId) :
    Except Cause (List Stmt) := do
  let otherwise ← otherwiseOf state
  let name ← codeName parser callee
  let cases ← state.edges.mapM fun edge =>
    match edge.key with
    | some (.code code) => Except.ok (code, takeEdge edge)
    | _ => .error (Cause.malformedEdge state.name "invoke")
  return [.call name (parser.machine.code callee).signature
    cases (takePlain otherwise)]

/-- Compares with a literal. -/
def sequenceBody (own : StateId) (state : Machine.State) :
    Except Cause (List Stmt) := do
  let otherwise ← otherwiseOf state
  match state.edges with
  | edge :: _ =>
    match edge.key with
    | some (.bytes literal) =>
      return [
        .declare "llparse_match_t" "match_seq",
        .blank,
        .waitForInput own,
        .matchLiteral state.effectiveTransform { bytes := literal },
        .onOutcome own (takeEdge edge) (takeEdge otherwise)]
    | _ => throw (.malformedEdge state.name "sequence")
  | [] => throw (.malformedEdge state.name "sequence")

/-- Branches on a byte. -/
def singleBody (own : StateId) (state : Machine.State) :
    Except Cause (List Stmt) := do
  let otherwise ← otherwiseOf state
  let cases ← state.edges.mapM fun edge =>
    match edge.key with
    | some (.byte b) => Except.ok (b, takeEdge edge)
    | _ => .error (Cause.malformedEdge state.name "single")
  return [.waitForInput own, .onByte state.effectiveTransform
    cases (takeEdge otherwise)]

/-- The bytes of the edges of a table; an entry of one byte tells at most 255
edges apart. -/
def tableKeys (state : Machine.State) : Except Cause (List (List UInt8)) :=
  state.edges.zipIdx.mapM fun (edge, index) =>
    match edge.key with
    | some (.bytes keys) =>
      if index < 255 then
        .ok keys else .error (.malformedEdge state.name "table lookup")
    | _ => .error (.malformedEdge state.name "table lookup")

/-- The table: at each byte one more than the last edge that has it, else
zero. -/
def tableEntries (keys : List (List UInt8)) : List UInt8 :=
  ByteSet.allBytes.map fun b =>
    (keys.zipIdx.foldl (fun entry (bytes, index) =>
      if bytes.contains b then UInt8.ofNat (index + 1) else entry) 0)

/-- The most range ends that are skipped by vector: two chunks. -/
def maxRangeBytes : Nat := 32

/-- The range ends one vector comparison takes. -/
def chunkSize : Nat := 16

/-- Skips by vector a run of bytes that all come back to this very state: there
is one edge, it consumes and returns here, bytes are compared as they are, and
the ranges are few. -/
def vectorSkip (own : StateId) (state : Machine.State)
    (otherwise : Machine.Edge) : List Stmt :=
  match state.edges with
  | [edge] =>
    match edge.key with
    | some (.bytes keys) =>
      let ends := rangeBytes (byteRanges keys)
      if state.effectiveTransform == .identity && edge.target == own
          && !edge.noAdvance
          && ends.length ≤ maxRangeBytes then
        [.skipRanges own
          ([ends.take chunkSize, ends.drop chunkSize].filter (!·.isEmpty))
          (takeEdge otherwise)]
      else []
    | _ => []
  | _ => []

/-- Looks a byte up in a table. -/
def tableBody (own : StateId) (state : Machine.State) :
    Except Cause (List Stmt) := do
  let otherwise ← otherwiseOf state
  let keys ← tableKeys state
  return [.declareTable (tableEntries keys), .waitForInput own]
    ++ vectorSkip own state otherwise
    ++ [.onEntry state.effectiveTransform (state.edges.map takeEdge)
      (takeEdge otherwise)]

/-- Opens a span. -/
def spanStartBody (parser : Parser) (own : StateId) (state : Machine.State)
    (slot : SlotId) (callback : CodeId) : Except Cause (List Stmt) := do
  let otherwise ← otherwiseOf state
  let active ← if parser.isSharedSlot slot then do
      pure [Stmt.setCallback slot (← codeName parser callback)]
    else pure []
  return [.waitForInput own, .openSlot slot] ++ active
    ++ [.jump (takePlain otherwise)]

/-- Closes a span. -/
def spanEndBody (parser : Parser) (own : StateId) (state : Machine.State)
    (slot : SlotId) (callback : CodeId) : Except Cause (List Stmt) := do
  let otherwise ← otherwiseOf state
  let name ← codeName parser callback
  return waitIfConsuming own otherwise ++ [
    .declare "const unsigned char*" "start",
    .declare "int" "err",
    .blank,
    .closeSlot slot,
    .callSpan name,
    .onSpanError (!otherwise.noAdvance) otherwise.target,
    .jump (takePlain otherwise)]

/-- What a state does, by its kind. -/
def kindBody (parser : Parser) (own : StateId) (state : Machine.State) :
    Except Cause (List Stmt) :=
  match state.kind with
  | .consume field => consumeBody parser own state field
  | .empty => do
    let otherwise ← otherwiseOf state
    return waitIfConsuming own otherwise ++ [.jump (takeEdge otherwise)]
  | .error code reason =>
    return [.setError code reason, .setCurrent .error, .leave .error]
  | .pause code reason => do
    let otherwise ← otherwiseOf state
    return [.setError code reason, .setCurrent (.state otherwise.target),
      .leave .error]
  | .invoke callee => invokeBody parser state callee
  | .sequence => sequenceBody own state
  | .single => singleBody own state
  | .table => tableBody own state
  | .spanStart slot callback => spanStartBody parser own state slot callback
  | .spanEnd slot callback => spanEndBody parser own state slot callback

/-- What the debug hook is told on entry to a state. -/
def traceMessage (state : Machine.State) : String :=
  "Entering node \"" ++ state.nodeName ++ "\" (\"" ++ state.name ++ "\")"

/-- A state of the program. -/
def stateOf (parser : Parser) (debugHook : Option String) (id : StateId) :
    Except Cause State := do
  let state := parser.machine.state id
  let trace := debugHook.toList.map fun hook => Stmt.trace hook
    (traceMessage state)
  return {
    id
    resumable := parser.resumable.contains id
    body := trace ++ (← kindBody parser id state) }

-- ====================================================== what bodies share

/-- The constant of a chunk of ranges: filled up with zeros, aligned for the
vector unit. -/
def chunkBlob (chunk : List UInt8) : Blob :=
  ⟨chunk ++ List.replicate (chunkSize - chunk.length) 0, some 16⟩

/-- The constants that a statement reads. -/
def Stmt.blobs : Stmt → List Blob
  | .matchLiteral _ literal => [literal]
  | .skipRanges _ chunks _ => chunks.map chunkBlob
  | _ => []

/-- The transform of a literal comparison. -/
def Stmt.matcher? : Stmt → Option Transform
  | .matchLiteral transform _ => some transform
  | _ => none

/-- The program of a parser, or the first thing that forbids it. -/
def ofParser (parser : Parser) (debugHook headerName : Option String) :
    Except Cause Program := do
  let slotCodes := parser.slots.flatten
  slotCodes.forM fun id => checkCode parser (parser.machine.code id)
  let order := emissionOrder parser
  let states ← order.mapM (stateOf parser debugHook)
  let codes := (slotCodes
    ++ order.flatMap fun id => mentionedCodes parser
      (parser.machine.state id)).eraseDups
  let functions ← codes.mapM fun id => functionOf parser
    (parser.machine.code id)
  let stmts := states.flatMap (·.body)
  return {
    symbolPrefix := parser.symbolPrefix
    headerName := headerName.getD parser.symbolPrefix
    debugHook
    stateNames := parser.machine.states.map (·.name)
    blobs := (stmts.flatMap Stmt.blobs).eraseDups
    matchers := Transform.all.filter fun transform =>
      stmts.any fun stmt => stmt.matcher? == some transform
    states
    functions
    root := parser.root
    slots := parser.slots.map (·.map fun id => (parser.machine.code id).name) }

end Bytewise.Program
