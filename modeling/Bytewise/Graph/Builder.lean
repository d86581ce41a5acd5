/-
Building a graph, one call at a time.

Every call checks what it adds, so a graph is refused where it is built. A
call that fails answers the cause and leaves what it had already done: a
key list stops at its first bad key, and a span node whose target is
refused stays without an edge.
-/
import Bytewise.Diagnostic
import Bytewise.Graph.Basic
import Bytewise.Text.Identifier

namespace Bytewise

/-- A builder call: it works on a graph and may fail. -/
abbrev Build := ExceptT Cause (StateM Graph)

namespace Build

-- ====================================================== nodes

/-- Adds a node. -/
def push (name : String) (kind : NodeKind) : Build NodeId := do
  let g ← get
  set { g with nodes := g.nodes.push { name, kind } }
  return g.size

/-- Changes the node `id`. -/
def modifyNode (id : NodeId) (change : Node → Node) : Build Unit :=
  modify fun g => { g with nodes := g.nodes.modify id change }

/-- A new match node. -/
def node (name : String) : Build NodeId :=
  push name (.dispatch none)

/-- Renames a node. -/
def setName (id : NodeId) (name : String) : Build Unit :=
  modifyNode id fun node => { node with name }

/-- A new error node. -/
def error (code : Int32) (reason : String) : Build NodeId :=
  push "error" (.error code reason)

/-- A new pause node. -/
def pause (code : Int32) (reason : String) : Build NodeId :=
  push "pause" (.pause code reason)

/-- A new node that skips as many bytes as the property `field` holds. -/
def consume (field : String) : Build NodeId :=
  push ("consume_" ++ field) (.consume field)

/-- A new node that calls `code`, which must not be the callback of a span. -/
def invoke (code : CodeRef) : Build NodeId := do
  let c := (← get).code code
  if c.signature == .span then throw (.spanCodeInvoked c.name)
  push ("invoke_" ++ c.name) (.invoke code)

-- ====================================================== codes and properties

/-- Adds a code under `name`. -/
def pushCode (name : String) (kind : CodeKind) : Build CodeRef := do
  let g ← get
  set { g with codes := g.codes.push ⟨name, kind⟩ }
  return g.codes.size

/-- Adds an external callback. -/
def externalCode (name : String) (signature : Signature) : Build CodeRef :=
  pushCode name (.external signature)

/-- Adds an intrinsic, named for its operation and field. -/
def intrinsic (kind : CodeKind) : Build CodeRef :=
  pushCode (Code.intrinsicName kind) kind

/-- Declares a span whose bytes go to `callback`. -/
def span (callback : CodeRef) : Build SpanId := do
  let g ← get
  let c := g.code callback
  if c.signature != .span then throw (.spanCallbackSignature c.name)
  set { g with spans := g.spans.push callback }
  return g.spans.size

/-- Field names that the state has already. -/
def reservedFields : List String :=
  ["_index", "error", "reason", "error_pos", "data", "_current"]

/-- What the names of the fields of open spans start with. -/
def spanFieldStem : String := "_span_"

/-- Adds a property. -/
def property (type : FieldType) (name : String) : Build Unit := do
  let g ← get
  if !Text.isIdentifier name then throw (.invalidProperty name)
  if reservedFields.contains name
    || spanFieldStem.toList.isPrefixOf name.toList then
    throw (.reservedProperty name)
  if g.properties.any (·.name == name) then throw (.duplicateProperty name)
  set { g with properties := g.properties.push ⟨type, name⟩ }

-- ====================================================== edges

/-- What forbids an edge with `value` into a node of `kind`: values flow into
codes that take one, and such codes need one. -/
def targetFault? (g : Graph) (kind : NodeKind) (value : Option Int64) :
    Option EdgeFault :=
  match kind with
  | .invoke code =>
    match value, (g.code code).signature with
    | none, .plain => none
    | some _, .value => none
    | none, _ => some .valueMissing
    | some _, _ => some .valueNotTaken
  | _ => if value.isSome then some .valueNotInvoked else none

/-- Refuses an edge or a change at the node `id`. -/
def refuse {α : Type} (id : NodeId) (fault : EdgeFault) : Build α := do
  throw (.invalidEdge ((← get).node id).name fault)

/-- Refuses an edge that the target forbids. -/
def checkTarget (id : NodeId) (edge : Edge) : Build Unit := do
  let g ← get
  match targetFault? g (g.node edge.target).kind edge.value with
  | some fault => refuse id fault
  | none => return ()

/-- Adds a keyed edge whose key is new. -/
def insertEdge (id : NodeId) (edge : Edge) : Build Unit := do
  checkTarget id edge
  if ((← get).node id).edges.any (·.key == edge.key) then
    refuse id .duplicateKey
  modifyNode id fun node => { node with edges := node.edges ++ [edge] }

/-- Adds an edge with a key of bytes. -/
def addMatchEdge (id : NodeId) (key : List UInt8) (next : NodeId)
    (noAdvance : Bool) (value : Option Int64) : Build Unit := do
  match ((← get).node id).kind with
  | .dispatch _ => pure ()
  | _ => refuse id .bytesOutsideMatch
  if key.isEmpty then refuse id .emptyKey
  if noAdvance && key.length != 1 then refuse id .widePeek
  insertEdge id ⟨some (.bytes key), next, noAdvance, value⟩

/-- On `key`, consumes it and goes on at `next`. -/
def matchKey (id : NodeId) (key : List UInt8) (next : NodeId) : Build Unit :=
  addMatchEdge id key next false none

/-- On any of `keys`, consumes it and goes on at `next`. -/
def matchAny (id : NodeId) (keys : List (List UInt8)) (next : NodeId) :
    Build Unit :=
  keys.forM fun key => matchKey id key next

/-- On `byte`, goes on at `next` with the byte unread. -/
def peek (id : NodeId) (byte : UInt8) (next : NodeId) : Build Unit :=
  addMatchEdge id [byte] next true none

/-- On any of `bytes`, goes on at `next` with the byte unread. -/
def peekAny (id : NodeId) (bytes : List UInt8) (next : NodeId) : Build Unit :=
  bytes.forM fun byte => peek id byte next

/-- On `key`, consumes it and passes `value` to the code that `next` calls. -/
def select (id : NodeId) (key : List UInt8) (value : Int64) (next : NodeId) :
    Build Unit :=
  addMatchEdge id key next false (some value)

/-- When the code that `id` calls returns `code`, goes on at `next`. -/
def on (id : NodeId) (code : Int32) (next : NodeId) : Build Unit := do
  match ((← get).node id).kind with
  | .invoke _ => pure ()
  | _ => refuse id .codeOutsideInvoke
  insertEdge id ⟨some (.code code), next, true, none⟩

/-- Gives `id` its otherwise edge. -/
def setOtherwise (id : NodeId) (next : NodeId) (noAdvance : Bool) :
    Build Unit := do
  let node := (← get).node id
  match node.kind with
  | .error .. => refuse id .edgeFromError
  | _ => pure ()
  if node.otherwise.isSome then refuse id .secondOtherwise
  let edge : Edge := ⟨none, next, noAdvance, none⟩
  checkTarget id edge
  modifyNode id fun node => { node with otherwise := some edge }

/-- When no key applies, goes on at `next`. -/
def otherwise (id : NodeId) (next : NodeId) : Build Unit :=
  setOtherwise id next true

/-- When no key applies, consumes a byte and goes on at `next`. -/
def skipTo (id : NodeId) (next : NodeId) : Build Unit := do
  match ((← get).node id).kind with
  | .pause .. | .invoke _ | .consume _ => refuse id .skipUnsupported
  | _ => setOtherwise id next false

/-- Sets the transform of a match node. -/
def transform (id : NodeId) (transform : Transform) : Build Unit := do
  match ((← get).node id).kind with
  | .dispatch _ =>
    modifyNode id fun node => { node with kind := .dispatch (some transform) }
  | _ => refuse id .transformOutsideMatch

-- ====================================================== span nodes

/-- A node that opens `span`. With a target, one node serves all calls. -/
def spanStart (span : SpanId) (next : Option NodeId) : Build NodeId := do
  let g ← get
  match next with
  | none => push ("span_start_" ++ g.spanName span) (.spanStart span)
  | some next =>
    match g.spanStarts.lookup (span, next) with
    | some cached => return cached
    | none =>
      let id ← push ("span_start_" ++ g.spanName span) (.spanStart span)
      otherwise id next
      modify fun g =>
        { g with spanStarts := ((span, next), id) :: g.spanStarts }
      return id

/-- A node that closes `span`. With a target, one node serves all calls. -/
def spanEnd (span : SpanId) (next : Option NodeId) : Build NodeId := do
  let g ← get
  match next with
  | none => push ("span_end_" ++ g.spanName span) (.spanEnd span)
  | some next =>
    match g.spanEnds.lookup (span, next) with
    | some cached => return cached
    | none =>
      let id ← push ("span_end_" ++ g.spanName span) (.spanEnd span)
      otherwise id next
      modify fun g => { g with spanEnds := ((span, next), id) :: g.spanEnds }
      return id

end Build

end Bytewise
