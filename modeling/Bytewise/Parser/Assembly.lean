/-
The assembly of a machine from a graph.

Nodes are visited depth first from the root, each once: the state it
becomes is entered before its edges are followed, so that cycles close on
it. A match node becomes the states of its trie, the first of which stands
for the node; a trie level with enough plain one-byte branches becomes a
table. Codes with equal keys are merged.

Visiting a node whose state is not entered yet enters it, so nested visits
are never deeper than the number of nodes.
-/
import Bytewise.Graph.Spans
import Bytewise.NameSupply
import Bytewise.Options
import Bytewise.Parser.Basic
import Bytewise.Trie

namespace Bytewise

/-- A machine under construction. -/
structure Assembly where
  machine : Machine := {}
  stateNames : NameSupply
  codeNames : NameSupply
  /-- The state that stands for each node, as far as entered. -/
  entered : Array (Option StateId)

/-- A step of an assembly; it may fail. -/
abbrev Assemble := StateT Assembly (Except Cause)

/-- What a machine is assembled from. -/
structure Blueprint where
  graph : Graph
  options : Options
  spans : SpanAllocation

namespace Assembly

-- ====================================================== states and codes

/-- An assembly with nothing done, for symbols that start with
`symbolPrefix`. -/
def start (symbolPrefix : String) (size : Nat) : Assembly where
  stateNames := { stem := symbolPrefix ++ "__n_" }
  codeNames := { stem := symbolPrefix ++ "__c_" }
  entered := Array.replicate size none

/-- The state that stands for a node, if it is entered. -/
def stateOf? (a : Assembly) (id : NodeId) : Option StateId :=
  a.entered.getD id none

/-- Adds a state for a node called `nodeName`, under a fresh name. -/
def addState (nodeName : String) (kind : Machine.StateKind)
    (transform : Option Transform) :
    Assemble StateId := do
  let a ← get
  let (name, stateNames) := a.stateNames.alloc nodeName
  set { a with
    stateNames
    machine.states :=
      a.machine.states.push { name, nodeName, kind, transform } }
  return a.machine.size

/-- Enters `state` as standing for a node. -/
def enter (id : NodeId) (state : StateId) : Assemble Unit :=
  modify fun a => { a with entered := a.entered.setIfInBounds id (some state) }

/-- Gives a state its keyed edges. -/
def setEdges (state : StateId) (edges : List Machine.Edge) : Assemble Unit :=
  modify fun a =>
    { a with machine := a.machine.modifyState state ({ · with edges }) }

/-- Gives a state its otherwise edge. -/
def setOtherwise (state : StateId) (edge : Machine.Edge) : Assemble Unit :=
  modify fun a => { a with
    machine :=
      a.machine.modifyState state ({ · with otherwise := some edge }) }

/-- Gives a state that has none its otherwise edge. -/
def fillOtherwise (edge : Machine.Edge) (state : StateId) : Assemble Unit :=
  modify fun a => { a with
    machine := a.machine.modifyState state fun s =>
      if s.otherwise.isNone then { s with otherwise := some edge } else s }

/-- Whether two codes are the same operation, or external with one signature,
whatever their fields and constants. -/
def sameOperation (a b : CodeKind) : Bool :=
  a.isExternal == b.isExternal && a.label == b.label

/-- The machine's code for `code`: the one with the same key, else a new one.
External codes keep their names; those of intrinsics are made unique. -/
def addCode (code : Code) : Assemble CodeId := do
  let a ← get
  match a.machine.codes.findIdx? (·.key == code.key) with
  | some id =>
    if sameOperation (a.machine.code id).kind code.kind then return id
    else throw (.codeNameConflict code.name)
  | none =>
    let (name, codeNames) :=
      if code.kind.isExternal then (code.name, a.codeNames)
      else a.codeNames.alloc code.name
    set
      { a with codeNames,
               machine.codes := a.machine.codes.push { code with name } }
    return a.machine.codes.size

end Assembly

namespace Blueprint

open Assembly

-- ====================================================== tables

/-- The branches of a table that lead to one node: their bytes, and whether
they stay unread. -/
structure TableGroup where
  target : NodeId
  keys : List UInt8
  noAdvance : Bool
deriving DecidableEq, Repr

/-- Adds a branch to the group of its target, or begins one; none if the group
disagrees on whether bytes stay unread. -/
def addToGroups (key : UInt8) (noAdvance : Bool) (target : NodeId) :
    List TableGroup → Option (List TableGroup)
  | [] => some [⟨target, [key], noAdvance⟩]
  | group :: groups =>
    if group.target == target then
      if group.noAdvance == noAdvance then
        some ({ group with keys := group.keys ++ [key] } :: groups)
      else none
    else (group :: ·) <$> addToGroups key noAdvance target groups

/-- The branches of a trie level by target, in order of first occurrence; none
unless every branch is a leaf without a value. -/
def groupBranches : List (UInt8 × Bool × Trie) → List TableGroup →
    Option (List TableGroup)
  | [], groups => some groups
  | (key, noAdvance, .leaf ⟨target, none⟩) :: branches, groups => do
    groupBranches branches (← addToGroups key noAdvance target groups)
  | _ :: _, _ => none

/-- The groups of the table that a trie level becomes. It becomes one if it has
enough branches, no fallback and few enough targets, and can be grouped. -/
def tableGroups? (blueprint : Blueprint)
    (branches : List (UInt8 × Bool × Trie))
    (fallback : Option TrieLeaf) : Option (List TableGroup) :=
  if branches.length < blueprint.options.minTableSize
    || fallback.isSome then none
  else match groupBranches branches [] with
    | some groups =>
      if groups.length < blueprint.options.maxTableTargets then
        some groups else none
    | none => none

-- ====================================================== tries

/-- The value passed on the way into a trie node: that of a leaf. -/
def leafValue : Trie → Option Int64
  | .leaf leaf => leaf.value
  | _ => none

/-- The match node whose trie is assembled. -/
structure Owner where
  id : NodeId
  name : String
  transform : Option Transform

/-- Adds a state of the trie of `owner`. The first one stands for the node. -/
def addTrieState (owner : Owner) (kind : Machine.StateKind) :
    Assemble StateId := do
  let state ← addState owner.name kind owner.transform
  if ((← get).stateOf? owner.id).isNone then enter owner.id state
  return state

/-- The edges of a table. -/
def tableEdges (visit : NodeId → Assemble StateId) (groups : List TableGroup) :
    Assemble (List Machine.Edge) :=
  groups.mapM fun group => do
    return ⟨some (.bytes group.keys), ← visit group.target,
      group.noAdvance, none⟩

mutual

/-- Assembles a trie, given how to visit the nodes its leaves lead to. Answers
its state and all states added for it. -/
def trie (blueprint : Blueprint) (visit : NodeId → Assemble StateId)
    (owner : Owner) :
    Trie → Assemble (StateId × List StateId)
  | .leaf leaf => return (← visit leaf.target, [])
  | .sequence literal child => do
    let state ← addTrieState owner .sequence
    let (target, own) ← trie blueprint visit owner child
    setEdges state [⟨some (.bytes literal), target, false, leafValue child⟩]
    return (state, state :: own)
  | .single bs fallback => do
    match blueprint.tableGroups? bs fallback with
    | some groups =>
      let state ← addTrieState owner .table
      setEdges state (← tableEdges visit groups)
      return (state, [state])
    | none =>
      let state ← addTrieState owner .single
      let (edges, own) ← branches blueprint visit owner bs
      setEdges state edges
      match fallback with
      | some leaf =>
        setOtherwise state ⟨none, ← visit leaf.target, true, leaf.value⟩
      | none => pure ()
      return (state, state :: own)

/-- Assembles the branches of a trie level. Answers their edges and all states
added. -/
def branches (blueprint : Blueprint) (visit : NodeId → Assemble StateId)
    (owner : Owner) :
    List (UInt8 × Bool × Trie) → Assemble (List Machine.Edge × List StateId)
  | [] => return ([], [])
  | (key, noAdvance, child) :: rest => do
    let (target, own) ← trie blueprint visit owner child
    let (edges, more) ← branches blueprint visit owner rest
    return (⟨some (.byte key), target, noAdvance, leafValue child⟩
      :: edges, own ++ more)

end

-- ====================================================== nodes

/-- A keyed edge of the match node `name` as its trie sees it. -/
def trieEntry (name : String) (edge : Edge) : Except Cause TrieEntry :=
  match edge.key with
  | some (.bytes key) => .ok ⟨key, edge.target, edge.noAdvance, edge.value⟩
  | _ => .error (.nonByteKey name)

/-- Assembles a match node. -/
def matchNode (blueprint : Blueprint) (visit : NodeId → Assemble StateId)
    (owner : Owner) :
    Assemble StateId := do
  let node := blueprint.graph.node owner.id
  let some otherwise := node.otherwise | throw (.missingOtherwise node.name)
  let entries ← node.edges.mapM (fun edge => liftM (trieEntry node.name edge))
  match ← liftM (Trie.build node.name entries) with
  | none =>
    let state ← addState owner.name .empty owner.transform
    enter owner.id state
    setOtherwise state
      (.otherwise (← visit otherwise.target) otherwise.noAdvance)
    return state
  | some (.leaf _) => throw (.bareLeaf node.name)
  | some built =>
    let (state, own) ← trie blueprint visit owner built
    let edge := Machine.Edge.otherwise (← visit otherwise.target)
      otherwise.noAdvance
    own.forM (fillOtherwise edge)
    return state

/-- The slot and the callback of a span that the node `name` starts or ends. -/
def spanSlot (blueprint : Blueprint) (span : SpanId) (name : String) :
    Assemble (SlotId × CodeId) := do
  let some slot := blueprint.spans.slot? span
    | throw (.unallocatedSpan (blueprint.graph.spanName span) name)
  return (slot,
    ← addCode (blueprint.graph.code (blueprint.graph.spanCallback span)))

/-- What a node other than a match node becomes. -/
def stateKind (blueprint : Blueprint) (name : String) :
    NodeKind → Assemble Machine.StateKind
  | .dispatch _ => return .empty
  | .error code reason => return .error code reason
  | .pause code reason => return .pause code reason
  | .consume field => return .consume field
  | .invoke ref => do
    let code := blueprint.graph.code ref
    if code.signature == .span then throw (.spanCodeInvokedBy name)
    return .invoke (← addCode code)
  | .spanStart span => do
    let (slot, callback) ← spanSlot blueprint span name
    return .spanStart slot callback
  | .spanEnd span => do
    let (slot, callback) ← spanSlot blueprint span name
    return .spanEnd slot callback

/-- The edge of an invoke state for a return code. -/
def codeEdge (visit : NodeId → Assemble StateId) (name : String)
    (edge : Edge) :
    Assemble Machine.Edge := do
  match edge.key with
  | some (.code code) =>
    return ⟨some (.code code), ← visit edge.target, true, none⟩
  | _ => throw (.nonIntegerKey name)

/-- Assembles a node that is no match node. -/
def plainNode (blueprint : Blueprint) (visit : NodeId → Assemble StateId)
    (id : NodeId) :
    Assemble StateId := do
  let node := blueprint.graph.node id
  let state ← addState node.name (← stateKind blueprint node.name node.kind)
    none
  enter id state
  match node.otherwise, node.kind with
  | some edge, _ =>
    setOtherwise state (.otherwise (← visit edge.target) edge.noAdvance)
  | none, .error .. => pure ()
  | none, _ => throw (.missingOtherwise node.name)
  match node.kind with
  | .invoke _ => setEdges state (← node.edges.mapM (codeEdge visit node.name))
  | _ => pure ()
  return state

/-- Visits a node, and assembles it if it is not entered yet. Every level of
nesting enters a node, so `depth` need not exceed the number of nodes. -/
def visit (blueprint : Blueprint) : (depth : Nat) → NodeId → Assemble StateId
  | 0, id => return ((← get).stateOf? id).getD 0
  | depth + 1, id => do
    match (← get).stateOf? id with
    | some state => return state
    | none =>
      let node := blueprint.graph.node id
      match node.kind with
      | .dispatch transform =>
        matchNode blueprint (visit blueprint depth) ⟨id, node.name, transform⟩
      | _ => plainNode blueprint (visit blueprint depth) id

/-- The callbacks that use a slot, each once. -/
def slotCallbacks (blueprint : Blueprint) (spans : List SpanId) :
    Assemble SpanSlot :=
  spans.foldlM (fun callbacks span => do
    let callback ← addCode
      (blueprint.graph.code (blueprint.graph.spanCallback span))
    return if callbacks.contains callback then callbacks else callbacks
      ++ [callback]) []

/-- Assembles what `root` leads to: the span slots, then the nodes. -/
def assemble (blueprint : Blueprint) (root : NodeId) :
    Assemble (List SpanSlot × StateId) := do
  let slots ← blueprint.spans.sharing.mapM blueprint.slotCallbacks
  let root ← blueprint.visit (blueprint.graph.size + 1) root
  return (slots, root)

end Blueprint

end Bytewise
