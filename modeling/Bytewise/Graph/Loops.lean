/-
Loops that consume nothing.

A parser must not be able to come back to a node on the same unread byte.
For each node, taken as a start, the bytes with which other nodes can be
reached unread are spread along the edges that do not advance, until
nothing grows; then a depth-first search looks for a cycle among the edges
that some byte passes.

A byte passes an edge that does not advance if no consuming edge of the
same node has a key that starts with it and the edge's own key, if it has
one, starts with it.
-/
import Bytewise.ByteSet
import Bytewise.Diagnostic
import Bytewise.Graph.Walk

namespace Bytewise

namespace Node

/-- The bytes that a consuming keyed edge takes. -/
def consumedBytes (node : Node) : ByteSet :=
  ByteSet.ofList ((node.edges.filter (!·.noAdvance)).filterMap (·.firstByte?))

end Node

/-- The part of `bytes` that passes an edge that does not advance. -/
def Edge.passing (edge : Edge) (bytes : ByteSet) : ByteSet :=
  match edge.firstByte? with
  | some b => bytes.inter (ByteSet.singleton b)
  | none => bytes

/-- Where the bytes of `arriving` can go from a node without being read, edge
by edge. -/
def Node.unreadFlow (node : Node) (arriving : ByteSet) :
    List (NodeId × ByteSet) :=
  let left := arriving.diff node.consumedBytes
  if left.isEmpty then []
  else ((node.allEdges.filter (·.noAdvance)).map fun edge =>
    (edge.target, edge.passing left)).filter
    (!·.2.isEmpty)

namespace Graph

-- ====================================================== spreading

/-- The bytes with which each node can be reached, by node. -/
abbrev Arrivals := Array ByteSet

/-- Adds bytes to those of a node. If they grow, the node waits to pass them
on. -/
def pour (state : List NodeId × Arrivals) (flow : NodeId × ByteSet) :
    List NodeId × Arrivals :=
  let (waiting, arrivals) := state
  let (target, bytes) := flow
  let before := arrivals.getD target ∅
  let after := before.union bytes
  if after == before then (waiting, arrivals)
  else (if waiting.contains target then waiting else waiting ++ [target],
    arrivals.setIfInBounds target after)

/-- Passes on the bytes of waiting nodes until none waits. A node waits again
only when its bytes have grown, so `bound` need not exceed one for the start
and 256 for every node. -/
def spread (g : Graph) :
    (bound : Nat) → (waiting : List NodeId) → Arrivals → Arrivals
  | 0, _, arrivals => arrivals
  | _ + 1, [], arrivals => arrivals
  | bound + 1, id :: waiting, arrivals =>
    let flow := (g.node id).unreadFlow (arrivals.getD id ∅)
    let (waiting, arrivals) := flow.foldl pour (waiting, arrivals)
    spread g bound waiting arrivals

/-- The bytes with which each node can be reached from `start` with none of
them read. -/
def arrivalsFrom (g : Graph) (start : NodeId) : Arrivals :=
  spread g (256 * g.size + 1) [start]
    ((Array.replicate g.size ∅).setIfInBounds start ByteSet.full)

-- ====================================================== cycles

/-- The targets of the edges of `id` that some arriving byte passes. -/
def liveTargets (g : Graph) (arrivals : Arrivals) (id : NodeId) :
    List NodeId :=
  ((g.node id).unreadFlow (arrivals.getD id ∅)).map (·.1)

/-- Searches for a cycle below `id`. `path` leads there, last node first, and
`done` marks the nodes known to have no cycle below them. A path holds each
node once, so `depth` need not exceed the number of nodes by more than one. -/
def searchCycle (g : Graph) (arrivals : Arrivals) :
    (depth : Nat) → (path : List NodeId) →
    (id : NodeId) → (done : Array Bool) → Except Cause (Array Bool)
  | 0, _, _, done => .ok done
  | depth + 1, path, id, done =>
    if done.getD id false then .ok done
    else do
      let done ← (g.liveTargets arrivals id).foldlM (fun done next =>
        if path.contains next then
          .error
            (.loop (g.node next).name
            (path.reverse.map fun id => (g.node id).name))
        else searchCycle g arrivals depth (next :: path) next done) done
      return done.setIfInBounds id true

/-- Refuses a graph with a cycle that some byte can go round unread after it
has been reached from `start`. -/
def checkLoopsFrom (g : Graph) (start : NodeId) : Except Cause Unit := do
  let _ ← searchCycle g (g.arrivalsFrom start) (g.size + 2) [] start
    (Array.replicate g.size false)

/-- Refuses a graph in which some node that `root` leads to is the start of
such a cycle. -/
def checkLoops (g : Graph) (root : NodeId) : Except Cause Unit :=
  (g.reachable root).forM g.checkLoopsFrom

end Graph

end Bytewise
