/-
Spans: which may be open where, and where their positions are kept.

A span is open from a node that starts it to a node that ends it. Which
spans may be open at a node is found by passing open spans along all
edges; a span that could be started while it is open is refused, and so is
an end that can be reached while the span is not open.

Each span needs a slot of the state for the position at which its bytes
begin. Spans that are never open together may share one: the slots are a
greedy coloring of the graph of spans that overlap, in order of name.
-/
import Bytewise.Diagnostic
import Bytewise.Graph.Walk

namespace Bytewise

/-- A set of spans, ascending and without repetition. -/
abbrev SpanSet := List SpanId

/-- `span` put into its place. -/
def SpanSet.insert (span : SpanId) : SpanSet → SpanSet
  | [] => [span]
  | s :: rest =>
    if span < s then span :: s :: rest
    else if span == s then s :: rest
    else s :: SpanSet.insert span rest

/-- Where spans keep their positions. -/
structure SpanAllocation where
  /-- The slot of each span, ascending by span. -/
  slots : List (SpanId × Nat)
  /-- The spans of each slot, by name. -/
  sharing : List (List SpanId)
  /-- The last slot, if there is one. -/
  last : Option Nat
deriving DecidableEq, Repr

/-- The slot of `span`. -/
def SpanAllocation.slot? (allocation : SpanAllocation) (span : SpanId) :
    Option Nat :=
  allocation.slots.lookup span

namespace Graph

-- ====================================================== activity

/-- The spans that may be open at each node, by node. -/
abbrev OpenSpans := Array SpanSet

/-- Passes `span` along an edge from `id`. The target waits if the span is new
there. -/
def passSpan (g : Graph) (id : NodeId) (span : SpanId)
    (state : List NodeId × OpenSpans)
    (target : NodeId) : Except Cause (List NodeId × OpenSpans) :=
  let (waiting, spans) := state
  if (g.node target).kind == .spanStart span then
    .error (.spanLoop (g.spanName span) (g.node id).name)
  else
    let there := spans.getD target []
    if there.contains span then .ok state
    else .ok (if waiting.contains target then waiting else waiting ++ [target],
      spans.setIfInBounds target (SpanSet.insert span there))

/-- Passes the spans open at `id` along its edges; a span that `id` ends goes
no further. -/
def passSpans (g : Graph) (id : NodeId) (state : List NodeId × OpenSpans) :
    Except Cause (List NodeId × OpenSpans) :=
  let node := g.node id
  let (waiting, spans) := state
  let here := spans.getD id []
  let here := match node.kind with
    | .spanStart span => SpanSet.insert span here
    | _ => here
  let state := (waiting, spans.setIfInBounds id here)
  (here.filter fun span => node.kind != .spanEnd span).foldlM
      (fun state span =>
    node.targets.foldlM (g.passSpan id span) state) state

/-- Passes on the spans of waiting nodes until none waits. A node waits again
only when a span is new to it, so `bound` need not exceed the number of nodes
times one more than that of spans. -/
def spreadSpans (g : Graph) :
    (bound : Nat) → List NodeId × OpenSpans → Except Cause OpenSpans
  | 0, (_, spans) => .ok spans
  | _ + 1, ([], spans) => .ok spans
  | bound + 1, (id :: waiting, spans) => do
    spreadSpans g bound (← g.passSpans id (waiting, spans))

/-- The spans that may be open at the nodes that `root` leads to. -/
def openSpans (g : Graph) (root : NodeId) : Except Cause OpenSpans :=
  g.spreadSpans (g.size * (g.spans.size + 1) + 1)
    (g.reachable root, Array.replicate g.size [])

-- ====================================================== ends

/-- What is wrong with going from `id` to `target`: a span is open there that
is not open here, or the target ends a span that is not open here. -/
def spanFault? (g : Graph) (spans : OpenSpans) (id target : NodeId) :
    Option Cause :=
  let node := g.node target
  let here := spans.getD id []
  match node.kind with
  | .spanStart _ => none
  | kind =>
    if node.isTerminal then none
    else match (spans.getD target []).find? (!here.contains ·), kind with
      | some missing, _ =>
        some (.unmatchedSpanEnd (g.spanName missing) node.name
          (some (g.node id).name))
      | none, .spanEnd span =>
        if here.contains span then none
        else some (.unmatchedSpanEnd (g.spanName span) node.name none)
      | none, _ => none

/-- Refuses a graph with an edge that `spanFault?` finds fault with. -/
def checkSpanEnds (g : Graph) (root : NodeId) (spans : OpenSpans) :
    Except Cause Unit :=
  (g.reachable root).forM fun id =>
    (g.node id).targets.forM fun target =>
      match g.spanFault? spans id target with
      | some cause => .error cause
      | none => .ok ()

-- ====================================================== slots

/-- The spans that a node `root` leads to starts. -/
def startedSpans (g : Graph) (root : NodeId) : SpanSet :=
  (g.reachable root).foldl (fun spans id =>
    match (g.node id).kind with
    | .spanStart span => SpanSet.insert span spans
    | _ => spans) []

/-- Whether two different spans may be open at one node. -/
def overlap (spans : OpenSpans) (s t : SpanId) : Bool :=
  s != t && spans.any fun here => here.contains s && here.contains t

/-- Spans in the order in which they get slots: by name, then by creation. -/
def slotOrder (g : Graph) (spans : SpanSet) : List SpanId :=
  spans.mergeSort fun s t =>
    g.spanName s < g.spanName t || (g.spanName s == g.spanName t && s ≤ t)

/-- The least number that is not in `used`. -/
def leastFree (used : List Nat) : Nat :=
  ((List.range (used.length + 1)).find? (!used.contains ·)).getD 0

/-- Gives each span the first slot that no overlapping span before it has. -/
def assignSlots (spans : OpenSpans) : List SpanId → List (SpanId × Nat) →
    List (SpanId × Nat)
  | [], slots => slots
  | span :: rest, slots =>
    let used :=
      (slots.filter fun entry => overlap spans span entry.1).map (·.2)
    assignSlots spans rest (slots ++ [(span, leastFree used)])

/-- Where the spans of a graph keep their positions. -/
def allocateSpans (g : Graph) (root : NodeId) :
    Except Cause SpanAllocation := do
  let spans ← g.openSpans root
  g.checkSpanEnds root spans
  let slots := assignSlots spans (g.slotOrder (g.startedSpans root)) []
  let last := (slots.map (·.2)).max?
  let count := match last with
    | some last => last + 1
    | none => 0
  return {
    slots := slots.mergeSort fun a b => a.1 ≤ b.1
    sharing := (List.range count).map fun slot =>
      (slots.filter fun entry => entry.2 == slot).map (·.1)
    last }

end Graph

end Bytewise
